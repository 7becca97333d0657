import OmsCore.Risk.Engine
import Mathlib.Algebra.BigOperators.Group.Finset
import Mathlib.Tactic.Linarith
import Mathlib.Tactic.FieldSimp
import Mathlib.Tactic.NormNum
import Mathlib.Tactic.Ring

/-! # Realised PnL and the position book

    Average-cost accounting says that the realised PnL equals the cash flow of the
    trades plus the book value of the open positions, each at its average price:
    `daily_pnl = -(Σ qᵢ pᵢ) + Σ Q · avg`. `updatePosition` keeps this identity on every
    trade except one that reduces a position without crossing zero: there it realises
    PnL on the closed part and also moves `avg_price` to `(old·avg + Δ·fill) / new`, the
    formula meant for adding to a position (`partial_reduction_pnl`). Every run free of
    such trades keeps the identity (`daily_pnl_books`).
-/

namespace OmsCore

namespace Risk

/-- One `updatePosition(symbol, quantity, price)` call. -/
structure Trade where
  symbol : String
  quantity : ℚ
  price : ℚ

namespace RiskEngine

/-- `updatePosition` called on each trade in turn. -/
def run (re : RiskEngine) (trades : List Trade) : RiskEngine :=
  trades.foldl (fun re t => re.updatePosition t.symbol t.quantity t.price) re

/-- The open positions at their average prices, over every slot of the table. -/
def book (re : RiskEngine) : ℚ :=
  ∑ i ∈ Finset.range maxSymbols, (re.positions i).quantity * (re.positions i).avgPrice

end RiskEngine

/-- The cash flow of the trades: a buy pays `q · p`, a sell receives it. -/
def cashFlow (trades : List Trade) : ℚ := -(trades.map fun t => t.quantity * t.price).sum

/-- A trade against a position that leaves it on the same side of zero. -/
def PartialReduction (pos : PositionInfo) (quantity : ℚ) : Prop :=
  pos.quantity * quantity < 0 ∧ pos.quantity * (pos.quantity + quantity) > 0

open RiskEngine

/-! ## One trade -/

/-- Outside a partial reduction, the PnL a trade realises is its cash flow plus the
    change of the slot's book value. -/
theorem realized_eq_book_change (pos : PositionInfo) {q : ℚ} (p : ℚ)
    (h : ¬ PartialReduction pos q) :
    (tradePosition pos q p).2 = -(q * p) + (tradePosition pos q p).1.quantity *
      (tradePosition pos q p).1.avgPrice - pos.quantity * pos.avgPrice := by
  obtain ⟨o, v, a⟩ := pos
  simp only [PartialReduction, not_and, not_lt] at h
  simp only [tradePosition, calculateRealizedPnL]
  by_cases hoq : o * q < 0
  · have hon := h hoq
    have hmin : min |o| |q| = |o| := by
      rcases mul_neg_iff.1 hoq with ⟨ho, hq⟩ | ⟨ho, hq⟩
      · have := nonpos_of_mul_nonpos_right hon ho
        rw [abs_of_pos ho, abs_of_neg hq]; exact min_eq_left (le_neg_iff_add_nonpos_right.2 this)
      · have := nonneg_of_mul_nonpos_right hon ho
        rw [abs_of_neg ho, abs_of_pos hq]; exact min_eq_left (neg_le_iff_add_nonneg'.2 this)
    have hreal : (if o > 0 then min |o| |q| * (p - a) else min |o| |q| * (a - p)) =
        o * (p - a) := by
      rw [hmin]
      split_ifs with hpos
      · rw [abs_of_pos hpos]
      · rw [abs_of_nonpos (not_lt.1 hpos)]; ring
    rw [if_pos hoq, hreal]
    by_cases hn : o + q = 0
    · rw [if_neg (not_not.2 hn), show q = -o by linarith]; ring
    · rw [if_pos hn, if_neg (not_lt.2 hon)]; ring
  · have hoq' : 0 ≤ o * q := not_lt.1 hoq
    rw [if_neg hoq]
    by_cases hn : o + q = 0
    · obtain rfl : q = -o := by linarith
      rw [mul_neg, neg_nonneg] at hoq'
      obtain rfl : o = 0 := mul_self_eq_zero.1 (le_antisymm hoq' (mul_self_nonneg o))
      simp
    · rw [if_pos hn]
      split_ifs with hpos
      · rw [mul_div_cancel₀ _ hn]; ring
      · have : o * o ≤ 0 := by linarith [mul_add o o q, not_lt.1 hpos]
        obtain rfl : o = 0 := mul_self_eq_zero.1 (le_antisymm this (mul_self_nonneg o))
        ring

/-! ## Runs -/

theorem slot_lt (symbol : String) : slot symbol < maxSymbols := Nat.mod_lt _ (by decide)

theorem book_new (config : RiskConfig) : book (new config) = 0 := by
  simp [book, new, PositionInfo.zero]

/-- A trade changes the book by the change of its slot's book value. -/
theorem book_updatePosition (re : RiskEngine) (s : String) (q p : ℚ) :
    book (re.updatePosition s q p) = book re +
      ((tradePosition (re.positions (slot s)) q p).1.quantity *
        (tradePosition (re.positions (slot s)) q p).1.avgPrice -
      (re.positions (slot s)).quantity * (re.positions (slot s)).avgPrice) := by
  have hmem := Finset.mem_range.2 (slot_lt s)
  let f : RiskEngine → Nat → ℚ := fun re j => (re.positions j).quantity * (re.positions j).avgPrice
  show ∑ j ∈ _, f _ j = ∑ j ∈ _, f re j + _
  rw [← Finset.add_sum_erase _ (f (re.updatePosition s q p)) hmem,
    ← Finset.add_sum_erase _ (f re) hmem,
    Finset.sum_congr rfl fun j hj => show f (re.updatePosition s q p) j = f re j by
      simp only [f, updatePosition, Function.update_noteq (Finset.ne_of_mem_erase hj)]]
  simp only [f, updatePosition, Function.update_same]
  ring

/-- Outside a partial reduction, `updatePosition` moves `daily_pnl - book` by the trade's
    cash flow. -/
theorem updatePosition_pnl (re : RiskEngine) (t : Trade)
    (h : ¬ PartialReduction (re.positions (slot t.symbol)) t.quantity) :
    (re.updatePosition t.symbol t.quantity t.price).dailyPnl -
        book (re.updatePosition t.symbol t.quantity t.price) =
      re.dailyPnl - book re - t.quantity * t.price := by
  rw [book_updatePosition]
  show re.dailyPnl + (tradePosition _ _ _).2 - _ = _
  rw [realized_eq_book_change _ _ h]
  ring

/-- Every trade of the run, taken in the state it meets, is no partial reduction. -/
def NoPartialReduction : RiskEngine → List Trade → Prop
  | _, [] => True
  | re, t :: ts => ¬ PartialReduction (re.positions (slot t.symbol)) t.quantity ∧
      NoPartialReduction (re.updatePosition t.symbol t.quantity t.price) ts

theorem run_pnl (re : RiskEngine) (trades : List Trade) (h : NoPartialReduction re trades) :
    (re.run trades).dailyPnl - book (re.run trades) =
      re.dailyPnl - book re + cashFlow trades := by
  induction trades generalizing re with
  | nil => simp [run, cashFlow]
  | cons t ts ih =>
    obtain ⟨ht, hts⟩ := h
    have := ih _ hts
    simp only [run, List.foldl_cons] at this ⊢
    rw [this, updatePosition_pnl re t ht]
    simp only [cashFlow, List.map_cons, List.sum_cons]
    ring

/-- From a fresh engine, along any run free of partial reductions, the realised PnL is
    the cash flow of the trades plus the book value of the open positions. -/
theorem daily_pnl_books (config : RiskConfig) (trades : List Trade)
    (h : NoPartialReduction (new config) trades) :
    ((new config).run trades).dailyPnl = cashFlow trades + book ((new config).run trades) := by
  have := run_pnl _ _ h
  rw [book_new, show (new config).dailyPnl = 0 from rfl] at this
  linarith

/-- A round trip at a profit of `1000`, then a fresh long of `2` at `42000`. -/
def roundTrip : List Trade :=
  [⟨"BTCUSDT", 1, 40000⟩, ⟨"BTCUSDT", -1, 41000⟩, ⟨"BTCUSDT", 2, 42000⟩]

/-- On the round trip the engine realises `1000`: the cash flow `-83000` plus the book
    `84000` of the long left open. -/
theorem daily_pnl_books_roundTrip :
    NoPartialReduction (new .default) roundTrip ∧
      ((new .default).run roundTrip).dailyPnl = 1000 ∧
      ((new .default).run roundTrip).dailyPnl =
        cashFlow roundTrip + book ((new .default).run roundTrip) := by
  have hnp : NoPartialReduction (new .default) roundTrip := by
    simp only [NoPartialReduction, roundTrip, PartialReduction, updatePosition,
      Function.update_same, tradePosition, calculateRealizedPnL, new, PositionInfo.zero]
    norm_num
  refine ⟨hnp, ?_, daily_pnl_books _ _ hnp⟩
  simp only [run, roundTrip, List.foldl_cons, List.foldl_nil]
  norm_num [updatePosition, tradePosition, calculateRealizedPnL, new, PositionInfo.zero, min_def]

/-! ## The trades of the repository's test -/

/-- `test_position_management`: buy `1` at `40000`, then sell `0.5` at `41000`. -/
def positionTest : List Trade := [⟨"BTCUSDT", 1, 40000⟩, ⟨"BTCUSDT", -1 / 2, 41000⟩]

/-- On the test's trades the engine realises `500` and moves `avg_price` to `39000`; the
    cash flow plus the book at that price is `0`, not `500`. -/
theorem partial_reduction_pnl :
    ((new .default).run positionTest).dailyPnl = 500 ∧
      ((new .default).run positionTest).positions (slot "BTCUSDT") = ⟨1 / 2, 20500, 39000⟩ ∧
      cashFlow positionTest + book ((new .default).run positionTest) = 0 := by
  simp only [run, positionTest, List.foldl_cons, List.foldl_nil, book_updatePosition, book_new]
  norm_num [updatePosition, tradePosition, calculateRealizedPnL, new, PositionInfo.zero,
    min_def, abs_of_pos, cashFlow]

end Risk

end OmsCore
