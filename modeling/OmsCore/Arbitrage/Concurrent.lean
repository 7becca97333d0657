import OmsCore.Arbitrage.Matrix
import Mathlib.Logic.Relation

/-! # Concurrent writers on one symbol

    `updatePriceFeed` calls on an already indexed symbol, made by several threads, one
    exchange each, interleaved at the granularity of the atomic operations and the slot
    writes (sequential consistency). A call loads `exchange_count`, compares the slots
    below the count it loaded and, when its exchange is not there, takes slot `count`,
    `fetch_add`s the counter and writes the slot.

    The slot comes from the load, not from the `fetch_add`: two calls that load the same
    count both take that slot, the counter moves twice, one update overwrites the other
    and the slot above is never written (`concurrent_new_exchanges_share_slot`). A call
    that runs alone is `writeFeed` (`solo_writeFeed`).
-/

namespace OmsCore

namespace Arbitrage

namespace Concurrent

open ArbitrageDetector

/-! ## State and steps -/

/-- Where one call stands once `getOrCreateSymbolIndex` has returned the symbol's slot. -/
inductive Pc where
  /-- Before `exchange_count.load`. -/
  | start
  /-- `count` loaded; the loop is at slot `i`. -/
  | search (count i : Nat)
  /-- Not found with `count < MAX_EXCHANGES`: `exchange_idx = count`, before the
      `fetch_add`. -/
  | claim (count : Nat)
  /-- About to write slot `idx`. -/
  | write (idx : Nat)
  | done
  deriving DecidableEq, Repr

/-- A thread inside `updatePriceFeed(exchange, symbol, ...)`. -/
structure Writer where
  exchange : CString
  quote : Quote
  pc : Pc

/-- The detector and every writer's position. -/
structure State where
  d : ArbitrageDetector
  writers : List Writer

/-- Writer `i`, which is `w`, moves to `pc`. -/
def State.setPc (st : State) (i : Nat) (w : Writer) (pc : Pc) : State :=
  { st with writers := st.writers.set i { w with pc := pc } }

/-- `exchange_count.fetch_add(1)` on the `std::atomic<uint8_t>` of symbol slot `s`. -/
def bumpCount (d : ArbitrageDetector) (s : Nat) : ArbitrageDetector :=
  let sp := d.symbolPrices s
  { d with
    symbolPrices := Function.update d.symbolPrices s
      { sp with exchangeCount := (sp.exchangeCount + 1) % 256 } }

/-- The write of `feeds[idx]` of symbol slot `s`, with the `processed_prices_` increment
    that ends the call. -/
def writeSlot (d : ArbitrageDetector) (s idx : Nat) (feed : PriceFeed) : ArbitrageDetector :=
  let sp := d.symbolPrices s
  { d with
    symbolPrices := Function.update d.symbolPrices s
      { sp with feeds := Function.update sp.feeds idx feed }
    processedPrices := d.processedPrices + 1 }

variable (symbol : CString) (s : Nat)

/-- One atomic step of one writer of `symbol`, whose slot is `s`. Comparing a slot at or
    past `MAX_EXCHANGES` reads outside `feeds`, and is undefined: no step. -/
inductive Step : State → State → Prop where
  | load (st : State) (i : Nat) (w : Writer) (hw : st.writers[i]? = some w)
      (hpc : w.pc = .start) :
      Step st (st.setPc i w (.search (st.d.symbolPrices s).exchangeCount 0))
  | compare (st : State) (i : Nat) (w : Writer) (count j : Nat) (found : Bool)
      (hw : st.writers[i]? = some w) (hpc : w.pc = .search count j) (hj : j < count)
      (hmax : j < maxExchanges)
      (hcmp : strcmpEq (((st.d.symbolPrices s).feeds j).exchange ++ [st.d.pad s j])
        (w.exchange.bytes ++ [0]) = some found) :
      Step st (st.setPc i w (if found then .write j else .search count (j + 1)))
  | notFound (st : State) (i : Nat) (w : Writer) (count : Nat) (hw : st.writers[i]? = some w)
      (hpc : w.pc = .search count count) :
      Step st (st.setPc i w (if count < maxExchanges then .claim count else .done))
  | fetchAdd (st : State) (i : Nat) (w : Writer) (count : Nat) (hw : st.writers[i]? = some w)
      (hpc : w.pc = .claim count) :
      Step st ({ st with d := bumpCount st.d s }.setPc i w (.write count))
  | write (st : State) (i : Nat) (w : Writer) (idx now : Nat) (hw : st.writers[i]? = some w)
      (hpc : w.pc = .write idx) :
      Step st ({ st with
        d := writeSlot st.d s idx
          ⟨strncpy15 w.exchange.bytes, strncpy15 symbol.bytes, w.quote, now⟩ }.setPc i w .done)

/-! ## Two new exchanges share a slot -/

/-- `OKX` quotes `BTC`; then two threads add `BINANCE` and `UPBIT`. Both load
    `exchange_count = 1`, find nothing in slot 0, take slot 1 and `fetch_add`; both write
    slot 1. The count is 3, slot 1 holds `UPBIT`, slot 2 was never written, and `BINANCE`
    owns no slot: its first update is lost. -/
theorem concurrent_new_exchanges_share_slot :
    ∃ d0 st, (new fun _ _ => 0).updatePriceFeed ⟨[79, 75, 88], by decide⟩
        ⟨[66, 84, 67], by decide⟩ ⟨1, 1, 2, 1⟩ 0 = some d0 ∧
      Relation.ReflTransGen (Step ⟨[66, 84, 67], by decide⟩ 0)
        ⟨d0, [⟨⟨[66, 73, 78, 65, 78, 67, 69], by decide⟩, ⟨1, 2, 2, 2⟩, .start⟩,
          ⟨⟨[85, 80, 66, 73, 84], by decide⟩, ⟨1, 3, 2, 3⟩, .start⟩]⟩ st ∧
      (∀ w ∈ st.writers, w.pc = .done) ∧
      (st.d.symbolPrices 0).exchangeCount = 3 ∧
      ((st.d.symbolPrices 0).feeds 1).exchange = strncpy15 [85, 80, 66, 73, 84] ∧
      ((st.d.symbolPrices 0).feeds 2).exchange = List.replicate 15 0 ∧
      ∀ i < 3, ((st.d.symbolPrices 0).feeds i).exchange ≠ strncpy15 [66, 73, 78, 65, 78, 67, 69] :=
  ⟨_, _, rfl,
    .head (Step.load _ 0 _ rfl rfl) <|
    .head (Step.load _ 1 _ rfl rfl) <|
    .head (Step.compare _ 0 _ 1 0 false rfl rfl (by decide) (by decide) rfl) <|
    .head (Step.compare _ 1 _ 1 0 false rfl rfl (by decide) (by decide) rfl) <|
    .head (Step.notFound _ 0 _ 1 rfl rfl) <|
    .head (Step.notFound _ 1 _ 1 rfl rfl) <|
    .head (Step.fetchAdd _ 0 _ 1 rfl rfl) <|
    .head (Step.fetchAdd _ 1 _ 1 rfl rfl) <|
    .head (Step.write _ 0 _ 1 1 rfl rfl) <|
    .head (Step.write _ 1 _ 1 2 rfl rfl) .refl,
    by decide, by decide, by decide, by decide, by decide⟩

/-! ## A call alone is `writeFeed` -/

/-- The state with one writer, at `pc`. -/
def solo (d : ArbitrageDetector) (ex : CString) (q : Quote) (pc : Pc) : State :=
  ⟨d, [⟨ex, q, pc⟩]⟩

/-- Where the slot loop leaves a call: at the slot it found, or past the loaded count. -/
def afterSearch (count : Nat) : Option Nat → Pc
  | some i => .write i
  | none => .search count count

theorem solo_load (d : ArbitrageDetector) (ex : CString) (q : Quote) :
    Step symbol s (solo d ex q .start)
      (solo d ex q (.search (d.symbolPrices s).exchangeCount 0)) :=
  Step.load (solo d ex q .start) 0 ⟨ex, q, .start⟩ rfl rfl

theorem solo_notFound (d : ArbitrageDetector) (ex : CString) (q : Quote) (count : Nat) :
    Step symbol s (solo d ex q (.search count count))
      (solo d ex q (if count < maxExchanges then .claim count else .done)) :=
  Step.notFound (solo d ex q (.search count count)) 0 ⟨ex, q, .search count count⟩ count rfl rfl

theorem solo_fetchAdd (d : ArbitrageDetector) (ex : CString) (q : Quote) (count : Nat) :
    Step symbol s (solo d ex q (.claim count)) (solo (bumpCount d s) ex q (.write count)) :=
  Step.fetchAdd (solo d ex q (.claim count)) 0 ⟨ex, q, .claim count⟩ count rfl rfl

theorem solo_write (d : ArbitrageDetector) (ex : CString) (q : Quote) (idx now : Nat) :
    Step symbol s (solo d ex q (.write idx))
      (solo (writeSlot d s idx ⟨strncpy15 ex.bytes, strncpy15 symbol.bytes, q, now⟩) ex q .done) :=
  Step.write (solo d ex q (.write idx)) 0 ⟨ex, q, .write idx⟩ idx now rfl rfl

/-- The slot loop from slot `j` runs the comparisons of `findExchange`. -/
theorem solo_search (d : ArbitrageDetector) (ex : CString) (q : Quote) {count : Nat}
    (hc : count ≤ maxExchanges) :
    ∀ k j, j + k = count → ∀ r, firstMatch (fun i => strcmpEq
        (((d.symbolPrices s).feeds i).exchange ++ [d.pad s i]) (ex.bytes ++ [0]))
        (List.range' j k) = some r →
      Relation.ReflTransGen (Step symbol s) (solo d ex q (.search count j))
        (solo d ex q (afterSearch count r))
  | 0, j, hjk, r, h => by
    obtain rfl : r = none := (Option.some.inj h).symm
    obtain rfl : j = count := by omega
    exact .refl
  | k + 1, j, hjk, r, h => by
    rw [List.range'_succ, firstMatch] at h
    cases hj : strcmpEq (((d.symbolPrices s).feeds j).exchange ++ [d.pad s j])
        (ex.bytes ++ [0]) with
    | none => rw [hj] at h; cases h
    | some found =>
      have step : Step symbol s (solo d ex q (.search count j))
          (solo d ex q (if found then .write j else .search count (j + 1))) :=
        Step.compare (solo d ex q (.search count j)) 0 ⟨ex, q, .search count j⟩ count j found
          rfl rfl (by omega) (by omega) hj
      rw [hj, Option.some_bind] at h
      cases found with
      | false => exact .head step (solo_search d ex q hc k (j + 1) (by omega) r h)
      | true =>
        obtain rfl : r = some j := (Option.some.inj h).symm
        exact .single step

theorem writeSlot_bumpCount (d : ArbitrageDetector) (s idx : Nat) (feed : PriceFeed) :
    writeSlot (bumpCount d s) s idx feed =
      { d with
        symbolPrices := Function.update d.symbolPrices s
          { d.symbolPrices s with
            exchangeCount := ((d.symbolPrices s).exchangeCount + 1) % 256
            feeds := Function.update (d.symbolPrices s).feeds idx feed }
        processedPrices := d.processedPrices + 1 } := by
  simp [writeSlot, bumpCount]

/-- Run alone on a symbol with at most `MAX_EXCHANGES` exchanges, a call's steps reach
    the detector that `writeFeed` returns, whenever it returns one. -/
theorem solo_writeFeed {d d' : ArbitrageDetector} {ex : CString} {q : Quote} {now : Nat}
    (hc : (d.symbolPrices s).exchangeCount ≤ maxExchanges)
    (h : d.writeFeed s ex symbol q now = some d') :
    Relation.ReflTransGen (Step symbol s) (solo d ex q .start) (solo d' ex q .done) := by
  obtain ⟨found, hfind, rfl⟩ := Option.map_eq_some'.1 h
  rw [findExchange, List.range_eq_range'] at hfind
  refine .head (solo_load symbol s d ex q)
    ((solo_search symbol s d ex q hc _ 0 (Nat.zero_add _) found hfind).trans ?_)
  cases found with
  | some i => exact .single (solo_write symbol s d ex q i now)
  | none =>
    have hnf := solo_notFound symbol s d ex q (d.symbolPrices s).exchangeCount
    by_cases hroom : (d.symbolPrices s).exchangeCount < maxExchanges
    · rw [if_pos hroom] at hnf
      have hw := solo_write symbol s (bumpCount d s) ex q (d.symbolPrices s).exchangeCount now
      rw [writeSlot_bumpCount, Nat.mod_eq_of_lt (by unfold maxExchanges at hroom; omega)] at hw
      simp only [chooseSlot, if_pos hroom]
      exact .head hnf (.head (solo_fetchAdd symbol s d ex q _) (.single hw))
    · rw [if_neg hroom] at hnf
      simp only [chooseSlot, if_neg hroom]
      exact .single hnf

end Concurrent

end Arbitrage

end OmsCore
