import OmsCore.Risk.Pnl
import Mathlib.Algebra.BigOperators.Ring.List
import Mathlib.Algebra.Order.BigOperators.Group.List

/-! # Average prices over runs that only add

    `updatePosition` keeps, per slot of `positions_`, the quantity, the value at the last
    fill and an average price, which it sets to the fill price when a position opens and
    to `(old · avg + Δ · fill) / new` when a trade adds to it. Along a run of buys, or a
    run of sells, from a fresh engine, nothing is realised and every slot holds the total
    quantity of the trades on its symbols at their volume-weighted average price, valued
    at the slot's last fill (`one_sided_average_price`).
-/

namespace OmsCore

namespace Risk

open RiskEngine

/-! ## One trade that adds -/

/-- A trade on the side of its position, or opening one, realises nothing, adds its
    quantity, adds its notional to the position's cost, and values the position at its
    price. -/
theorem tradePosition_adding (pos : PositionInfo) {q : ℚ} (p : ℚ) (h : 0 ≤ pos.quantity * q)
    (hn : pos.quantity + q ≠ 0) :
    (tradePosition pos q p).2 = 0 ∧ (tradePosition pos q p).1.quantity = pos.quantity + q ∧
      (tradePosition pos q p).1.quantity * (tradePosition pos q p).1.avgPrice =
        pos.quantity * pos.avgPrice + q * p ∧
      (tradePosition pos q p).1.value = (pos.quantity + q) * p := by
  obtain ⟨o, v, a⟩ := pos
  simp only [tradePosition, if_neg (not_lt.2 h), if_pos hn, true_and, and_true]
  split_ifs with hpos
  · field_simp
  · -- `o · (o + q) ≤ 0` with `o · q ≥ 0` leaves `o = 0`: the position opens at `p`
    have ho : o = 0 := by
      by_contra ho
      exact hpos (by rw [mul_add]; exact add_pos_of_pos_of_nonneg (mul_self_pos.2 ho) h)
    subst ho
    ring

/-! ## Runs of buys or of sells -/

/-- The trades of `trades` on symbols of slot `i`. -/
def tradesOn (i : Nat) (trades : List Trade) : List Trade :=
  trades.filter fun t => slot t.symbol = i

theorem tradesOn_append_singleton (i : Nat) (trades : List Trade) (t : Trade) :
    tradesOn i (trades ++ [t]) = if slot t.symbol = i then tradesOn i trades ++ [t]
      else tradesOn i trades := by
  by_cases h : slot t.symbol = i <;> simp [tradesOn, List.filter_append, h]

theorem run_append_singleton (re : RiskEngine) (trades : List Trade) (t : Trade) :
    re.run (trades ++ [t]) = (re.run trades).updatePosition t.symbol t.quantity t.price :=
  List.foldl_append _ _ _ _

/-- What a one-sided run leaves in slot `i`, with `σ` the side: the quantity is the trades'
    total, on the side `σ`, its cost is their total notional, and its value is taken at
    the last fill. -/
structure SlotAdds (σ : ℚ) (trades : List Trade) (pos : PositionInfo) : Prop where
  quantity : pos.quantity = ((trades.map Trade.quantity).sum)
  side : 0 ≤ σ * pos.quantity
  cost : pos.quantity * pos.avgPrice = (trades.map fun t => t.quantity * t.price).sum
  value : pos.value = pos.quantity * ((trades.getLast?.map Trade.price).getD 0)

theorem slotAdds_nil (σ : ℚ) : SlotAdds σ [] PositionInfo.zero :=
  ⟨rfl, by simp [PositionInfo.zero], by simp [PositionInfo.zero], by simp [PositionInfo.zero]⟩

/-- A trade on the side `σ` keeps `SlotAdds`. -/
theorem SlotAdds.trade {σ : ℚ} {trades : List Trade} {pos : PositionInfo}
    (h : SlotAdds σ trades pos) {t : Trade} (ht : 0 < σ * t.quantity) :
    SlotAdds σ (trades ++ [t]) (tradePosition pos t.quantity t.price).1 ∧
      (tradePosition pos t.quantity t.price).2 = 0 := by
  have hσ : σ ≠ 0 := by rintro rfl; simp at ht
  -- both factors have the sign of `σ`
  have hq : 0 ≤ pos.quantity * t.quantity := by
    refine (mul_nonneg_iff_of_pos_left (mul_self_pos.2 hσ)).1 ?_
    calc (0 : ℚ) ≤ (σ * pos.quantity) * (σ * t.quantity) := mul_nonneg h.side ht.le
      _ = σ * σ * (pos.quantity * t.quantity) := by ring
  have hn : pos.quantity + t.quantity ≠ 0 := fun h0 => by
    have := add_pos_of_nonneg_of_pos h.side ht
    rw [← mul_add, h0, mul_zero] at this
    exact lt_irrefl 0 this
  obtain ⟨hr, hQ, hc, hv⟩ := tradePosition_adding pos t.price hq hn
  refine ⟨⟨?_, ?_, ?_, ?_⟩, hr⟩
  · rw [hQ, h.quantity, List.map_append, List.sum_append]; simp
  · rw [hQ, mul_add]; linarith [h.side]
  · rw [hc, h.cost, List.map_append, List.sum_append]; simp
  · rw [hv, hQ]; simp

/-- From a fresh engine, along a run whose quantities are all of the sign of `σ`: nothing
    is realised, and every slot `i` holds what `SlotAdds` says of the trades on it. -/
theorem run_slotAdds (config : RiskConfig) {σ : ℚ} (trades : List Trade)
    (hside : ∀ t ∈ trades, 0 < σ * t.quantity) :
    ((new config).run trades).dailyPnl = 0 ∧
      ∀ i, SlotAdds σ (tradesOn i trades) (((new config).run trades).positions i) := by
  induction trades using List.reverseRecOn with
  | nil => exact ⟨rfl, fun _ => slotAdds_nil σ⟩
  | append_singleton trades t ih =>
    obtain ⟨hpnl, hslots⟩ := ih fun t ht => hside t (List.mem_append_left _ ht)
    have ht := hside t (List.mem_append_right _ (List.mem_singleton_self t))
    obtain ⟨hadd, hr⟩ := (hslots (slot t.symbol)).trade ht
    rw [run_append_singleton]
    refine ⟨by simp only [updatePosition, hpnl, hr, add_zero], fun i => ?_⟩
    rw [tradesOn_append_singleton]
    by_cases hi : slot t.symbol = i
    · subst hi
      simpa only [updatePosition, Function.update_same, if_pos rfl] using hadd
    · simpa only [updatePosition, Function.update_noteq (Ne.symm hi), if_neg hi] using hslots i

/-- From a fresh engine, along any run of buys, or any run of sells: nothing is realised,
    and every slot holds the total quantity of the trades on its symbols, at the
    volume-weighted average of their prices, valued at its last fill. -/
theorem one_sided_average_price (config : RiskConfig) (trades : List Trade)
    (hside : (∀ t ∈ trades, 0 < t.quantity) ∨ (∀ t ∈ trades, t.quantity < 0)) (i : Nat)
    (hi : tradesOn i trades ≠ []) :
    let pos := ((new config).run trades).positions i
    ((new config).run trades).dailyPnl = 0 ∧
      pos.quantity = ((tradesOn i trades).map Trade.quantity).sum ∧
      pos.avgPrice = ((tradesOn i trades).map fun t => t.quantity * t.price).sum /
        ((tradesOn i trades).map Trade.quantity).sum ∧
      pos.value = pos.quantity * ((tradesOn i trades).getLast?.map Trade.price).getD 0 := by
  intro pos
  obtain ⟨σ, hσ⟩ : ∃ σ : ℚ, ∀ t ∈ trades, 0 < σ * t.quantity := by
    rcases hside with h | h
    · exact ⟨1, fun t ht => by simpa using h t ht⟩
    · exact ⟨-1, fun t ht => by simpa using h t ht⟩
  obtain ⟨hpnl, hslots⟩ := run_slotAdds config trades hσ
  have h := hslots i
  -- the slot's quantity is a sum of terms of one sign, so it is not zero
  have hQ : pos.quantity ≠ 0 := by
    have hpos : 0 < σ * ((tradesOn i trades).map Trade.quantity).sum := by
      rw [← List.sum_map_mul_left]
      exact List.sum_pos _ (fun x hx => by
        obtain ⟨u, hu, rfl⟩ := List.mem_map.1 hx
        exact hσ u (List.mem_filter.1 hu).1) (by simpa using hi)
    rw [h.quantity]
    intro h0
    rw [h0, mul_zero] at hpos
    exact lt_irrefl 0 hpos
  refine ⟨hpnl, h.quantity, ?_, h.value⟩
  rw [← h.quantity, ← h.cost, mul_div_cancel_left₀ _ hQ]

theorem one_sided_average_price_buys :
    let trades : List Trade := [⟨"BTCUSDT", 1, 40000⟩, ⟨"BTCUSDT", 1, 42000⟩]
    ((∀ t ∈ trades, 0 < t.quantity) ∨ (∀ t ∈ trades, t.quantity < 0)) ∧
      tradesOn (slot "BTCUSDT") trades ≠ [] ∧
      ((new .default).run trades).dailyPnl = 0 := by
  intro trades
  have hside : (∀ t ∈ trades, 0 < t.quantity) ∨ (∀ t ∈ trades, t.quantity < 0) :=
    .inl (by simp [trades])
  have hi : tradesOn (slot "BTCUSDT") trades ≠ [] := by simp [trades, tradesOn]
  exact ⟨hside, hi, (one_sided_average_price .default trades hside _ hi).1⟩

end Risk

end OmsCore
