import OmsCore.MarketMaker.Basic
import Mathlib.Data.List.Basic
import Mathlib.Tactic.Ring
import Mathlib.Tactic.Linarith

/-! # The price history

    `updateMarketData` writes the mid price of its `t`-th call, counting from `0`, into
    slot `t mod PRICE_HISTORY_SIZE` of `price_history_`, so a slot holds the latest mid
    whose call number it is congruent to (`runUpdates_history`). `calculateVolatility`
    pairs the slots in array order. Until the ring wraps, array order is time order and
    the pairs are the consecutive mids (`volatility_pairs_before_wrap`). After `1001` calls,
    slot `0` holds the newest mid: the scan pairs it with the second oldest, and the pair
    of the two newest mids is never formed (`volatility_pairs_after_wrap`).
-/

namespace OmsCore

namespace MarketMaker

/-! ## Runs of market updates -/

/-- The arguments of one `updateMarketData` call, with its clock reading. -/
structure MarketUpdate where
  bidPrice : ℚ
  bidSize : ℚ
  askPrice : ℚ
  askSize : ℚ
  lastPrice : ℚ
  now : Nat

/-- The mid price `updateMarketData` computes from a call. -/
def MarketUpdate.midPrice (u : MarketUpdate) : ℚ := (u.bidPrice + u.askPrice) / 2

/-- What slot `j` of the history holds after the mids `mids`, oldest first: the latest
    whose position is congruent to `j`, or `0` if none is. -/
def latestInSlot (mids : List ℚ) (j : Nat) : ℚ :=
  if j < mids.length then mids.getD (j + (mids.length - 1 - j) / priceHistorySize * priceHistorySize) 0
  else 0

namespace MarketMakerEngine

/-- `updateMarketData` called with each update in turn. -/
def runUpdates (e : MarketMakerEngine) (libm : Libm) (us : List MarketUpdate) : MarketMakerEngine :=
  us.foldl (fun e u =>
    e.updateMarketData libm u.bidPrice u.bidSize u.askPrice u.askSize u.lastPrice u.now) e

/-- The history of an engine that has seen the mids `mids`. -/
def HistoryOf (e : MarketMakerEngine) (mids : List ℚ) : Prop :=
  e.priceIndex = mids.length ∧ ∀ j < priceHistorySize, e.priceHistory j = latestInSlot mids j

theorem historyOf_new (config : MarketMakerConfig) : (new config).HistoryOf [] :=
  ⟨rfl, fun j _ => by simp [new, latestInSlot]⟩

/-- One update writes the slot of the next call number. -/
theorem HistoryOf.updateMarketData {e : MarketMakerEngine} {mids : List ℚ} (h : e.HistoryOf mids)
    (hlen : mids.length + 1 < wordSize) (libm : Libm) (u : MarketUpdate) :
    (e.updateMarketData libm u.bidPrice u.bidSize u.askPrice u.askSize u.lastPrice u.now).HistoryOf
      (mids ++ [u.midPrice]) := by
  obtain ⟨hidx, hslot⟩ := h
  refine ⟨by simp [MarketMakerEngine.updateMarketData, sizeAdd, hidx, Nat.mod_eq_of_lt hlen],
    fun j hj => ?_⟩
  simp only [MarketMakerEngine.updateMarketData, hidx]
  unfold priceHistorySize at hj
  by_cases hjn : j = mids.length % priceHistorySize
  · -- the slot written: its latest call is this one
    subst hjn
    rw [Function.update_same, latestInSlot, if_pos (by simp; unfold priceHistorySize; omega),
      List.getD_eq_getElem?_getD, List.getElem?_append_right (by simp; unfold priceHistorySize; omega)]
    simp only [List.length_append, List.length_singleton]
    unfold priceHistorySize
    rw [show mids.length % 1000 + (mids.length + 1 - 1 - mids.length % 1000) / 1000 * 1000 -
      mids.length = 0 by omega]
    rfl
  · -- any other slot keeps its latest call
    rw [Function.update_noteq hjn, hslot j (by unfold priceHistorySize; omega)]
    unfold latestInSlot
    simp only [List.length_append, List.length_singleton]
    unfold priceHistorySize at hjn ⊢
    by_cases hj' : j < mids.length
    · rw [if_pos hj', if_pos (by omega), List.getD_eq_getElem?_getD, List.getD_eq_getElem?_getD,
        List.getElem?_append_left (by omega),
        show (mids.length + 1 - 1 - j) / 1000 = (mids.length - 1 - j) / 1000 by omega]
    · rw [if_neg hj', if_neg (by omega)]

/-- A run of updates records each mid in turn. -/
theorem HistoryOf.runUpdates {e : MarketMakerEngine} {mids : List ℚ} (h : e.HistoryOf mids)
    (libm : Libm) (us : List MarketUpdate) (hlen : mids.length + us.length < wordSize) :
    (e.runUpdates libm us).HistoryOf (mids ++ us.map MarketUpdate.midPrice) := by
  induction us generalizing e mids with
  | nil => simpa using h
  | cons u us ih =>
    have h' := h.updateMarketData (by simp at hlen; omega) libm u
    simpa using ih h' (by simp at hlen ⊢; omega)

/-- After `n ≤ 2^64 - 1` updates from a fresh engine, slot `j` holds the latest mid whose
    call number is congruent to `j`. -/
theorem runUpdates_history (config : MarketMakerConfig) (libm : Libm) (us : List MarketUpdate)
    (hlen : us.length < wordSize) :
    ((new config).runUpdates libm us).HistoryOf (us.map MarketUpdate.midPrice) := by
  simpa using (historyOf_new config).runUpdates libm us (by simpa using hlen)

end MarketMakerEngine

/-! ## The pairs the volatility scan forms -/

/-- With every slot positive, the scan pairs each slot with the one before it. -/
theorem returnPairs_of_pos {history : Nat → ℚ} (h : ∀ j < priceHistorySize, 0 < history j) :
    returnPairs history =
      (List.range' 1 (priceHistorySize - 1)).map fun i => (history (i - 1), history i) := by
  unfold returnPairs
  refine List.filterMap_eq_map_iff_forall_eq_some.2 fun i hi => ?_
  simp only [List.mem_range'_1] at hi
  unfold priceHistorySize at h hi
  exact if_pos ⟨h i (by omega), h (i - 1) (by omega)⟩

/-- Positive mids read back positive. -/
theorem getD_pos_of_forall {mids : List ℚ} (hpos : ∀ m ∈ mids, 0 < m) {j : Nat}
    (hj : j < mids.length) : 0 < mids.getD j 0 := by
  rw [List.getD_eq_getElem?_getD, List.getElem?_eq_getElem hj]
  exact hpos _ (List.getElem_mem hj)

/-- One call past a full history: slot `0` holds the newest mid, every other slot its own. -/
theorem latestInSlot_after_wrap {mids : List ℚ} (hlen : mids.length = priceHistorySize + 1)
    {j : Nat} (hj : j < priceHistorySize) :
    latestInSlot mids j = mids.getD (if j = 0 then priceHistorySize else j) 0 := by
  rw [latestInSlot, if_pos (by omega), hlen]
  unfold priceHistorySize at *
  split_ifs with h0
  · subst h0; rfl
  · rw [show (1000 + 1 - 1 - j) / 1000 = 0 by omega, Nat.zero_mul, Nat.add_zero]

/-- Before the history wraps, after `n` calls with positive mids, the scan forms exactly
    the consecutive pairs, the earlier mid first. -/
theorem returnPairs_before_wrap {mids : List ℚ} (hpos : ∀ m ∈ mids, 0 < m)
    (h0 : 0 < mids.length) (hn : mids.length ≤ priceHistorySize) :
    returnPairs (latestInSlot mids) =
      (List.range' 1 (mids.length - 1)).map fun i => (mids.getD (i - 1) 0, mids.getD i 0) := by
  have hn' : mids.length ≤ 1000 := hn
  have hslot : ∀ j < mids.length, latestInSlot mids j = mids.getD j 0 := fun j hj => by
    rw [latestInSlot, if_pos hj, show (mids.length - 1 - j) / priceHistorySize = 0 from
      Nat.div_eq_of_lt (by unfold priceHistorySize; omega), Nat.zero_mul, Nat.add_zero]
  have hsplit : priceHistorySize - 1 = (1000 - mids.length) + (mids.length - 1) := by
    unfold priceHistorySize; omega
  unfold returnPairs
  rw [hsplit, ← List.range'_append, List.filterMap_append]
  refine (congrArg₂ (· ++ ·) ?_ ?_).trans (List.append_nil _)
  · -- the slots written so far: consecutive mids
    refine List.filterMap_eq_map_iff_forall_eq_some.2 fun i hi => ?_
    simp only [List.mem_range'_1] at hi
    rw [hslot i (by omega), hslot (i - 1) (by omega)]
    exact if_pos ⟨getD_pos_of_forall hpos (by omega), getD_pos_of_forall hpos (by omega)⟩
  · -- the slots never written hold `0`
    refine List.filterMap_eq_nil_iff.2 fun i hi => ?_
    simp only [List.mem_range'_1] at hi
    have hz : latestInSlot mids i = 0 := if_neg (by omega)
    simp [hz]

/-- The scan reads only the slots below `PRICE_HISTORY_SIZE`. -/
theorem returnPairs_congr {history history' : Nat → ℚ}
    (h : ∀ j < priceHistorySize, history j = history' j) :
    returnPairs history = returnPairs history' := by
  refine List.filterMap_congr fun i hi => ?_
  simp only [List.mem_range'_1] at hi
  rw [h i (by omega), h (i - 1) (by omega)]

/-- From a fresh engine, after `n ≤ PRICE_HISTORY_SIZE` calls with positive mids
    `m 0 .. m (n - 1)`, the volatility scan forms exactly the consecutive pairs
    `(m (i - 1), m i)`, in time order. -/
theorem volatility_pairs_before_wrap (config : MarketMakerConfig) (libm : Libm)
    (us : List MarketUpdate) (h0 : 0 < us.length) (hn : us.length ≤ priceHistorySize)
    (hpos : ∀ u ∈ us, 0 < u.midPrice) :
    let m := fun t => (us.map MarketUpdate.midPrice).getD t 0
    returnPairs ((MarketMakerEngine.new config).runUpdates libm us).priceHistory =
      (List.range' 1 (us.length - 1)).map fun i => (m (i - 1), m i) := by
  intro m
  obtain ⟨-, hslot⟩ := MarketMakerEngine.runUpdates_history config libm us
    (lt_of_le_of_lt hn (by decide))
  rw [returnPairs_congr hslot, returnPairs_before_wrap (List.forall_mem_map.2 hpos)
    (by rwa [List.length_map]) (by rwa [List.length_map]), List.length_map]

/-- Three calls at mids `100`, `101` and `102`. -/
def threeMids : List MarketUpdate :=
  [⟨100, 1, 100, 1, 100, 0⟩, ⟨101, 1, 101, 1, 101, 1⟩, ⟨102, 1, 102, 1, 102, 2⟩]

theorem volatility_pairs_before_wrap_threeMids :
    0 < threeMids.length ∧ threeMids.length ≤ priceHistorySize ∧
      (∀ u ∈ threeMids, 0 < u.midPrice) ∧
      returnPairs ((MarketMakerEngine.new .default).runUpdates ⟨id, id⟩ threeMids).priceHistory =
        [(100, 101), (101, 102)] := by
  have hpos : ∀ u ∈ threeMids, 0 < u.midPrice := by
    simp only [threeMids, List.mem_cons, List.not_mem_nil, or_false]
    rintro u (rfl | rfl | rfl) <;> norm_num [MarketUpdate.midPrice]
  refine ⟨by decide, by decide, hpos, ?_⟩
  rw [volatility_pairs_before_wrap .default ⟨id, id⟩ threeMids (by decide) (by decide) hpos]
  norm_num [threeMids, MarketUpdate.midPrice, List.range'_succ]

/-- After `1001` calls with positive mids `m 0 .. m 1000`, the pairs the `1001`-st call's
    volatility scan forms: the newest mid over the second oldest, then the consecutive mids
    up to `m 998, m 999`. The consecutive pairs of the last `1000` mids are not what it forms
    as soon as `m 1 ≠ m 1000`. -/
theorem volatility_pairs_after_wrap (config : MarketMakerConfig) (libm : Libm)
    (us : List MarketUpdate) (hlen : us.length = 1001) (hpos : ∀ u ∈ us, 0 < u.midPrice) :
    let m := fun t => (us.map MarketUpdate.midPrice).getD t 0
    returnPairs ((MarketMakerEngine.new config).runUpdates libm us).priceHistory =
        (m 1000, m 1) :: (List.range' 2 998).map (fun i => (m (i - 1), m i)) ∧
      (m 1 ≠ m 1000 → returnPairs ((MarketMakerEngine.new config).runUpdates libm us).priceHistory ≠
        (List.range' 2 999).map fun i => (m (i - 1), m i)) := by
  intro m
  obtain ⟨-, hslot⟩ := MarketMakerEngine.runUpdates_history config libm us (by rw [hlen]; decide)
  have hlen' : (us.map MarketUpdate.midPrice).length = priceHistorySize + 1 := by
    rw [List.length_map, hlen]; rfl
  have hm : ∀ t < 1001, 0 < m t := fun t ht =>
    getD_pos_of_forall (List.forall_mem_map.2 hpos) (by rw [hlen']; exact ht)
  -- slot `0` holds the newest mid, every other slot its own
  have hval : ∀ j < priceHistorySize,
      ((MarketMakerEngine.new config).runUpdates libm us).priceHistory j =
        m (if j = 0 then 1000 else j) := fun j hj =>
    (hslot j hj).trans (latestInSlot_after_wrap hlen' hj)
  have hslotPos : ∀ j < priceHistorySize,
      0 < ((MarketMakerEngine.new config).runUpdates libm us).priceHistory j := fun j hj => by
    rw [hval j hj]
    unfold priceHistorySize at hj
    split_ifs <;> exact hm _ (by omega)
  have hpairs : returnPairs ((MarketMakerEngine.new config).runUpdates libm us).priceHistory =
      (m 1000, m 1) :: (List.range' 2 998).map (fun i => (m (i - 1), m i)) := by
    rw [returnPairs_of_pos hslotPos, show priceHistorySize - 1 = 998 + 1 from rfl,
      List.range'_succ, List.map_cons, hval 0 (by decide), hval 1 (by decide)]
    refine congrArg _ (List.map_congr_left fun i hi => ?_)
    simp only [List.mem_range'_1] at hi
    rw [hval (i - 1) (by unfold priceHistorySize; omega), hval i (by unfold priceHistorySize; omega),
      if_neg (by omega), if_neg (by omega)]
  refine ⟨hpairs, fun hne h => hne ?_⟩
  rw [hpairs, show 999 = 998 + 1 from rfl, List.range'_succ, List.map_cons] at h
  exact (Prod.mk.inj (List.cons.inj h).1).1.symm

/-- `1001` calls at bid and ask `t + 1` for the `t`-th: the scan starts with the pair of the
    newest mid `1001` over `2`. -/
theorem volatility_pairs_after_wrap_rising :
    let us := (List.range 1001).map fun t : Nat =>
      (⟨(t : ℚ) + 1, 1, (t : ℚ) + 1, 1, (t : ℚ) + 1, t⟩ : MarketUpdate)
    returnPairs ((MarketMakerEngine.new .default).runUpdates ⟨id, id⟩ us).priceHistory =
      ((1001 : ℚ), (2 : ℚ)) :: (List.range' 2 998).map fun i => (((i - 1 : Nat) : ℚ) + 1, (i : ℚ) + 1) := by
  intro us
  have hm : ∀ t < 1001, (us.map MarketUpdate.midPrice).getD t 0 = t + 1 := fun t ht => by
    simp only [us, List.getD_eq_getElem?_getD, List.getElem?_map, List.getElem?_range ht,
      Option.map_some', Option.getD_some, MarketUpdate.midPrice]
    ring
  have hpos : ∀ u ∈ us, 0 < u.midPrice := by
    simp only [us, List.mem_map, List.mem_range]
    rintro _ ⟨t, -, rfl⟩
    show 0 < ((t : ℚ) + 1 + ((t : ℚ) + 1)) / 2
    have : (0 : ℚ) ≤ t := Nat.cast_nonneg t
    linarith
  rw [(volatility_pairs_after_wrap .default ⟨id, id⟩ us (by simp [us]) hpos).1]
  simp only [hm 1000 (by decide), hm 1 (by decide)]
  refine congrArg₂ _ (by norm_num) (List.map_congr_left fun i hi => ?_)
  simp only [List.mem_range'_1] at hi
  simp only [hm (i - 1) (by omega), hm i (by omega)]

end MarketMaker

end OmsCore
