import OmsCore.Arbitrage.Board

/-! # The price matrix refines the board of latest quotes

    `Abstracts` relates a detector to the board it stands for: `symbol_index_` and
    `symbol_count` index the board's symbols, and the first `exchange_count` feeds of a
    symbol hold its exchanges, in order, with their quotes. Every call of `updatePriceFeed`
    whose exchange name has at most 14 bytes is defined and refines `Board.update`
    (`Abstracts.updatePriceFeed`), so every run of such calls holds, per symbol, the first
    `MAX_EXCHANGES` distinct exchanges with their latest quotes
    (`short_exchange_names_keep_latest`). A longer name is compared against its truncated
    copy and never found again (`long_exchange_name_takes_new_slot`).
-/

namespace OmsCore

namespace Arbitrage

open Board

/-! ## The detector stands for a board -/

open ArbitrageDetector

/-- The slots in use of a symbol hold its board entries, in order. -/
def SlotsAgree (sp : SymbolPrices) (feeds : List (List UInt8 × Quote)) : Prop :=
  sp.exchangeCount = feeds.length ∧ ∀ i ex q, feeds[i]? = some (ex, q) →
    (sp.feeds i).exchange = strncpy15 ex ∧ (sp.feeds i).quote = q

/-- The detector `d` stands for the board `b`. -/
structure Abstracts (d : ArbitrageDetector) (b : Board) : Prop where
  count_eq : d.symbolCount = b.length
  /-- `symbol_index_` maps each symbol of the board to its position. -/
  index_iff : ∀ sym s, d.symbolIndex sym = some s ↔ ∃ feeds, b[s]? = some (sym, feeds)
  slots : ∀ s sym feeds, b[s]? = some (sym, feeds) → SlotsAgree (d.symbolPrices s) feeds
  /-- Symbol slots not yet handed out have no exchange. -/
  fresh : ∀ s, b.length ≤ s → (d.symbolPrices s).exchangeCount = 0

theorem abstracts_new (pad : Nat → Nat → UInt8) : Abstracts (new pad) [] :=
  ⟨rfl, fun _ _ => ⟨nofun, fun ⟨_, h⟩ => by simp at h⟩, fun _ _ _ h => by simp at h,
    fun _ _ => rfl⟩

theorem firstMatch_eq {test : Nat → Option Bool} {p : Nat → Bool} {is : List Nat}
    (h : ∀ i ∈ is, test i = some (p i)) : firstMatch test is = some (is.find? p) := by
  induction is with
  | nil => rfl
  | cons i is ih =>
    simp only [firstMatch, h i (List.mem_cons_self _ _), Option.some_bind, List.find?_cons]
    cases p i <;> simp [ih fun j hj => h j (List.mem_cons_of_mem _ hj)]

/-- With short stored names, the slot search finds the entry of the exchange. -/
theorem findExchange_eq {d : ArbitrageDetector} {s : Nat} {feeds : List (List UInt8 × Quote)}
    (h : SlotsAgree (d.symbolPrices s) feeds) (hs : ∀ f ∈ feeds, Short f.1) (ex : CString) :
    d.findExchange s ex = some ((List.range feeds.length).find? fun i =>
      decide (feeds[i]?.map Prod.fst = some ex.bytes)) := by
  simp only [findExchange]
  rw [h.1]
  refine firstMatch_eq fun i hi => ?_
  obtain ⟨⟨x, q⟩, hx⟩ : ∃ f, feeds[i]? = some f :=
    ⟨_, List.getElem?_eq_getElem (List.mem_range.1 hi)⟩
  have hsx := hs _ (List.getElem?_mem hx)
  rw [(h.2 i x q hx).1, strncpy15_of_short hsx.1, List.append_assoc, List.cons_append,
    strcmpEq_terminated hsx.2 ex.nonzero, hx]
  simp

theorem getElem?_concat {α : Type} (l : List α) (a : α) (t : Nat) :
    (l ++ [a])[t]? = if l.length = t then some a else l[t]? := by
  rw [List.getElem?_append]
  split_ifs with h1 h2 h2
  · omega
  · rfl
  · subst h2
    simp
  · rw [List.getElem?_eq_none (Nat.not_lt.1 h1), List.getElem?_eq_none (by simp; omega)]

/-- Writing `(ex, q)` into slot `i` of a symbol that agrees with `feeds` makes it agree
    with any `feeds'` that holds `(ex, q)` at `i` and the entries of `feeds` elsewhere. -/
theorem SlotsAgree.write {sp : SymbolPrices} {feeds feeds' : List (List UInt8 × Quote)}
    (h : SlotsAgree sp feeds) {i count : Nat} {ex : List UInt8} {q : Quote} {feed : PriceFeed}
    (hget : ∀ j, feeds'[j]? = if i = j then some (ex, q) else feeds[j]?)
    (hlen : count = feeds'.length) (hfeed : feed.exchange = strncpy15 ex ∧ feed.quote = q) :
    SlotsAgree { sp with exchangeCount := count, feeds := Function.update sp.feeds i feed }
      feeds' := by
  refine ⟨hlen, fun j ex' q' hj => ?_⟩
  rw [hget] at hj
  split_ifs at hj with hij
  · subst hij
    obtain ⟨rfl, rfl⟩ := Prod.mk.inj (Option.some.inj hj)
    simpa using hfeed
  · simpa [Function.update_noteq (Ne.symm hij)] using h.2 j ex' q' hj

/-- `writeFeed` on a symbol slot that agrees with `feeds` is defined, makes the slot agree
    with `upsert feeds`, and touches nothing else of the index. -/
theorem writeFeed_spec {d : ArbitrageDetector} {s : Nat} {feeds : List (List UInt8 × Quote)}
    (h : SlotsAgree (d.symbolPrices s) feeds) (hn : (feeds.map Prod.fst).Nodup)
    (hs : ∀ f ∈ feeds, Short f.1) (ex symbol : CString) (q : Quote) (now : Nat) :
    ∃ d', d.writeFeed s ex symbol q now = some d' ∧
      SlotsAgree (d'.symbolPrices s) (upsert feeds ex.bytes q) ∧
      (∀ t, t ≠ s → d'.symbolPrices t = d.symbolPrices t) ∧
      d'.symbolIndex = d.symbolIndex ∧ d'.symbolCount = d.symbolCount := by
  rw [writeFeed, findExchange_eq h hs, Option.map_some']
  refine ⟨_, rfl, ?_⟩
  cases hfind : (List.range feeds.length).find?
      (fun i => decide (feeds[i]?.map Prod.fst = some ex.bytes)) with
  | some i =>
    have hpi := List.find?_some hfind
    simp only [decide_eq_true_eq] at hpi
    obtain ⟨⟨x, y⟩, he, hx⟩ := Option.map_eq_some'.1 hpi
    obtain rfl : x = ex.bytes := hx
    have hi := (List.getElem?_eq_some_iff.1 he).1
    refine ⟨?_, fun t ht => Function.update_noteq ht _ _, rfl, rfl⟩
    dsimp only [chooseSlot]
    rw [Function.update_same, upsert, store_eq_set _ _ _ _ _ hn he]
    refine h.write (fun j => ?_) (by rw [List.length_set, h.1]) (by exact ⟨rfl, rfl⟩)
    rw [List.getElem?_set]
    by_cases hij : i = j
    · subst hij
      simp [hi]
    · simp [hij]
  | none =>
    have hnot : ex.bytes ∉ feeds.map Prod.fst := fun hmem => by
      obtain ⟨k, hk, hkx⟩ := List.mem_iff_getElem.1 hmem
      rw [List.length_map] at hk
      have := List.find?_eq_none.1 hfind k (List.mem_range.2 hk)
      simp [List.getElem?_eq_getElem hk] at this hkx
      exact this (by simpa using hkx)
    by_cases hroom : feeds.length < maxExchanges
    · simp only [chooseSlot, h.1, if_pos hroom, and_true]
      refine ⟨?_, fun t ht => Function.update_noteq ht _ _⟩
      rw [Function.update_same, upsert, store, if_neg hnot, if_pos hroom]
      refine h.write (fun j => ?_) (by simp) (by exact ⟨rfl, rfl⟩)
      exact getElem?_concat _ _ j
    · simp only [chooseSlot, h.1, if_neg hroom, and_true]
      rw [upsert, store, if_neg hnot, if_neg hroom]
      exact ⟨h, fun _ _ => trivial⟩

/-! ## Each call refines `Board.update` -/

namespace Abstracts

variable {d : ArbitrageDetector} {b : Board}

/-- Rewriting the slots of one symbol on both sides keeps the relation. -/
theorem set (h : Abstracts d b) {s : Nat} {sym : List UInt8} {feeds : List (List UInt8 × Quote)}
    (hs : b[s]? = some (sym, feeds)) {d' : ArbitrageDetector} {feeds' : List (List UInt8 × Quote)}
    (hslot : SlotsAgree (d'.symbolPrices s) feeds')
    (hother : ∀ t, t ≠ s → d'.symbolPrices t = d.symbolPrices t)
    (hidx : d'.symbolIndex = d.symbolIndex) (hcount : d'.symbolCount = d.symbolCount) :
    Abstracts d' (b.set s (sym, feeds')) := by
  have hlt := (List.getElem?_eq_some_iff.1 hs).1
  refine ⟨by rw [hcount, h.count_eq, List.length_set], fun sym' t => ?_, fun t sym' f ht => ?_,
    fun t ht => ?_⟩
  · rw [hidx, h.index_iff, List.getElem?_set]
    by_cases hst : s = t
    · subst hst
      rw [if_pos rfl, if_pos hlt, hs]
      exact ⟨fun ⟨_, he⟩ => ⟨feeds', by rw [(Prod.mk.inj (Option.some.inj he)).1]⟩,
        fun ⟨_, he⟩ => ⟨feeds, by rw [(Prod.mk.inj (Option.some.inj he)).1]⟩⟩
    · rw [if_neg hst]
  · rw [List.getElem?_set] at ht
    by_cases hst : s = t
    · subst hst
      simp only [if_true, hlt, Option.some.injEq, Prod.mk.injEq] at ht
      obtain ⟨-, rfl⟩ := ht
      exact hslot
    · rw [if_neg hst] at ht
      rw [hother t (Ne.symm hst)]
      exact h.slots t sym' f ht
  · rw [List.length_set] at ht
    rw [hother t (by omega)]
    exact h.fresh t ht

end Abstracts

theorem getOrCreateSymbolIndex_of_some {d : ArbitrageDetector} {sym : CString} {s : Nat}
    (h : d.symbolIndex sym.bytes = some s) : d.getOrCreateSymbolIndex sym = (s, d) := by
  simp [getOrCreateSymbolIndex, h]

theorem getOrCreateSymbolIndex_of_full {d : ArbitrageDetector} {sym : CString}
    (h : d.symbolIndex sym.bytes = none) (hfull : maxSymbols ≤ d.symbolCount) :
    d.getOrCreateSymbolIndex sym = (maxSymbols, d) := by
  simp [getOrCreateSymbolIndex, h, hfull]

theorem getOrCreateSymbolIndex_of_new {d : ArbitrageDetector} {sym : CString}
    (h : d.symbolIndex sym.bytes = none) (hroom : d.symbolCount < maxSymbols) :
    d.getOrCreateSymbolIndex sym = (d.symbolCount, { d with
      symbolCount := d.symbolCount + 1
      symbolPrices := Function.update d.symbolPrices d.symbolCount
        { d.symbolPrices d.symbolCount with symbol := strncpy15 sym.bytes }
      symbolIndex := Function.update d.symbolIndex sym.bytes (some d.symbolCount) }) := by
  simp only [getOrCreateSymbolIndex, h, if_neg (Nat.not_le.2 hroom)]

/-- A new symbol takes the next symbol slot, empty, at the end of the board. -/
theorem Abstracts.getOrCreateSymbolIndex {d : ArbitrageDetector} {b : Board} (h : Abstracts d b)
    {sym : CString} (hnone : d.symbolIndex sym.bytes = none) (hroom : b.length < maxSymbols) :
    (d.getOrCreateSymbolIndex sym).1 = b.length ∧
      Abstracts (d.getOrCreateSymbolIndex sym).2 (b ++ [(sym.bytes, [])]) := by
  rw [getOrCreateSymbolIndex_of_new hnone (h.count_eq ▸ hroom), h.count_eq]
  refine ⟨rfl, by simp, fun sym' t => ?_, fun t sym' f ht => ?_, fun t ht => ?_⟩
  · dsimp only
    rw [getElem?_concat]
    by_cases hsym : sym' = sym.bytes
    · subst hsym
      rw [Function.update_same]
      by_cases ht : b.length = t
      · rw [if_pos ht]
        exact ⟨fun _ => ⟨[], rfl⟩, fun _ => congrArg some ht⟩
      · rw [if_neg ht]
        exact ⟨fun he => absurd (Option.some.inj he) ht,
          fun ⟨f, hf⟩ => absurd ((h.index_iff _ _).2 ⟨f, hf⟩) (by rw [hnone]; exact nofun)⟩
    · rw [Function.update_noteq hsym, h.index_iff]
      by_cases ht : b.length = t
      · subst ht
        rw [if_pos rfl, List.getElem?_eq_none le_rfl]
        exact ⟨fun ⟨_, h⟩ => (nomatch h),
          fun ⟨_, h⟩ => absurd (Prod.mk.inj (Option.some.inj h)).1 (Ne.symm hsym)⟩
      · rw [if_neg ht]
  · dsimp only at ht ⊢
    rw [getElem?_concat] at ht
    split_ifs at ht with hlt
    · subst hlt
      obtain ⟨-, rfl⟩ := Prod.mk.inj (Option.some.inj ht)
      rw [Function.update_same]
      exact ⟨h.fresh _ le_rfl, fun _ _ _ h => nomatch h⟩
    · rw [Function.update_noteq (Ne.symm hlt)]
      exact h.slots t sym' f ht
  · dsimp only at ht ⊢
    simp only [List.length_append, List.length_singleton] at ht
    rw [Function.update_noteq (show t ≠ b.length by omega)]
    exact h.fresh t (by omega)

/-- Every call is defined and refines `Board.update`, as long as the stored exchange names
    are short. -/
theorem Abstracts.updatePriceFeed {d : ArbitrageDetector} {b : Board} (h : Abstracts d b)
    (hwf : b.WF) (ex sym : CString) (q : Quote) (now : Nat) :
    ∃ d', d.updatePriceFeed ex sym q now = some d' ∧
      Abstracts d' (b.update sym.bytes ex.bytes q) := by
  cases hidx : d.symbolIndex sym.bytes with
  | some s =>
    obtain ⟨feeds, hs⟩ := (h.index_iff _ _).1 hidx
    have hlt : s < maxSymbols := (List.getElem?_eq_some_iff.1 hs).1.trans_le hwf.length_le
    have hf := hwf.feeds _ (List.getElem?_mem hs)
    obtain ⟨d', hw, hslot, hother, hi, hc⟩ :=
      writeFeed_spec (h.slots _ _ _ hs) hf.1 hf.2.2 ex sym q now
    refine ⟨d', ?_, ?_⟩
    · simp only [ArbitrageDetector.updatePriceFeed, getOrCreateSymbolIndex_of_some hidx,
        if_neg (Nat.not_le.2 hlt)]
      exact hw
    · rw [Board.update, store_eq_set _ _ _ _ _ hwf.keys hs]
      exact h.set hs hslot hother hi hc
  | none =>
    have hnot : sym.bytes ∉ b.map Prod.fst := fun hm => by
      obtain ⟨⟨sym', f⟩, hm, rfl⟩ := List.mem_map.1 hm
      obtain ⟨t, ht⟩ := List.mem_iff_getElem?.1 hm
      exact nomatch hidx.symm.trans ((h.index_iff _ _).2 ⟨f, ht⟩)
    by_cases hroom : b.length < maxSymbols
    · obtain ⟨h1, h2⟩ := h.getOrCreateSymbolIndex hidx hroom
      have hs1 : (b ++ [(sym.bytes, [])])[b.length]? = some (sym.bytes, []) :=
        List.getElem?_concat_length _ _
      obtain ⟨d', hw, hslot, hother, hi, hc⟩ :=
        writeFeed_spec (h2.slots _ _ _ hs1) List.nodup_nil nofun ex sym q now
      refine ⟨d', ?_, ?_⟩
      · simp only [ArbitrageDetector.updatePriceFeed, h1, if_neg (Nat.not_le.2 hroom)]
        exact hw
      · have := h2.set hs1 hslot hother hi hc
        rw [List.set_append_right _ _ le_rfl, Nat.sub_self, List.set_cons_zero] at this
        rwa [Board.update, store, if_neg hnot, if_pos hroom]
    · refine ⟨d, ?_, ?_⟩
      · simp [ArbitrageDetector.updatePriceFeed,
          getOrCreateSymbolIndex_of_full hidx (h.count_eq ▸ Nat.not_lt.1 hroom)]
      · rw [Board.update, store, if_neg hnot, if_neg hroom]
        exact h

/-- A run of calls with short exchange names is defined and refines `Board.run`. -/
theorem Abstracts.runFeeds {d : ArbitrageDetector} {b : Board} (h : Abstracts d b) (hwf : b.WF)
    {calls : List FeedCall} (hs : ∀ c ∈ calls, Short c.exchange.bytes) :
    ∃ d', d.runFeeds calls = some d' ∧ Abstracts d' (b.run calls) := by
  induction calls generalizing d b with
  | nil => exact ⟨d, rfl, h⟩
  | cons c calls ih =>
    have hc := hs c (List.mem_cons_self _ _)
    obtain ⟨d1, h1, ha⟩ := h.updatePriceFeed hwf c.exchange c.symbol c.quote c.now
    obtain ⟨d', h', ha'⟩ :=
      ih ha (wf_update hwf _ hc _) fun c' hc' => hs c' (List.mem_cons_of_mem _ hc')
    refine ⟨d', ?_, ha'⟩
    simp only [ArbitrageDetector.runFeeds, List.foldlM_cons, h1, Option.some_bind]
    exact h'

/-! ## What the slots of a symbol hold -/

/-- A short exchange owns a slot in use holding `q` exactly when its entry is `(ex, q)`. -/
theorem SlotsAgree.owns_iff {sp : SymbolPrices} {feeds : List (List UInt8 × Quote)}
    (h : SlotsAgree sp feeds) (hs : ∀ f ∈ feeds, Short f.1) {ex : List UInt8} (hex : Short ex)
    (q : Quote) :
    (∃ i < sp.exchangeCount, (sp.feeds i).exchange = strncpy15 ex ∧ (sp.feeds i).quote = q) ↔
      (ex, q) ∈ feeds := by
  constructor
  · rintro ⟨i, hi, hexi, hq⟩
    rw [h.1] at hi
    obtain ⟨⟨x, q'⟩, hx⟩ : ∃ f, feeds[i]? = some f := ⟨_, List.getElem?_eq_getElem hi⟩
    obtain ⟨h1, h2⟩ := h.2 i x q' hx
    have hsx := hs _ (List.getElem?_mem hx)
    obtain rfl := strncpy15_inj hsx.2 hex.2 hsx.1 hex.1 (h1.symm.trans hexi)
    obtain rfl := h2.symm.trans hq
    exact List.getElem?_mem hx
  · intro hm
    obtain ⟨i, hi⟩ := List.mem_iff_getElem?.1 hm
    exact ⟨i, h.1 ▸ (List.getElem?_eq_some_iff.1 hi).1, h.2 i ex q hi⟩

/-- The slots in use of a symbol hold distinct exchange names. -/
theorem SlotsAgree.exchange_injective {sp : SymbolPrices} {feeds : List (List UInt8 × Quote)}
    (h : SlotsAgree sp feeds) (hwf : FeedsWF feeds) {i j : Nat} (hi : i < sp.exchangeCount)
    (hj : j < sp.exchangeCount) (he : (sp.feeds i).exchange = (sp.feeds j).exchange) : i = j := by
  rw [h.1] at hi hj
  obtain ⟨⟨x, q⟩, hx⟩ : ∃ f, feeds[i]? = some f := ⟨_, List.getElem?_eq_getElem hi⟩
  obtain ⟨⟨y, r⟩, hy⟩ : ∃ f, feeds[j]? = some f := ⟨_, List.getElem?_eq_getElem hj⟩
  have hsx := hwf.2.2 _ (List.getElem?_mem hx)
  have hsy := hwf.2.2 _ (List.getElem?_mem hy)
  have hxy : x = y := strncpy15_inj hsx.2 hsy.2 hsx.1 hsy.1
    ((h.2 i x q hx).1.symm.trans (he.trans (h.2 j y r hy).1))
  exact index_unique hwf.1 (by rw [hx]; rfl) (by rw [hy, hxy]; rfl)

/-! ## Runs of calls -/

/-- Along any sequence of `updatePriceFeed` calls whose exchange names have at most 14
    bytes, from a fresh detector: every call is defined; `symbol_count` and every
    `exchange_count` stay within their caps; the indexed symbols are the first
    `MAX_SYMBOLS` distinct symbols called; and the slots in use of an indexed symbol hold
    distinct exchange names, an exchange owning one exactly when it is among the first
    `MAX_EXCHANGES` distinct exchanges that called the symbol, with the quote of its latest
    call. -/
theorem short_exchange_names_keep_latest (pad : Nat → Nat → UInt8) (calls : List FeedCall)
    (hs : ∀ c ∈ calls, Short c.exchange.bytes) :
    ∃ d, (new pad).runFeeds calls = some d ∧ d.symbolCount ≤ maxSymbols ∧
      (∀ s, (d.symbolPrices s).exchangeCount ≤ maxExchanges) ∧
      (∀ sym, (∃ s, d.symbolIndex sym = some s) ↔
        sym ∈ firstCome maxSymbols (calls.map fun c => c.symbol.bytes)) ∧
      ∀ sym s, d.symbolIndex sym = some s →
        (∀ i j, i < (d.symbolPrices s).exchangeCount → j < (d.symbolPrices s).exchangeCount →
          ((d.symbolPrices s).feeds i).exchange = ((d.symbolPrices s).feeds j).exchange →
          i = j) ∧
        ∀ ex q, Short ex →
          ((∃ i < (d.symbolPrices s).exchangeCount,
              ((d.symbolPrices s).feeds i).exchange = strncpy15 ex ∧
              ((d.symbolPrices s).feeds i).quote = q) ↔
            ex ∈ firstCome maxExchanges (exchangesOn calls sym) ∧
              latestQuote calls sym ex = some q) := by
  have hwf : (Board.run [] calls).WF := wf_run wf_nil hs
  obtain ⟨d, hrun, ha⟩ := (abstracts_new pad).runFeeds wf_nil hs
  refine ⟨d, hrun, ha.count_eq ▸ hwf.length_le, fun s => ?_, fun sym => ?_,
    fun sym s hidx => ?_⟩
  · rcases Nat.lt_or_ge s (Board.run [] calls).length with hlt | hge
    · obtain ⟨⟨sym, f⟩, hx⟩ : ∃ e, (Board.run [] calls)[s]? = some e :=
        ⟨_, List.getElem?_eq_getElem hlt⟩
      rw [(ha.slots _ _ _ hx).1]
      exact (hwf.feeds _ (List.getElem?_mem hx)).2.1
    · rw [ha.fresh s hge]
      exact Nat.zero_le _
  · rw [← keys_run, List.mem_map]
    simp only [ha.index_iff, List.mem_iff_getElem?]
    exact ⟨fun ⟨s, f, hf⟩ => ⟨_, ⟨s, hf⟩, rfl⟩, fun ⟨⟨_, f⟩, ⟨s, hf⟩, he⟩ => ⟨s, f, he ▸ hf⟩⟩
  · obtain ⟨f, hf⟩ := (ha.index_iff _ _).1 hidx
    have hslot := ha.slots _ _ _ hf
    have hfw := hwf.feeds _ (List.getElem?_mem hf)
    have hl := (run_lookupKey calls sym).1 f
      ((mem_iff_lookupKey hwf.keys).1 (List.getElem?_mem hf))
    refine ⟨fun i j hi hj he => hslot.exchange_injective hfw hi hj he, fun ex q hex => ?_⟩
    rw [hslot.owns_iff hfw.2.2 hex, mem_iff_lookupKey hfw.1, hl.2 ex]
    split_ifs with hin <;> simp [hin]

/-- Exchange `A` quotes `BTC`, then `B`, then `A` again. -/
def requoteCalls : List FeedCall :=
  [⟨⟨[65], by decide⟩, ⟨[66, 84, 67], by decide⟩, ⟨1, 1, 2, 1⟩, 0⟩,
    ⟨⟨[66], by decide⟩, ⟨[66, 84, 67], by decide⟩, ⟨3, 1, 4, 1⟩, 0⟩,
    ⟨⟨[65], by decide⟩, ⟨[66, 84, 67], by decide⟩, ⟨5, 1, 6, 1⟩, 1⟩]

/-- `A`'s second quote overwrites its slot: two slots in use, `A`'s holding its latest quote. -/
theorem short_exchange_names_keep_latest_requote :
    (∀ c ∈ requoteCalls, Short c.exchange.bytes) ∧
      ∃ d, (new fun _ _ => 0).runFeeds requoteCalls = some d ∧
        d.symbolIndex [66, 84, 67] = some 0 ∧ (d.symbolPrices 0).exchangeCount = 2 ∧
        ∃ i < (d.symbolPrices 0).exchangeCount,
          ((d.symbolPrices 0).feeds i).exchange = strncpy15 [65] ∧
          ((d.symbolPrices 0).feeds i).quote = ⟨5, 1, 6, 1⟩ := by
  have hs : ∀ c ∈ requoteCalls, Short c.exchange.bytes := by decide
  obtain ⟨d, hd, -, -, -, hslots⟩ := short_exchange_names_keep_latest (fun _ _ => 0) _ hs
  have hidx : d.symbolIndex [66, 84, 67] = some 0 := by cases hd; rfl
  have hcount : (d.symbolPrices 0).exchangeCount = 2 := by cases hd; rfl
  exact ⟨hs, d, hd, hidx, hcount,
    ((hslots _ _ hidx).2 [65] ⟨5, 1, 6, 1⟩ (by decide)).2 ⟨by decide, rfl⟩⟩

/-- A 16-byte exchange name is stored truncated to 15 bytes and never found again: with
    the unwritten byte zero, two updates of one exchange on one symbol take two slots. -/
theorem long_exchange_name_takes_new_slot :
    ∃ d, (new fun _ _ => 0).runFeeds
        [⟨⟨List.replicate 16 65, by decide⟩, ⟨[66, 84, 67], by decide⟩, ⟨1, 1, 2, 1⟩, 0⟩,
         ⟨⟨List.replicate 16 65, by decide⟩, ⟨[66, 84, 67], by decide⟩, ⟨1, 1, 3, 1⟩, 1⟩] =
        some d ∧ (d.symbolPrices 0).exchangeCount = 2 ∧
      ((d.symbolPrices 0).feeds 0).exchange = ((d.symbolPrices 0).feeds 1).exchange :=
  ⟨_, rfl, by decide, by decide⟩

end Arbitrage

end OmsCore
