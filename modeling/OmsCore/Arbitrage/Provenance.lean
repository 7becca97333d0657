import OmsCore.Arbitrage.Consumer

/-! # Where an opportunity's prices come from

    A detection pass reads the price matrix and copies the names and prices of the two feeds
    it pairs into the opportunity it pushes. Along a run whose exchange names are short, the
    matrix stands for the board of latest quotes (`Abstracts`), and every symbol slot in use
    holds the name it was indexed under (`SymbolsNamed`). So every opportunity a consumer
    receives pairs two distinct exchanges on one symbol, with the latest quotes they had sent
    when the pass ran: it buys at the one's ask, sells at the other's bid, for no more than
    either quoted, and is labelled with their names (`popped_opportunities_pair_latest_quotes`).
    The detector never invents a price, never mixes two symbols, and never pairs an exchange
    with itself.
-/

namespace OmsCore

namespace Arbitrage

open ArbitrageDetector Board

/-! ## Symbol slots keep their names -/

/-- Every indexed symbol has a slot in use that stores its name, a C string. -/
def SymbolsNamed (d : ArbitrageDetector) : Prop :=
  ∀ sym s, d.symbolIndex sym = some s →
    s < d.symbolCount ∧ (d.symbolPrices s).symbol = strncpy15 sym ∧ ∀ b ∈ sym, b ≠ 0

theorem symbolsNamed_new (pad : Nat → Nat → UInt8) : SymbolsNamed (new pad) :=
  fun _ _ h => nomatch h

namespace SymbolsNamed

variable {d d' : ArbitrageDetector}

/-- Indexing a new symbol names its slot. -/
theorem getOrCreateSymbolIndex (h : SymbolsNamed d) (sym : CString) :
    SymbolsNamed (d.getOrCreateSymbolIndex sym).2 := by
  cases hidx : d.symbolIndex sym.bytes with
  | some s => rw [getOrCreateSymbolIndex_of_some hidx]; exact h
  | none =>
    by_cases hroom : d.symbolCount < maxSymbols
    · rw [getOrCreateSymbolIndex_of_new hidx hroom]
      intro sym' t ht
      dsimp only at ht ⊢
      by_cases hs : sym' = sym.bytes
      · subst hs
        rw [Function.update_same] at ht
        obtain rfl := Option.some.inj ht
        exact ⟨Nat.lt_succ_self _, by rw [Function.update_same], sym.nonzero⟩
      · rw [Function.update_noteq hs] at ht
        obtain ⟨hlt, hsym, hz⟩ := h sym' t ht
        exact ⟨by omega, by rw [Function.update_noteq (by omega)]; exact hsym, hz⟩
    · rw [getOrCreateSymbolIndex_of_full hidx (Nat.not_lt.1 hroom)]
      exact h

/-- Writing a feed touches neither the index nor a slot's name. -/
theorem writeFeed (h : SymbolsNamed d) {s : Nat} {ex sym : CString} {q : Quote} {now : Nat}
    (hw : d.writeFeed s ex sym q now = some d') : SymbolsNamed d' := by
  obtain ⟨found, -, rfl⟩ := Option.map_eq_some'.1 hw
  dsimp only
  split
  · exact h
  · intro sym' t ht
    obtain ⟨hlt, hsym, hz⟩ := h sym' t ht
    refine ⟨hlt, ?_, hz⟩
    by_cases hts : t = s
    · subst hts
      simpa using hsym
    · simpa [Function.update_noteq hts] using hsym

theorem updatePriceFeed (h : SymbolsNamed d) {ex sym : CString} {q : Quote} {now : Nat}
    (hu : d.updatePriceFeed ex sym q now = some d') : SymbolsNamed d' := by
  have h₁ := h.getOrCreateSymbolIndex sym
  unfold ArbitrageDetector.updatePriceFeed at hu
  dsimp only at hu
  split_ifs at hu
  · cases hu
    exact h₁
  · exact h₁.writeFeed hu

end SymbolsNamed

/-! ## One check -/

/-- What opportunity `opp` is against the feed calls `pre`: the latest quotes of two distinct
    exchanges on one symbol, bought at the one's ask and sold at the other's bid for no more
    than either quoted, labelled with the names of the symbol and of both exchanges. -/
def PairsLatestQuotes (pre : List FeedCall) (opp : ArbitrageOpportunity) : Prop :=
  ∃ sym ex ex' q q', ex ≠ ex' ∧ latestQuote pre sym ex = some q ∧
    latestQuote pre sym ex' = some q' ∧ opp.symbol = strncpy15 sym ∧
    opp.buyExchange = strncpy15 ex ∧ opp.sellExchange = strncpy15 ex' ∧
    opp.buyPrice = q.askPrice ∧ opp.sellPrice = q'.bidPrice ∧
    opp.maxQuantity ≤ min q.askQuantity q'.bidQuantity

/-- A check of a pair of a symbol slot in use, on a matrix that stands for the board of the
    feed calls `pre`, creates only opportunities that pair the latest quotes of `pre`. -/
theorem Abstracts.checkPair_pairsLatestQuotes {pre : List FeedCall} {d : ArbitrageDetector}
    (h : Abstracts d (Board.run [] pre)) (hwf : (Board.run [] pre).WF) (hn : SymbolsNamed d)
    {config : ArbitrageConfig} (hmin : 0 < config.minProfitRate) {now : Nat}
    {stamp : Nat × Nat × Nat → Nat} {s : Nat} {p : Nat × Nat} {opp : ArbitrageOpportunity}
    (hs : s < d.symbolCount) (hp : p ∈ d.pairsOf now s)
    (hx : d.checkPair config stamp s p = some (some opp)) : PairsLatestQuotes pre opp := by
  obtain ⟨⟨sym, feeds⟩, hb⟩ : ∃ e, (Board.run [] pre)[s]? = some e :=
    ⟨_, List.getElem?_eq_getElem (h.count_eq ▸ hs)⟩
  have hslot := h.slots _ _ _ hb
  have hfw := hwf.feeds _ (List.getElem?_mem hb)
  obtain ⟨-, hsym, hsym0⟩ := hn sym s ((h.index_iff sym s).2 ⟨feeds, hb⟩)
  obtain ⟨h1, h2, hne, -, -⟩ := mem_candidatePairs.1 hp
  rw [hslot.1] at h1 h2
  -- the entries of the buy and the sell slot
  obtain ⟨⟨ex, q⟩, hq⟩ : ∃ f, feeds[p.1]? = some f := ⟨_, List.getElem?_eq_getElem h1⟩
  obtain ⟨⟨ex', q'⟩, hq'⟩ : ∃ f, feeds[p.2]? = some f := ⟨_, List.getElem?_eq_getElem h2⟩
  obtain ⟨hbe, hbq⟩ := hslot.2 _ _ _ hq
  obtain ⟨hse, hsq⟩ := hslot.2 _ _ _ hq'
  obtain ⟨hn1, hn2, hn3⟩ := checkArbitrageOpportunity_names hx
  obtain ⟨hp1, hp2, -, -, -, -, hqty, -⟩ := checkArbitrageOpportunity_spec hmin hx
  refine ⟨sym, ex, ex', q, q', fun he => hne (index_unique hfw.1 (by rw [hq]; rfl)
      (by rw [hq', he]; rfl)),
    latestQuote_of_mem hwf (List.getElem?_mem hb) (List.getElem?_mem hq),
    latestQuote_of_mem hwf (List.getElem?_mem hb) (List.getElem?_mem hq'), ?_, ?_, ?_,
    hp1.trans (congrArg Quote.askPrice hbq), hp2.trans (congrArg Quote.bidPrice hsq), ?_⟩
  · rw [hn1, hsym, strncpyFrom_strncpy15 hsym0]
  · rw [hn2, hbe, strncpyFrom_strncpy15 (hfw.2.2 _ (List.getElem?_mem hq)).2]
  · rw [hn3, hse, strncpyFrom_strncpy15 (hfw.2.2 _ (List.getElem?_mem hq')).2]
  · rwa [hbq, hsq] at hqty

/-! ## Runs -/

/-- What a run with short exchange names keeps: the matrix stands for the board of the feed
    calls so far, its symbol slots keep their names, and every queued opportunity pairs the
    latest quotes of some earlier prefix of those calls. -/
structure Traced (st : Detector) (pre : List FeedCall) : Prop where
  wf : (Board.run [] pre).WF
  abstracts : Abstracts st.d (Board.run [] pre)
  named : SymbolsNamed st.d
  buffer : st.o.buffer.Inv
  queued : ∀ x ∈ st.o.buffer.toList, ∃ pre₀, pre₀ <+: pre ∧ PairsLatestQuotes pre₀ x

namespace Traced

variable {st : Detector} {pre : List FeedCall}

theorem new (pad : Nat → Nat → UInt8) : Traced (Detector.new pad) [] :=
  ⟨wf_nil, abstracts_new pad, symbolsNamed_new pad, Detector.new_buffer_inv, fun x hx => by
    simp only [Detector.new, Opportunities.new, RingBuffer.toList_new, List.not_mem_nil] at hx⟩

theorem updatePriceFeed (h : Traced st pre) {c : FeedCall} (hc : Short c.exchange.bytes)
    {d : ArbitrageDetector} (hu : st.d.updatePriceFeed c.exchange c.symbol c.quote c.now = some d) :
    Traced { st with d := d } (pre ++ [c]) := by
  obtain ⟨d₁, h₁, ha⟩ := h.abstracts.updatePriceFeed h.wf c.exchange c.symbol c.quote c.now
  obtain rfl : d₁ = d := Option.some.inj (h₁.symm.trans hu)
  have hrun := run_append_singleton [] pre c
  exact ⟨hrun ▸ wf_update h.wf _ hc _, hrun ▸ ha, h.named.updatePriceFeed hu, h.buffer,
    fun x hx => (h.queued x hx).imp fun _ hp => ⟨hp.1.trans (List.prefix_append _ _), hp.2⟩⟩

theorem detectOpportunities (h : Traced st pre) {config : ArbitrageConfig}
    (hmin : 0 < config.minProfitRate)
    {now : Nat} {stamp : Nat × Nat × Nat → Nat} {o : Opportunities}
    (hd : st.d.detectOpportunities config st.running now stamp st.o = some o) :
    Traced { st with o := o } pre := by
  obtain ⟨hbuf, hq⟩ := @ArbitrageDetector.detectOpportunities_preserves st.d config st.running now
    stamp (fun o => o.buffer.Inv ∧ ∀ x ∈ o.buffer.toList, ∃ pre₀, pre₀ <+: pre ∧
      PairsLatestQuotes pre₀ x) (fun o s p x o' hP hs hp hx hr =>
        Opportunities.record_forall hP.1 hP.2 (fun y hy => by
          obtain rfl : x = some y := Option.mem_toList.1 hy
          exact ⟨pre, List.prefix_refl _,
            h.abstracts.checkPair_pairsLatestQuotes h.wf h.named hmin hs hp hx⟩) hr)
    st.o o ⟨h.buffer, h.queued⟩ hd
  exact ⟨h.wf, h.abstracts, h.named, hbuf, hq⟩

theorem getNextOpportunity (h : Traced st pre) {r : Option ArbitrageOpportunity}
    {o : Opportunities} (hr : st.o.getNextOpportunity = some (r, o)) :
    Traced { st with o := o } pre ∧
      ∀ x ∈ r.toList, ∃ pre₀, pre₀ <+: pre ∧ PairsLatestQuotes pre₀ x := by
  obtain ⟨hbuf, hq, hr⟩ := Opportunities.getNextOpportunity_forall h.buffer h.queued hr
  exact ⟨⟨h.wf, h.abstracts, h.named, hbuf, hq⟩, hr⟩

end Traced

namespace Detector

/-- For every configuration with a positive `min_profit_rate`, along every run of calls on a
    fresh detector whose exchange names have at most 14 bytes, every opportunity
    `getNextOpportunity` returns pairs the latest quotes of two distinct exchanges on one
    symbol as of some moment of the run: a prefix of its feed calls. -/
theorem popped_opportunities_pair_latest_quotes {config : ArbitrageConfig}
    (hmin : 0 < config.minProfitRate) (pad : Nat → Nat → UInt8) {calls : List DetectorCall}
    {popped : List ArbitrageOpportunity} {st : Detector}
    (hs : ∀ c ∈ DetectorCall.feeds calls, Short c.exchange.bytes)
    (h : (Detector.new pad).run config calls = some (popped, st)) :
    ∀ opp ∈ popped, ∃ pre, pre <+: DetectorCall.feeds calls ∧ PairsLatestQuotes pre opp :=
  (@run_invariant config (fun st pre _ => Traced st pre) PairsLatestQuotes
    (fun c => Short c.exchange.bytes) (fun _ _ _ _ _ hc hT hu => hT.updatePriceFeed hc hu)
    (fun _ _ _ _ hT => ⟨hT.wf, hT.abstracts, hT.named, hT.buffer, hT.queued⟩)
    (fun _ _ _ _ _ _ hT hd => hT.detectOpportunities hmin hd)
    (fun _ _ _ _ _ hT hr => (hT.getNextOpportunity hr).imp_left id)
    calls _ [] 0 popped st hs (Traced.new pad) h).2

/-- On the two exchanges, the opportunity popped buys `A`'s latest ask and sells `B`'s latest
    bid. -/
theorem popped_opportunities_pair_latest_quotes_twoVenues :
    0 < ArbitrageConfig.default.minProfitRate ∧
      (∀ c ∈ DetectorCall.feeds twoVenueCalls, Short c.exchange.bytes) ∧ ∃ st,
      (Detector.new fun _ _ => 0).run .default twoVenueCalls = some ([twoVenueOpp], st) ∧
      ∃ pre, pre <+: DetectorCall.feeds twoVenueCalls ∧ PairsLatestQuotes pre twoVenueOpp := by
  have hmin : 0 < ArbitrageConfig.default.minProfitRate := by
    simp only [ArbitrageConfig.default]; norm_num
  have hs : ∀ c ∈ DetectorCall.feeds twoVenueCalls, Short c.exchange.bytes := by decide
  obtain ⟨st, h⟩ := run_twoVenueCalls
  exact ⟨hmin, hs, st, h, popped_opportunities_pair_latest_quotes hmin _ hs h _
    (List.mem_singleton_self _)⟩

end Detector

end Arbitrage

end OmsCore
