import OmsCore.MarketMaker.Quotes

/-! # The quote ring over a run

    A run of `generateQuotes` and `getNextQuote` calls on one engine. A cycle adds all its
    quotes to `quotes_generated` but appends to the ring only what fits below
    `capacity - 1` (`generateQuotes_eq`), so with no consumer the counter keeps growing after
    the ring is full (`runQuoteCalls_generate`): after `171` cycles of six quotes the counter
    reads `1026` while nothing was popped and the ring holds `1023`
    (`quotes_generated_counts_dropped`).

    Over runs of every call of the engine's API (`runEngine`), every quote a consumer pops
    was written by a `generateQuotes` call of the same run, from the market and inventory
    the engine held when that call came (`QuotedBy`, `popped_quotes_from_cycles`). The
    invariant is the ring's provenance after the calls so far (`RingQuoted`), and one call
    keeps it (`RingQuoted.step`).
-/

namespace OmsCore

namespace MarketMaker

namespace MarketMakerEngine

/-- A call a consumer of the engine makes. -/
inductive QuoteCall where
  | generateQuotes (clock : Nat → Nat)
  | getNextQuote

/-- A run of calls: the quotes `getNextQuote` returned, in order, and the final engine. -/
def runQuoteCalls (e : MarketMakerEngine) : List QuoteCall → Option (List MMQuote × MarketMakerEngine)
  | [] => some ([], e)
  | .generateQuotes clock :: calls => (e.generateQuotes clock).bind fun e => e.runQuoteCalls calls
  | .getNextQuote :: calls => e.getNextQuote.bind fun r =>
      (r.2.runQuoteCalls calls).map fun s => (r.1.toList ++ s.1, s.2)

/-! ## One call -/

/-- A cycle keeps the invariant, whether it runs or returns early. -/
theorem Inv.generateQuotes {e e' : MarketMakerEngine} (he : e.Inv) (clock : Nat → Nat)
    (h : e.generateQuotes clock = some e') : e'.Inv := by
  unfold MarketMakerEngine.generateQuotes at h
  split_ifs at h with h1 h2
  · exact Option.some.inj h ▸ he
  · exact Option.some.inj h ▸ he
  · simp only [Bool.not_eq_true', Bool.not_eq_false, not_or, not_le] at h1 h2
    by_cases hinv : e.config.maxInventory = 0
    · simp [calculateSpread, getInventorySkew, divide?, hinv] at h
    · obtain ⟨_, _, r, -, hgen, -, hr, hcap, -⟩ :=
        generateQuotes_eq e clock h1 h2.1 h2.2.1 h2.2.2 hinv he
      unfold MarketMakerEngine.generateQuotes at hgen
      rw [if_neg (by simp [h1]), if_neg (by simp only [not_or, not_le]; exact h2), h] at hgen
      exact Option.some.inj hgen ▸ ⟨hr, hcap, Nat.mod_lt _ (by decide)⟩

/-- `getNextQuote` returns the head of the queue, if any, and leaves the counter. -/
theorem getNextQuote_spec {e : MarketMakerEngine} (he : e.Inv) :
    ∃ e', e.getNextQuote = some (e.quoteBuffer.toList.head?, e') ∧ e'.Inv ∧
      e'.quoteBuffer.toList = e.quoteBuffer.toList.tail ∧
      e'.quotesGenerated = e.quotesGenerated := by
  obtain ⟨r, hpop, hr, hcap, hl⟩ := RingBuffer.pop_spec he.quoteBuffer
  exact ⟨{ e with quoteBuffer := r }, by simp [getNextQuote, hpop],
    ⟨hr, hcap.trans he.capacity, he.quotesGenerated_lt⟩, hl, rfl⟩

/-! ## Runs -/

/-- `k` cycles with no consumer, on an engine that quotes: nothing is popped, the counter
    grows by `k` cycles' quotes and the ring by as many as fit below `capacity - 1`. -/
theorem runQuoteCalls_generate (clock : Nat → Nat) (k : Nat) {e : MarketMakerEngine}
    (he : e.Inv) (hrun : e.running = true) (hmid : 0 < e.marketState.midPrice)
    (hbid : 0 < e.marketState.bidPrice) (hask : 0 < e.marketState.askPrice)
    (hinv : e.config.maxInventory ≠ 0) :
    ∃ e', e.runQuoteCalls (List.replicate k (.generateQuotes clock)) = some ([], e') ∧
      e'.quotesGenerated = (e.quotesGenerated + k * cycleSize e.config) % wordSize ∧
      e'.quoteBuffer.toList.length =
        min (e.quoteBuffer.toList.length + k * cycleSize e.config) (quoteBufferSize - 1) := by
  induction k generalizing e with
  | zero =>
    refine ⟨e, rfl, by rw [Nat.zero_mul, Nat.add_zero, Nat.mod_eq_of_lt he.quotesGenerated_lt], ?_⟩
    have := he.quoteBuffer.size_lt
    rw [RingBuffer.length_toList, he.capacity] at *
    unfold quoteBufferSize at *
    omega
  | succ k ih =>
    obtain ⟨_, quotes, r, -, hgen, -, -, -, hl⟩ :=
      generateQuotes_eq e clock hrun hmid hbid hask hinv he
    obtain ⟨e', hrun', hg', hl'⟩ := ih (he.generateQuotes clock hgen) hrun hmid hbid hask hinv
    refine ⟨e', by rw [List.replicate_succ, runQuoteCalls, hgen, Option.some_bind]; exact hrun',
      ?_, ?_⟩
    · rw [hg']
      simp only [withQuotes, Nat.mod_add_mod, Nat.succ_mul]
      ring_nf
    · rw [hl']
      simp only [withQuotes, hl, List.length_take, List.length_append, List.length_map,
        List.length_range, Nat.succ_mul]
      omega

/-- From the default configuration at mid `100`, started: `171` cycles of six quotes with no
    consumer leave `quotes_generated` at `1026`, while nothing was popped and the ring holds
    `1023`. -/
theorem quotes_generated_counts_dropped :
    ∃ e', (quotedAt 100).start.runQuoteCalls (List.replicate 171 (.generateQuotes fun _ => 0)) =
        some ([], e') ∧ e'.quotesGenerated = 1026 ∧ e'.quoteBuffer.size = 1023 := by
  have hmid : 0 < (quotedAt 100).start.marketState.midPrice := by
    simp only [quotedAt, start, updateMarketData]; norm_num
  have he : (quotedAt 100).start.Inv := ((new_inv _).updateMarketData _ _ _ _ _ _ _).start
  obtain ⟨e', hrun, hg, hl⟩ := runQuoteCalls_generate (fun _ => 0) 171 he rfl hmid
    (show (0 : ℚ) < 100 by norm_num) (show (0 : ℚ) < 100 by norm_num)
    (show (100 : ℚ) ≠ 0 by norm_num)
  have hsize : cycleSize (quotedAt 100).start.config = 6 := rfl
  have hempty : (quotedAt 100).start.quoteBuffer.toList = [] := RingBuffer.toList_new _
  refine ⟨e', hrun, by rw [hg, hsize]; rfl, ?_⟩
  rw [← RingBuffer.length_toList, hl, hsize, hempty]
  rfl

/-! ## Runs of every call -/

/-- A call of the engine's public API, from any of its callers. -/
inductive EngineCall where
  | updateMarketData (bidPrice bidSize askPrice askSize lastPrice : ℚ) (now : Nat)
  | updatePosition (position avgPrice : ℚ) (now : Nat)
  | generateQuotes (clock : Nat → Nat)
  | getNextQuote
  | start
  | stop

/-- A run of calls, one after another, with the `<cmath>` functions `libm`: the quotes
    `getNextQuote` returned, in order, and the final engine. -/
def runEngine (libm : Libm) (e : MarketMakerEngine) :
    List EngineCall → Option (List MMQuote × MarketMakerEngine)
  | [] => some ([], e)
  | .updateMarketData bidPrice bidSize askPrice askSize lastPrice now :: calls =>
    runEngine libm (e.updateMarketData libm bidPrice bidSize askPrice askSize lastPrice now) calls
  | .updatePosition position avgPrice now :: calls =>
    runEngine libm (e.updatePosition position avgPrice now) calls
  | .generateQuotes clock :: calls => (e.generateQuotes clock).bind fun e => runEngine libm e calls
  | .getNextQuote :: calls => e.getNextQuote.bind fun r =>
      (runEngine libm r.2 calls).map fun s => (r.1.toList ++ s.1, s.2)
  | .start :: calls => runEngine libm e.start calls
  | .stop :: calls => runEngine libm e.stop calls

/-- A run in two pieces: the quotes of the first, then those of the second. -/
theorem runEngine_append (libm : Libm) (ys : List EngineCall) :
    ∀ (xs : List EngineCall) (e : MarketMakerEngine), e.runEngine libm (xs ++ ys) =
      (e.runEngine libm xs).bind fun s => (s.2.runEngine libm ys).map fun t => (s.1 ++ t.1, t.2)
  | [], e => by simp [runEngine]
  | .updateMarketData .. :: xs, _ | .updatePosition .. :: xs, _ | .start :: xs, _
  | .stop :: xs, _ => runEngine_append libm ys xs _
  | .generateQuotes clock :: xs, e => by
    rw [List.cons_append]
    simp only [runEngine, runEngine_append libm ys xs]
    cases e.generateQuotes clock <;> rfl
  | .getNextQuote :: xs, e => by
    rw [List.cons_append]
    simp only [runEngine]
    cases e.getNextQuote with
    | none => rfl
    | some r =>
      simp only [Option.some_bind, runEngine_append libm ys xs r.2]
      cases runEngine libm r.2 xs <;> simp [Function.comp_def]

/-- A quote of a cycle of the run `calls` from `e₀`: a call `generateQuotes clock` of the run
    found the engine `e` running at a positive mid price, and the quote is what that cycle
    writes into one of its slots, from `e`'s own market, inventory and spread. -/
def QuotedBy (libm : Libm) (e₀ : MarketMakerEngine) (calls : List EngineCall) (q : MMQuote) :
    Prop :=
  ∃ pre clock ps e spread i, pre ++ [.generateQuotes clock] <+: calls ∧
    e₀.runEngine libm pre = some (ps, e) ∧ e.running = true ∧ 0 < e.marketState.midPrice ∧
    calculateSpread e.config e.marketState e.inventoryState = some spread ∧
    i < cycleSize e.config ∧
    q = cycleQuote e.config e.inventoryState.position e.marketState.midPrice spread clock i

theorem QuotedBy.append {libm : Libm} {e₀ : MarketMakerEngine} {calls : List EngineCall}
    {q : MMQuote} (h : QuotedBy libm e₀ calls q) (rest : List EngineCall) :
    QuotedBy libm e₀ (calls ++ rest) q := by
  obtain ⟨pre, clock, ps, e, spread, i, hpre, h⟩ := h
  exact ⟨pre, clock, ps, e, spread, i, hpre.trans (List.prefix_append _ _), h⟩

/-- A cycle returns early, or runs with the quotes of `generateQuotes_eq` at a positive mid. -/
theorem generateQuotes_cases {e e' : MarketMakerEngine} (he : e.Inv) (clock : Nat → Nat)
    (h : e.generateQuotes clock = some e') :
    e' = e ∨ ∃ spread quotes r, e.running = true ∧ 0 < e.marketState.midPrice ∧
      calculateSpread e.config e.marketState e.inventoryState = some spread ∧
      (∀ i < cycleSize e.config, quotes i =
        cycleQuote e.config e.inventoryState.position e.marketState.midPrice spread clock i) ∧
      e' = { e.withQuotes (cycleSize e.config) quotes with
        quoteBuffer := r
        quotesGenerated := (e.quotesGenerated + cycleSize e.config) % wordSize } ∧
      r.toList = (e.quoteBuffer.toList ++ (List.range (cycleSize e.config)).map quotes).take
        (quoteBufferSize - 1) := by
  by_cases hgo : e.running = true ∧ 0 < e.marketState.midPrice ∧ 0 < e.marketState.bidPrice ∧
      0 < e.marketState.askPrice ∧ e.config.maxInventory ≠ 0
  · obtain ⟨hrun, hmid, hbid, hask, hinv⟩ := hgo
    obtain ⟨spread, quotes, r, hs, hgen, hq, -, -, hl⟩ :=
      generateQuotes_eq e clock hrun hmid hbid hask hinv he
    rw [hgen] at h
    exact .inr ⟨spread, quotes, r, hrun, hmid, hs, hq, (Option.some.inj h).symm, hl⟩
  · unfold MarketMakerEngine.generateQuotes at h
    split_ifs at h with h1 h2
    · exact .inl (Option.some.inj h).symm
    · exact .inl (Option.some.inj h).symm
    · -- quoting with `max_inventory = 0`: the spread divides by zero
      simp only [Bool.not_eq_true', Bool.not_eq_false, not_or, not_le] at h1 h2
      have hinv : e.config.maxInventory = 0 := not_not.1 fun hinv => hgo ⟨h1, h2.1, h2.2.1, h2.2.2, hinv⟩
      rw [show calculateSpread e.config e.marketState e.inventoryState = none by
        simp [calculateSpread, getInventorySkew, hinv]] at h
      cases h

section Provenance

variable {libm : Libm} {e₀ e e₁ : MarketMakerEngine} {done : List EngineCall}

/-- What a run from `e₀` keeps after the calls `done`: they lead to the engine `e`, which is
    well formed, and every quote in its ring is from a cycle of those calls. -/
structure RingQuoted (libm : Libm) (e₀ : MarketMakerEngine) (done : List EngineCall)
    (e : MarketMakerEngine) : Prop where
  reached : ∃ ps, e₀.runEngine libm done = some (ps, e)
  inv : e.Inv
  quoted : ∀ q ∈ e.quoteBuffer.toList, QuotedBy libm e₀ done q

theorem RingQuoted.init (he : e₀.Inv) (hempty : e₀.quoteBuffer.toList = []) :
    RingQuoted libm e₀ [] e₀ :=
  ⟨⟨[], rfl⟩, he, fun q hq => absurd (hempty ▸ hq) (List.not_mem_nil q)⟩

/-- A call that leaves the ring as it was keeps its quotes from cycles. -/
theorem RingQuoted.keep {c : EngineCall} (h : RingQuoted libm e₀ done e)
    (hr : ∃ ps, e₀.runEngine libm (done ++ [c]) = some (ps, e₁)) (hinv : e₁.Inv)
    (hq : e₁.quoteBuffer = e.quoteBuffer) : RingQuoted libm e₀ (done ++ [c]) e₁ :=
  ⟨hr, hinv, fun q hm => (h.quoted q (hq ▸ hm)).append [c]⟩

/-- One call: the ring after it holds quotes of cycles of the run so far, and every quote it
    returns was in the ring before it. -/
theorem RingQuoted.step {c : EngineCall} {hd : List MMQuote} (h : RingQuoted libm e₀ done e)
    (hc : e.runEngine libm [c] = some (hd, e₁)) :
    RingQuoted libm e₀ (done ++ [c]) e₁ ∧ ∀ q ∈ hd, QuotedBy libm e₀ done q := by
  obtain ⟨ps, hr⟩ := h.reached
  have hr' : ∃ ps, e₀.runEngine libm (done ++ [c]) = some (ps, e₁) :=
    ⟨ps ++ hd, by rw [runEngine_append, hr, Option.some_bind, hc]; rfl⟩
  have hnil : ∀ q ∈ ([] : List MMQuote), QuotedBy libm e₀ done q :=
    fun q hq => absurd hq (List.not_mem_nil q)
  cases c with
  | updateMarketData b bs a as l now =>
    cases hc; exact ⟨h.keep hr' (h.inv.updateMarketData libm b bs a as l now) rfl, hnil⟩
  | updatePosition p a now => cases hc; exact ⟨h.keep hr' (h.inv.updatePosition p a now) rfl, hnil⟩
  | start => cases hc; exact ⟨h.keep hr' h.inv.start rfl, hnil⟩
  | stop => cases hc; exact ⟨h.keep hr' h.inv.stop rfl, hnil⟩
  | generateQuotes clock =>
    obtain ⟨e₂, h₁, h₂⟩ := Option.bind_eq_some.1 hc
    cases h₂
    refine ⟨⟨hr', h.inv.generateQuotes clock h₁, fun q hq => ?_⟩, hnil⟩
    rcases generateQuotes_cases h.inv clock h₁ with rfl | ⟨spread, quotes, r, hrun, hmid, hs, hq', rfl, hl⟩
    · exact (h.quoted q hq).append _
    rw [hl] at hq
    rcases List.mem_append.1 (List.mem_of_mem_take hq) with hold | hnew
    · exact (h.quoted q hold).append _
    · obtain ⟨i, hi, rfl⟩ := List.mem_map.1 hnew
      exact ⟨done, clock, ps, e, spread, i, List.prefix_refl _, hr, hrun, hmid, hs,
        List.mem_range.1 hi, hq' i (List.mem_range.1 hi)⟩
  | getNextQuote =>
    obtain ⟨e₂, hpop, hinv, hl, -⟩ := getNextQuote_spec h.inv
    simp only [runEngine, hpop, Option.some_bind, Option.map_some', List.append_nil] at hc
    cases hc
    exact ⟨⟨hr', hinv, fun q hq => (h.quoted q (List.mem_of_mem_tail (hl ▸ hq))).append _⟩,
      fun q hq => h.quoted q (List.mem_of_mem_head? (Option.mem_toList.1 hq))⟩

/-- Every quote popped along a run is from a cycle of the run. -/
theorem RingQuoted.runEngine :
    ∀ (calls : List EngineCall) {done : List EngineCall} {e e' : MarketMakerEngine}
      {popped : List MMQuote}, RingQuoted libm e₀ done e →
      e.runEngine libm calls = some (popped, e') → ∀ q ∈ popped, QuotedBy libm e₀ (done ++ calls) q
  | [], _, _, _, _, _, h => by cases h; exact fun q hq => absurd hq (List.not_mem_nil q)
  | c :: calls, done, e, e', popped, he, h => by
    rw [← List.singleton_append, runEngine_append] at h
    obtain ⟨⟨hd, e₁⟩, hc, h⟩ := Option.bind_eq_some.1 h
    obtain ⟨⟨rest, e₂⟩, hrest, heq⟩ := Option.map_eq_some'.1 h
    cases heq
    obtain ⟨he₁, hhd⟩ := he.step hc
    have hrest := RingQuoted.runEngine calls he₁ hrest
    rw [List.append_assoc, List.singleton_append] at hrest
    intro q hq
    rcases List.mem_append.1 hq with hq | hq
    · exact (hhd q hq).append _
    · exact hrest q hq

end Provenance

/-- From a fresh engine, over any run of calls, every quote `getNextQuote` returns was
    written by a `generateQuotes` call of the run: the engine it found after the calls before
    it was running at a positive mid price, and the quote is the closed-form quote of a slot
    below `cycleSize` from that engine's configuration, position and mid price, with the
    spread `calculateSpread` gave for its market and inventory. -/
theorem popped_quotes_from_cycles (config : MarketMakerConfig) (libm : Libm)
    (calls : List EngineCall) {popped : List MMQuote} {e' : MarketMakerEngine}
    (h : (new config).runEngine libm calls = some (popped, e')) :
    ∀ q ∈ popped, QuotedBy libm (new config) calls q := by
  simpa using RingQuoted.runEngine calls (RingQuoted.init (new_inv config) (RingBuffer.toList_new _)) h

/-- Market data at mid `100`, `start`, one cycle and one `getNextQuote`. -/
def quoteOnce : List EngineCall :=
  [.updateMarketData 100 1 100 1 100 0, .start, .generateQuotes (fun _ => 0), .getNextQuote]

/-- From the default configuration, the run pops one quote, of its one cycle. -/
theorem popped_quotes_from_cycles_quoteOnce :
    ∃ q e', (new .default).runEngine ⟨id, id⟩ quoteOnce = some ([q], e') ∧
      QuotedBy ⟨id, id⟩ (new .default) quoteOnce q := by
  have hmid : 0 < (quotedAt 100).start.marketState.midPrice := by
    simp only [quotedAt, start, updateMarketData]; norm_num
  have he : (quotedAt 100).start.Inv := ((new_inv _).updateMarketData _ _ _ _ _ _ _).start
  obtain ⟨_, quotes, r, -, hgen, -, -, -, hl⟩ := generateQuotes_eq (quotedAt 100).start
    (fun _ => 0) rfl hmid (show (0 : ℚ) < 100 by norm_num) (show (0 : ℚ) < 100 by norm_num)
    (show (100 : ℚ) ≠ 0 by norm_num) he
  obtain ⟨e', hpop, -⟩ := getNextQuote_spec (he.generateQuotes _ hgen)
  have hempty : (quotedAt 100).start.quoteBuffer.toList = [] := RingBuffer.toList_new _
  have hhead : r.toList.head? = some (quotes 0) := by
    rw [hl, hempty]; rfl
  have hr : (new .default).runEngine ⟨id, id⟩ quoteOnce = some ([quotes 0], e') := by
    show ((quotedAt 100).start.generateQuotes fun _ => 0).bind (fun e => e.runEngine ⟨id, id⟩
      [.getNextQuote]) = _
    rw [hgen, Option.some_bind, runEngine, hpop, Option.some_bind, runEngine, Option.map_some']
    exact congrArg (fun p => some (Option.toList p ++ [], e')) hhead
  exact ⟨quotes 0, e', hr, popped_quotes_from_cycles _ _ _ hr _ (List.mem_singleton_self _)⟩

end MarketMakerEngine

end MarketMaker

end OmsCore
