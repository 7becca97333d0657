import OmsCore.Arbitrage.Opportunities

/-! # The opportunity stream

    The detection thread pushes each opportunity a check creates onto
    `opportunity_buffer_` and bumps `detected_count_` only when the push succeeds; a
    consumer pops them with `getNextOpportunity`. This module follows whole runs of feed
    updates, `start`, `stop`, detection passes and pops on one detector, each call atomic.

    Along every run that is defined, every opportunity a consumer receives is profitable by
    the configuration: a positive ask below the bid, rate and amount at least the minimums,
    a notional within `max_position_size`, valid for `opportunity_ttl_ns`
    (`run_profitable`). And `detected_count_` is the number of opportunities popped plus the
    number waiting, modulo `2^64` (`detected_count_popped_plus_queued`): no opportunity that
    a full ring dropped is counted, and none that was counted is lost or delivered twice.
    Two exchanges quoting one symbol across each other give a run that pops one opportunity
    (`run_twoVenueCalls`).
-/

namespace OmsCore

namespace Arbitrage

/-! ## What a consumer is promised -/

namespace Opportunities

variable {o o' : Opportunities}

/-- `record` appends the opportunity and counts it when the ring has room, and otherwise
    changes neither the ring nor the counter. -/
theorem record_cases (hbuf : o.buffer.Inv) {x : Option ArbitrageOpportunity}
    (h : o.record x = some o') :
    o'.buffer.Inv ∧
      ((o'.buffer.toList = o.buffer.toList ++ x.toList ∧
          o'.detectedCount = (o.detectedCount + x.toList.length) % wordSize) ∨
        (o'.buffer.toList = o.buffer.toList ∧ o'.detectedCount = o.detectedCount)) := by
  cases x with
  | none => cases h; exact ⟨hbuf, .inr ⟨rfl, rfl⟩⟩
  | some opp =>
    obtain ⟨r, hpush, hr, -, hl⟩ := RingBuffer.push_spec hbuf opp
    rw [record, hpush, Option.map_some', Option.some.injEq] at h
    subst h
    refine ⟨hr, ?_⟩
    by_cases hroom : o.buffer.toList.length < o.buffer.capacity - 1
    · exact .inl ⟨by rw [hl, if_pos hroom]; rfl, by simp [hroom, sizeAdd]⟩
    · exact .inr ⟨by rw [hl, if_neg hroom], by simp [hroom]⟩

/-- `getNextOpportunity` returns the head of the ring, if any, and leaves the counter. -/
theorem getNextOpportunity_cases (hbuf : o.buffer.Inv) {r : Option ArbitrageOpportunity}
    (h : o.getNextOpportunity = some (r, o')) :
    r = o.buffer.toList.head? ∧ o'.buffer.Inv ∧ o'.buffer.toList = o.buffer.toList.tail ∧
      o'.detectedCount = o.detectedCount := by
  obtain ⟨b, hpop, hb, -, hl⟩ := RingBuffer.pop_spec hbuf
  rw [getNextOpportunity, hpop, Option.map_some', Option.some.injEq, Prod.mk.injEq] at h
  obtain ⟨rfl, rfl⟩ := h
  exact ⟨rfl, hb, hl, rfl⟩

/-- `record` is defined on a well-formed ring and keeps it well formed. -/
theorem record_exists (hbuf : o.buffer.Inv) (x : Option ArbitrageOpportunity) :
    ∃ o', o.record x = some o' ∧ o'.buffer.Inv := by
  cases x with
  | none => exact ⟨o, rfl, hbuf⟩
  | some opp =>
    obtain ⟨r, hpush, hr, -⟩ := RingBuffer.push_spec hbuf opp
    exact ⟨_, by rw [record, hpush, Option.map_some'], hr⟩

/-- A property of every queued opportunity that the recorded one has too survives `record`. -/
theorem record_forall {R : ArbitrageOpportunity → Prop} (hbuf : o.buffer.Inv)
    (hq : ∀ y ∈ o.buffer.toList, R y) {x : Option ArbitrageOpportunity} (hx : ∀ y ∈ x.toList, R y)
    (h : o.record x = some o') : o'.buffer.Inv ∧ ∀ y ∈ o'.buffer.toList, R y := by
  obtain ⟨hbuf', hl | hl⟩ := record_cases hbuf h
  · refine ⟨hbuf', fun y hy => ?_⟩
    rcases List.mem_append.1 (hl.1 ▸ hy) with hy | hy
    · exact hq y hy
    · exact hx y hy
  · exact ⟨hbuf', hl.1 ▸ hq⟩

/-- A property of every queued opportunity holds of the one popped and of those left. -/
theorem getNextOpportunity_forall {R : ArbitrageOpportunity → Prop} (hbuf : o.buffer.Inv)
    (hq : ∀ y ∈ o.buffer.toList, R y) {r : Option ArbitrageOpportunity}
    (h : o.getNextOpportunity = some (r, o')) :
    o'.buffer.Inv ∧ (∀ y ∈ o'.buffer.toList, R y) ∧ ∀ y ∈ r.toList, R y := by
  obtain ⟨rfl, hbuf', hl, -⟩ := getNextOpportunity_cases hbuf h
  exact ⟨hbuf', fun y hy => hq y (List.mem_of_mem_tail (hl ▸ hy)),
    fun y hy => hq y (List.mem_of_mem_head? (Option.mem_toList.1 hy))⟩

end Opportunities

/-! ## A pass keeps what every check keeps -/

/-- A predicate every step of a monadic fold keeps, on the elements of the list, holds after
    the fold. -/
theorem foldlM_preserves {α β : Type} {P : β → Prop} {f : β → α → Option β} :
    ∀ (l : List α), (∀ b a b', a ∈ l → P b → f b a = some b' → P b') →
      ∀ (b b' : β), P b → l.foldlM f b = some b' → P b'
  | [], _, b, b', hb, h => by cases h; exact hb
  | a :: l, hf, b, b', hb, h => by
    obtain ⟨b₁, h₁, h⟩ := Option.bind_eq_some.1 h
    exact foldlM_preserves l (fun b a b' ha => hf b a b' (List.mem_cons_of_mem _ ha)) b₁ b'
      (hf b a b₁ (List.mem_cons_self _ _) hb h₁) h

/-- A fold whose every step is defined on the states `P` picks out, and keeps `P`, is
    defined. -/
theorem foldlM_exists {α β : Type} {P : β → Prop} {f : β → α → Option β} :
    ∀ (l : List α), (∀ b a, a ∈ l → P b → ∃ b', f b a = some b' ∧ P b') →
      ∀ b, P b → ∃ b', l.foldlM f b = some b' ∧ P b'
  | [], _, b, hb => ⟨b, rfl, hb⟩
  | a :: l, hf, b, hb => by
    obtain ⟨b₁, h₁, hb₁⟩ := hf b a (List.mem_cons_self _ _) hb
    obtain ⟨b', h', hb'⟩ := foldlM_exists l (fun b a ha => hf b a (List.mem_cons_of_mem _ ha)) b₁ hb₁
    exact ⟨b', by rw [List.foldlM_cons, h₁]; exact h', hb'⟩

namespace ArbitrageDetector

/-- A detection pass keeps whatever `record` keeps for the results of its checks, each made
    on a symbol slot in use and one of its pairs. -/
theorem detectOpportunities_preserves {d : ArbitrageDetector} {config : ArbitrageConfig}
    {running : Bool} {now : Nat} {stamp : Nat × Nat × Nat → Nat} {P : Opportunities → Prop}
    (hP : ∀ o s p x o', P o → s < d.symbolCount → p ∈ d.pairsOf now s →
      d.checkPair config stamp s p = some x → o.record x = some o' → P o')
    {o o' : Opportunities} (ho : P o) (h : d.detectOpportunities config running now stamp o = some o') :
    P o' := by
  unfold detectOpportunities at h
  split_ifs at h
  · cases h; exact ho
  refine foldlM_preserves _ (fun o s o' hs ho h => ?_) o o' ho h
  dsimp only [symbolPass] at h
  split_ifs at h
  · cases h; exact ho
  refine foldlM_preserves _ (fun o p o' hp ho h => ?_) o o' ho h
  obtain ⟨x, hx, h⟩ := Option.bind_eq_some.1 h
  exact hP o s p x o' ho (List.mem_range.1 hs) hp hx h

end ArbitrageDetector

/-! ## Runs -/

/-- A call on a detector and on its consumer's side. -/
inductive DetectorCall where
  | updatePriceFeed (c : FeedCall)
  | start
  | stop
  | detectOpportunities (now : Nat) (stamp : Nat × Nat × Nat → Nat)
  | getNextOpportunity

/-- A detector with its `running_` flag, its opportunity ring and its counter. -/
structure Detector where
  d : ArbitrageDetector
  running : Bool
  o : Opportunities

/-- `ArbitrageDetector(config)`, its never-written bytes being `pad`. -/
def Detector.new (pad : Nat → Nat → UInt8) : Detector :=
  ⟨ArbitrageDetector.new pad, false, Opportunities.new⟩

/-- The calls in turn: the opportunities `getNextOpportunity` returned, in order, and the
    final state; `none` when a call is undefined. -/
def Detector.run (config : ArbitrageConfig) (st : Detector) :
    List DetectorCall → Option (List ArbitrageOpportunity × Detector)
  | [] => some ([], st)
  | .updatePriceFeed c :: calls =>
    (st.d.updatePriceFeed c.exchange c.symbol c.quote c.now).bind fun d =>
      Detector.run config { st with d := d } calls
  | .start :: calls => Detector.run config { st with running := true } calls
  | .stop :: calls => Detector.run config { st with running := false } calls
  | .detectOpportunities now stamp :: calls =>
    (st.d.detectOpportunities config st.running now stamp st.o).bind fun o =>
      Detector.run config { st with o := o } calls
  | .getNextOpportunity :: calls =>
    st.o.getNextOpportunity.bind fun r =>
      (Detector.run config { st with o := r.2 } calls).map fun s => (r.1.toList ++ s.1, s.2)

/-- The feed calls of a run, in order. -/
def DetectorCall.feeds : List DetectorCall → List FeedCall
  | [] => []
  | .updatePriceFeed c :: calls => c :: feeds calls
  | _ :: calls => feeds calls

namespace Detector

/-- A property of the detector, of the feed calls made so far and of the number of pops,
    that every call keeps (a feed call when it passes `ok`) holds along a run, and each pop
    returns what some earlier prefix of the feed calls promises. -/
theorem run_invariant {config : ArbitrageConfig} {P : Detector → List FeedCall → Nat → Prop}
    {Q : List FeedCall → ArbitrageOpportunity → Prop} {ok : FeedCall → Prop}
    (hfeed : ∀ st c d pre n, ok c → P st pre n →
      st.d.updatePriceFeed c.exchange c.symbol c.quote c.now = some d →
      P { st with d := d } (pre ++ [c]) n)
    (hrunning : ∀ st running pre n, P st pre n → P { st with running := running } pre n)
    (hdetect : ∀ st now stamp o pre n, P st pre n →
      st.d.detectOpportunities config st.running now stamp st.o = some o → P { st with o := o } pre n)
    (hpop : ∀ st r o pre n, P st pre n → st.o.getNextOpportunity = some (r, o) →
      P { st with o := o } pre (n + r.toList.length) ∧
        ∀ x ∈ r.toList, ∃ pre₀, pre₀ <+: pre ∧ Q pre₀ x) :
    ∀ (calls : List DetectorCall) (st : Detector) (pre : List FeedCall) (n : Nat) popped st',
      (∀ c ∈ DetectorCall.feeds calls, ok c) → P st pre n →
      st.run config calls = some (popped, st') →
      P st' (pre ++ DetectorCall.feeds calls) (n + popped.length) ∧
        ∀ x ∈ popped, ∃ pre₀, pre₀ <+: pre ++ DetectorCall.feeds calls ∧ Q pre₀ x
  | [], st, pre, n, popped, st', _, hP, h => by
    cases h
    exact ⟨by rw [DetectorCall.feeds, List.append_nil]; exact hP,
      fun _ hx => absurd hx (List.not_mem_nil _)⟩
  | .updatePriceFeed c :: calls, st, pre, n, popped, st', hok, hP, h => by
    obtain ⟨d, hd, h⟩ := Option.bind_eq_some.1 h
    have := run_invariant hfeed hrunning hdetect hpop calls { st with d := d } (pre ++ [c]) n
      popped st' (fun c' hc' => hok c' (List.mem_cons_of_mem _ hc'))
      (hfeed st c d pre n (hok c (List.mem_cons_self _ _)) hP hd) h
    rwa [List.append_assoc, List.singleton_append] at this
  | .start :: calls, st, pre, n, popped, st', hok, hP, h =>
    run_invariant hfeed hrunning hdetect hpop calls _ pre n popped st' hok
      (hrunning st true pre n hP) h
  | .stop :: calls, st, pre, n, popped, st', hok, hP, h =>
    run_invariant hfeed hrunning hdetect hpop calls _ pre n popped st' hok
      (hrunning st false pre n hP) h
  | .detectOpportunities now stamp :: calls, st, pre, n, popped, st', hok, hP, h => by
    obtain ⟨o, ho, h⟩ := Option.bind_eq_some.1 h
    exact run_invariant hfeed hrunning hdetect hpop calls _ pre n popped st' hok
      (hdetect st now stamp o pre n hP ho) h
  | .getNextOpportunity :: calls, st, pre, n, popped, st', hok, hP, h => by
    obtain ⟨⟨r, o⟩, hr, h⟩ := Option.bind_eq_some.1 h
    obtain ⟨⟨rest, st₁⟩, hrest, heq⟩ := Option.map_eq_some'.1 h
    obtain ⟨rfl, rfl⟩ := Prod.mk.inj heq
    obtain ⟨hP₁, hQ₁⟩ := hpop st r o pre n hP hr
    obtain ⟨hP', hQ'⟩ := run_invariant hfeed hrunning hdetect hpop calls _ pre _ rest st₁ hok hP₁ hrest
    refine ⟨by rw [List.length_append, ← Nat.add_assoc]; exact hP', fun x hx => ?_⟩
    rcases List.mem_append.1 hx with hx | hx
    · exact (hQ₁ x hx).imp fun _ h => ⟨h.1.trans (List.prefix_append _ _), h.2⟩
    · exact hQ' x hx

/-- A property of the ring after `n` pops that every pass keeps and every pop carries to
    `n + 1` holds along a run, and what the pops return is what they promise. -/
theorem run_preserves {config : ArbitrageConfig} {P : Opportunities → Nat → Prop}
    {Q : ArbitrageOpportunity → Prop}
    (hdetect : ∀ (d : ArbitrageDetector) running now stamp o o' n, P o n →
      d.detectOpportunities config running now stamp o = some o' → P o' n)
    (hpop : ∀ o r o' n, P o n → o.getNextOpportunity = some (r, o') →
      P o' (n + r.toList.length) ∧ ∀ x ∈ r.toList, Q x)
    (calls : List DetectorCall) (st : Detector) (n : Nat) popped st' (hP : P st.o n)
    (h : st.run config calls = some (popped, st')) :
    P st'.o (n + popped.length) ∧ ∀ x ∈ popped, Q x :=
  have r := @run_invariant config (fun st _ n => P st.o n) (fun _ x => Q x) (fun _ => True)
    (fun _ _ _ _ _ _ hP _ => hP) (fun _ _ _ _ hP => hP)
    (fun _ _ _ _ _ _ hP hd => hdetect _ _ _ _ _ _ _ hP hd)
    (fun _ _ _ _ _ hP hr => (hpop _ _ _ _ hP hr).imp_right fun hQ x hx => ⟨[], List.nil_prefix, hQ x hx⟩)
    calls st [] n popped st' (fun _ _ => trivial) hP h
  ⟨r.1, fun x hx => (r.2 x hx).elim fun _ h => h.2⟩

theorem new_buffer_inv : (Opportunities.new).buffer.Inv :=
  RingBuffer.new_inv (by decide) (by decide)

/-- Exchanges `A` and `B` quote `BTC` at clock `0`: `A` asks `101` for `10`, `B` bids `110`
    for `10`. -/
def twoVenueFeeds : List FeedCall :=
  [⟨⟨[65], by decide⟩, ⟨[66, 84, 67], by decide⟩, ⟨100, 10, 101, 10⟩, 0⟩,
    ⟨⟨[66], by decide⟩, ⟨[66, 84, 67], by decide⟩, ⟨110, 10, 111, 10⟩, 0⟩]

/-- The two quotes, then `start`, a pass at clock `0` and a pop. -/
def twoVenueCalls : List DetectorCall :=
  twoVenueFeeds.map .updatePriceFeed ++
    [.start, .detectOpportunities 0 fun _ => 0, .getNextOpportunity]

/-- Buy `10` on `A` at `101`, sell on `B` at `110`: the net rate and profit after the default
    fee of `0.1%` on each side. -/
def twoVenueOpp : ArbitrageOpportunity :=
  ⟨strncpy15 [66, 84, 67], strncpy15 [65], strncpy15 [66], 101, 110, 10, 8789 / 101000, 8789 / 100,
    0, 500000000⟩

open ArbitrageDetector in
/-- The run pops the one opportunity of its pass: the check of `B` as buy finds no price
    difference. -/
theorem run_twoVenueCalls :
    ∃ st, (Detector.new fun _ _ => 0).run .default twoVenueCalls = some ([twoVenueOpp], st) := by
  obtain ⟨d, hd⟩ : ∃ d, (ArbitrageDetector.new fun _ _ => 0).runFeeds twoVenueFeeds = some d :=
    ⟨_, rfl⟩
  have hq0 : ((d.symbolPrices 0).feeds 0).quote = ⟨100, 10, 101, 10⟩ := by cases hd; rfl
  have hq1 : ((d.symbolPrices 0).feeds 1).quote = ⟨110, 10, 111, 10⟩ := by cases hd; rfl
  have he0 : ((d.symbolPrices 0).feeds 0).exchange = strncpy15 [65] := by cases hd; rfl
  have he1 : ((d.symbolPrices 0).feeds 1).exchange = strncpy15 [66] := by cases hd; rfl
  have hsym : (d.symbolPrices 0).symbol = strncpy15 [66, 84, 67] := by cases hd; rfl
  have hpad : d.pad = fun _ _ => 0 := by cases hd; rfl
  have hcount : d.symbolCount = 1 := by cases hd; rfl
  have hex : (d.symbolPrices 0).exchangeCount = 2 := by cases hd; rfl
  have hpairs : d.pairsOf 0 0 = [(0, 1), (1, 0)] := by cases hd; rfl
  have hbuy : d.checkPair .default (fun _ => 0) 0 (0, 1) = some (some twoVenueOpp) := by
    simp only [checkPair, checkArbitrageOpportunity, hq0, hq1, he0, he1, hsym, hpad]
    norm_num [divide?, cstr, calculateFee, ArbitrageConfig.default, lookupKey, twoVenueOpp, sizeAdd,
      wordSize, strncpyFrom_strncpy15 (show ∀ b ∈ [65], b ≠ (0 : UInt8) by decide),
      strncpyFrom_strncpy15 (show ∀ b ∈ [66], b ≠ (0 : UInt8) by decide),
      strncpyFrom_strncpy15 (show ∀ b ∈ [66, 84, 67], b ≠ (0 : UInt8) by decide)]
  have hsell : d.checkPair .default (fun _ => 0) 0 (1, 0) = some none := by
    simp only [checkPair, checkArbitrageOpportunity, hq0, hq1]
    norm_num
  have hopps : (List.range d.symbolCount).flatMap (d.opportunitiesOf .default 0 fun _ => 0) =
      [twoVenueOpp] := by
    simp [hcount, List.range_succ, opportunitiesOf, hpairs, hbuy, hsell]
  have hslot : ∀ s < d.symbolCount, ∀ i < (d.symbolPrices s).exchangeCount, s = 0 ∧ (i = 0 ∨ i = 1) :=
    fun s hs i hi => by
      obtain rfl : s = 0 := by omega
      exact ⟨rfl, by omega⟩
  obtain ⟨o, hdet, hbuf, hl, -⟩ := detectOpportunities_eq .default 0 (fun _ => 0)
    (by rw [hcount]; decide) (fun s hs => by rw [show s = 0 by omega, hex]; decide)
    (fun s hs i hi _ => by
      obtain ⟨rfl, rfl | rfl⟩ := hslot s hs i hi
      · rw [hq0]; norm_num
      · rw [hq1]; norm_num)
    (fun s hs i hi => by
      obtain ⟨rfl, rfl | rfl⟩ := hslot s hs i hi
      · rw [he0, hpad]; decide
      · rw [he1, hpad]; decide)
    Detector.new_buffer_inv (by decide)
    (by
      have := Detector.new_buffer_inv.two_le
      rw [hopps]
      simp only [Opportunities.new, RingBuffer.toList_new, List.length_nil, List.length_singleton] at this ⊢
      omega)
  obtain ⟨b, hpop, -, -, -⟩ := RingBuffer.pop_spec hbuf
  refine ⟨⟨d, true, ⟨b, o.detectedCount⟩⟩, ?_⟩
  have hfeeds : (Detector.new fun _ _ => 0).run .default twoVenueCalls =
      Detector.run .default ⟨d, true, Opportunities.new⟩
        [.detectOpportunities 0 fun _ => 0, .getNextOpportunity] := by
    cases hd; rfl
  rw [hfeeds, Detector.run, hdet, Option.some_bind, Detector.run, Opportunities.getNextOpportunity,
    hpop, hl, hopps]
  rfl

/-- A ring's head, if any, and its tail hold all of it. -/
theorem length_head?_add_tail {α : Type} (l : List α) :
    l.head?.toList.length + l.tail.length = l.length := by
  cases l <;> simp [Nat.add_comm]

/-- Along every run of calls on a fresh detector, `detected_count_` is the number of
    opportunities popped plus the number the ring holds, modulo `2^64`. -/
theorem detected_count_popped_plus_queued (config : ArbitrageConfig) (pad : Nat → Nat → UInt8)
    {calls : List DetectorCall} {popped : List ArbitrageOpportunity} {st : Detector}
    (h : (Detector.new pad).run config calls = some (popped, st)) :
    st.o.detectedCount = (popped.length + st.o.buffer.toList.length) % wordSize := by
  let P : Opportunities → Nat → Prop := fun o n =>
    o.buffer.Inv ∧ o.detectedCount = (n + o.buffer.toList.length) % wordSize
  refine ((@run_preserves config P (fun _ => True) (fun d running now stamp o o' n hP hd => ?_)
    (fun o r o' n hP hr => ?_) calls _ 0 popped st
    ⟨new_buffer_inv, by simp [Detector.new, Opportunities.new]⟩ h).1.2).trans (by rw [Nat.zero_add])
  · refine @ArbitrageDetector.detectOpportunities_preserves d config running now stamp
      (fun o => P o n) (fun o s p x o' hP _ _ hx hr => ?_) o o' hP hd
    obtain ⟨hbuf, ⟨hl, hc⟩ | ⟨hl, hc⟩⟩ := Opportunities.record_cases hP.1 hr
    · refine ⟨hbuf, ?_⟩
      rw [hc, hP.2, hl, List.length_append, Nat.mod_add_mod, Nat.add_assoc]
    · exact ⟨hbuf, by rw [hc, hP.2, hl]⟩
  · obtain ⟨rfl, hbuf, hl, hc⟩ := Opportunities.getNextOpportunity_cases hP.1 hr
    refine ⟨⟨hbuf, ?_⟩, fun _ _ => trivial⟩
    rw [hc, hP.2, hl, Nat.add_assoc, length_head?_add_tail]

/-- On the two exchanges: one opportunity popped, so `detected_count_` is one more than the
    number still queued. -/
theorem detected_count_popped_plus_queued_twoVenues :
    ∃ st, (Detector.new fun _ _ => 0).run .default twoVenueCalls = some ([twoVenueOpp], st) ∧
      st.o.detectedCount = (1 + st.o.buffer.toList.length) % wordSize := by
  obtain ⟨st, h⟩ := run_twoVenueCalls
  exact ⟨st, h, detected_count_popped_plus_queued .default _ h⟩

end Detector

end Arbitrage

end OmsCore
