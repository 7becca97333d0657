import OmsCore.OrderManager.Dispatch

/-! # Passes of the dispatch loop

    One iteration of `ProcessingLoop` visits every queue of `order_queues_` once, in the
    map's iteration order, and pops at most one request from each. So while no
    `SubmitOrder` or `CancelOrder` call comes in between, `n` passes hand `ProcessOrder`
    exactly the first `n` requests waiting in each queue, in order, and leave the rest
    queued, whatever the other queues hold (`passes_serve_every_queue`): no exchange is
    starved by another, and the request at position `i` of its queue is processed in pass
    `i + 1`.

    One spec lemma per level: a dispatch step (`dispatchOne_spec`), a pass over distinct keys
    (`pass_spec`), a run of passes (`passes_spec`).
-/

namespace OmsCore

namespace Dispatch

open OrderManager

/-- The requests waiting in `e`'s queue, oldest first. -/
def waiting (s : State) (e : ExchangeType) : List Order :=
  ((s.om.orderQueues e).map RingBuffer.toList).getD []

/-- `e` has a queue in a valid state. -/
def Serviceable (s : State) (e : ExchangeType) : Prop :=
  ∃ q, s.om.orderQueues e = some q ∧ q.Inv

/-- `n` passes of `ProcessingLoop` over the queues in the order `keys` with no other call in
    between, pass `i` reading its clocks from the `i`-th entry of `ticks`. -/
def State.passes (s : State) (keys : List ExchangeType) (ticks : List (ExchangeType → Tick)) :
    Option State :=
  ticks.foldlM (fun s t => s.pass keys t) s

variable {s s' : State}

theorem waiting_congr (h : s'.om.orderQueues e = s.om.orderQueues e) : waiting s' e = waiting s e := by
  rw [waiting, h, waiting]

theorem Serviceable.congr (hs : Serviceable s e) (h : s'.om.orderQueues e = s.om.orderQueues e) :
    Serviceable s' e := by
  rwa [Serviceable, h]

/-! ## One dispatch step -/

/-- A dispatch step on a queue in a valid state is defined: it moves the oldest waiting
    request, if any, to the received ones, and touches no other queue. -/
theorem dispatchOne_spec {e : ExchangeType} (hs : Serviceable s e) (tick : Tick) :
    ∃ s', s.dispatchOne e tick = some s' ∧ Serviceable s' e ∧
      waiting s' e = (waiting s e).tail ∧ s'.received e = s.received e ++ (waiting s e).take 1 ∧
      ∀ e', e' ≠ e → s'.om.orderQueues e' = s.om.orderQueues e' ∧ s'.received e' = s.received e' := by
  obtain ⟨q, hq, hinv⟩ := hs
  obtain ⟨q', hpop, hinv', -, hlist⟩ := RingBuffer.pop_spec hinv
  have hw : waiting s e = q.toList := by simp [waiting, hq]
  have hpr : s.om.popRequest e = some (q.toList.head?, s.om.setQueue e q') := by
    simp [popRequest, hq, hpop]
  -- the step pops the head of the queue, if any
  cases hl : q.toList with
  | nil =>
    refine ⟨{ s with om := s.om.setQueue e q' }, by simp [State.dispatchOne, hpr, hl],
      ⟨q', by simp, hinv'⟩, ?_, by simp [hw, hl], fun e' he => ⟨by simp [he], rfl⟩⟩
    rw [hw, hl]
    simp [waiting, hlist, hl]
  | cons r rest =>
    refine ⟨⟨(s.om.setQueue e q').handleRequest r tick, s.accepted, record s.received e r,
        if r.status = .canceled then s.admitted else s.admitted ++ [(s.om.nextOrderId, r)]⟩,
      by simp [State.dispatchOne, hpr, hl], ⟨q', by simp, hinv'⟩, ?_,
      by simp [hw, hl, record_apply], fun e' he => ⟨by simp [he], by simp [record_apply, he]⟩⟩
    rw [hw, hl]
    simp [waiting, hlist, hl]

/-! ## One pass -/

/-- A pass over distinct keys whose queues are valid is defined, serves each of them once,
    and touches no other queue. -/
theorem pass_spec (t : ExchangeType → Tick) :
    ∀ (keys : List ExchangeType) (s : State), keys.Nodup → (∀ e ∈ keys, Serviceable s e) →
      ∃ s', s.pass keys t = some s' ∧ ∀ e,
        (e ∈ keys → Serviceable s' e ∧ waiting s' e = (waiting s e).tail ∧
          s'.received e = s.received e ++ (waiting s e).take 1) ∧
        (e ∉ keys → s'.om.orderQueues e = s.om.orderQueues e ∧ s'.received e = s.received e)
  | [], s, _, _ => ⟨s, rfl, fun _ => ⟨fun he => absurd he (List.not_mem_nil _),
      fun _ => ⟨rfl, rfl⟩⟩⟩
  | k :: keys, s, hnd, hserv => by
    obtain ⟨hk, hnd⟩ := List.nodup_cons.1 hnd
    obtain ⟨s₁, h₁, hv₁, hw₁, hr₁, hother₁⟩ := dispatchOne_spec (hserv k (List.mem_cons_self _ _)) (t k)
    obtain ⟨s', h', hspec⟩ := pass_spec t keys s₁ hnd fun e he =>
      (hserv e (List.mem_cons_of_mem _ he)).congr (hother₁ e fun h => hk (h ▸ he)).1
    refine ⟨s', by simpa [State.pass, h₁] using h', fun e => ⟨fun he => ?_, fun he => ?_⟩⟩
    · by_cases hek : e = k
      · subst hek
        obtain ⟨hq, hr⟩ := (hspec e).2 hk
        exact ⟨hv₁.congr hq, (waiting_congr hq).trans hw₁, hr.trans hr₁⟩
      · obtain ⟨hq₁, hr₁'⟩ := hother₁ e hek
        obtain ⟨hv, hw, hr⟩ := (hspec e).1 ((List.mem_cons.1 he).resolve_left hek)
        rw [waiting_congr hq₁] at hw hr
        exact ⟨hv, hw, hr.trans (by rw [hr₁'])⟩
    · rw [List.mem_cons, not_or] at he
      obtain ⟨hek, he⟩ := he
      obtain ⟨hq, hr⟩ := (hspec e).2 he
      obtain ⟨hq₁, hr₁'⟩ := hother₁ e hek
      exact ⟨hq.trans hq₁, hr.trans hr₁'⟩

theorem take_one_append_take_tail (l : List Order) (n : Nat) :
    l.take 1 ++ l.tail.take n = l.take (n + 1) := by
  cases l <;> simp

/-! ## Runs of passes -/

/-- `n` passes over distinct keys whose queues are valid are defined and serve each of them
    `n` times: its first `n` waiting requests are received, in order, and the rest wait. -/
theorem passes_spec (keys : List ExchangeType) (hnd : keys.Nodup) :
    ∀ (ticks : List (ExchangeType → Tick)) (s : State), (∀ e ∈ keys, Serviceable s e) →
      ∃ s', s.passes keys ticks = some s' ∧ ∀ e ∈ keys, Serviceable s' e ∧
        waiting s' e = (waiting s e).drop ticks.length ∧
        s'.received e = s.received e ++ (waiting s e).take ticks.length
  | [], s, hserv => ⟨s, rfl, fun e he => ⟨hserv e he, rfl, by simp⟩⟩
  | t :: ticks, s, hserv => by
    obtain ⟨s₁, h₁, hspec₁⟩ := pass_spec t keys s hnd hserv
    obtain ⟨s', h', hspec'⟩ := passes_spec keys hnd ticks s₁ fun e he => ((hspec₁ e).1 he).1
    refine ⟨s', by simpa [State.passes, h₁] using h', fun e he => ?_⟩
    obtain ⟨hv, hw, hr⟩ := hspec' e he
    obtain ⟨-, hw₁, hr₁⟩ := (hspec₁ e).1 he
    rw [hw₁] at hw hr
    refine ⟨hv, by rw [hw, List.drop_tail, List.length_cons], ?_⟩
    rw [hr, hr₁, List.append_assoc, take_one_append_take_tail, List.length_cons]

/-- Passes leave the worker's `running_` flag alone. -/
theorem pass_running (t : ExchangeType → Tick) :
    ∀ (keys : List ExchangeType) {s s' : State}, s.pass keys t = some s' →
      s'.om.running = s.om.running
  | [], _, _, h => by cases h; rfl
  | e :: keys, s, s', h => by
    obtain ⟨s₁, h₁, h⟩ := Option.bind_eq_some.1 h
    exact (pass_running t keys h).trans (State.dispatchOne_running h₁)

/-- Passes while the worker runs stay among the reachable states. -/
theorem Reachable.passes {cfg : Config} {now : Nat} (keys : List ExchangeType) :
    ∀ (ticks : List (ExchangeType → Tick)) {s s' : State}, Reachable cfg now s →
      s.om.running = true → s.passes keys ticks = some s' → Reachable cfg now s'
  | [], _, _, hs, _, h => by cases h; exact hs
  | t :: ticks, s, s', hs, hrun, h => by
    obtain ⟨s₁, h₁, h⟩ := Option.bind_eq_some.1 h
    exact Reachable.passes keys ticks (hs.pass keys t hrun h₁)
      ((pass_running t keys h₁).trans hrun) h

/-- From every reachable state of a running order manager (fewer than `2^64 - 1`
    admissions, `ring_buffer_size` in `[2, 2^63]`), `n` passes of `ProcessingLoop` over
    distinct queue keys, with no call in between, are defined and stay reachable, and each
    queue hands `ProcessOrder` exactly its first `n` waiting requests, in order, keeping the
    rest: every exchange is served once per pass, whatever the other queues hold. -/
theorem passes_serve_every_queue {cfg : Config} {now : Nat} (h1 : 2 ≤ cfg.ringBufferSize)
    (h2 : cfg.ringBufferSize ≤ 2 ^ 63) {s : State} (hs : Reachable cfg now s)
    (hb : s.admitted.length + 1 < wordSize) (hrun : s.om.running = true)
    {keys : List ExchangeType} (hnd : keys.Nodup)
    (hkeys : ∀ e ∈ keys, (s.om.orderQueues e).isSome) (ticks : List (ExchangeType → Tick)) :
    ∃ s', s.passes keys ticks = some s' ∧ Reachable cfg now s' ∧
      ∀ e ∈ keys, s'.received e = s.received e ++ (waiting s e).take ticks.length ∧
        waiting s' e = (waiting s e).drop ticks.length := by
  have hi := inv_reachable h1 h2 hs hb
  have hserv : ∀ e ∈ keys, Serviceable s e := fun e he =>
    match hi.queue e, hkeys e he with
    | .inl ⟨q, hq, hinv, _⟩, _ => ⟨q, hq, hinv⟩
    | .inr ⟨hq, _⟩, hsome => absurd hsome (by simp [hq])
  obtain ⟨s', h', hspec⟩ := passes_spec keys hnd ticks s hserv
  exact ⟨s', h', hs.passes keys ticks hrun h', fun e he => ⟨(hspec e he).2.2, (hspec e he).2.1⟩⟩

/-- After the three requests of `threeOrders`, two passes over both queues: `BINANCE_SPOT`
    hands over both of its requests and `OKX_SPOT` its one. -/
theorem passes_serve_every_queue_threeOrders :
    ∃ s, (State.init Config.default 0).execAll threeOrders = some s ∧
      waiting s .binanceSpot = [{ Order.blank with quantity := 1 }, { Order.blank with quantity := 2 }] ∧
      waiting s .okxSpot = [{ Order.blank with exchange := .okxSpot, quantity := 3 }] ∧
      2 ≤ Config.default.ringBufferSize ∧ Config.default.ringBufferSize ≤ 2 ^ 63 ∧
      Reachable Config.default 0 s ∧ s.admitted.length + 1 < wordSize ∧ s.om.running = true ∧
      [ExchangeType.binanceSpot, ExchangeType.okxSpot].Nodup ∧
      (∀ e ∈ [ExchangeType.binanceSpot, ExchangeType.okxSpot], (s.om.orderQueues e).isSome) ∧
      ∃ s', s.passes [.binanceSpot, .okxSpot] [fun _ => ⟨0, 1⟩, fun _ => ⟨1, 1⟩] = some s' ∧
        Reachable Config.default 0 s' ∧ ∀ e ∈ [ExchangeType.binanceSpot, ExchangeType.okxSpot],
          s'.received e = s.received e ++ (waiting s e).take 2 ∧
            waiting s' e = (waiting s e).drop 2 := by
  obtain ⟨s, hs, hb₀, ho₀, hrun, hadm, hkeys⟩ : ∃ s,
      (State.init Config.default 0).execAll threeOrders = some s ∧
      waiting s .binanceSpot = [{ Order.blank with quantity := 1 }, { Order.blank with quantity := 2 }] ∧
      waiting s .okxSpot = [{ Order.blank with exchange := .okxSpot, quantity := 3 }] ∧
      s.om.running = true ∧ s.admitted = [] ∧
      ∀ e ∈ [ExchangeType.binanceSpot, ExchangeType.okxSpot], (s.om.orderQueues e).isSome :=
    ⟨_, rfl, rfl, rfl, rfl, rfl, by decide⟩
  have h1 : 2 ≤ Config.default.ringBufferSize := by decide
  have h2 : Config.default.ringBufferSize ≤ 2 ^ 63 := by decide
  have hr : Reachable Config.default 0 s := Reachable.init.execAll _ hs
  have hb : s.admitted.length + 1 < wordSize := by rw [hadm]; decide
  have hnd : [ExchangeType.binanceSpot, ExchangeType.okxSpot].Nodup := by decide
  exact ⟨s, hs, hb₀, ho₀, h1, h2, hr, hb, hrun, hnd, hkeys,
    passes_serve_every_queue h1 h2 hr hb hrun hnd hkeys [fun _ => ⟨0, 1⟩, fun _ => ⟨1, 1⟩]⟩

end Dispatch

end OmsCore
