import OmsCore.OrderManager.Index
import OmsCore.RingBuffer.Invariant

/-! # Submission and dispatch

    `SubmitOrder` / `CancelOrder` calls and the dispatch loop's per-queue steps (pop at
    most one request, `ProcessOrder` it), interleaved in any order, each atomic. A pass of
    `ProcessingLoop` is a sequence of such steps (`Reachable.pass`). Ghost lists record,
    per exchange, the requests whose `SubmitOrder` returned `true` and the requests
    `ProcessOrder` received from that exchange's queue, and, in order, each admitted
    request with the id it was stored under.

    The invariant `Inv` says that each exchange's accepted requests are its received ones
    followed by the queue's contents (the ring buffer's `toList`), that the ids assigned
    so far are `1, 2, …` in admission order, and that `exchange_orders_[e]` lists the ids
    of `e`'s admitted requests, which are `e`'s received requests that are not
    cancellations. `dispatch_fifo` reads the delivery and numbering facts off it.
-/

namespace OmsCore

namespace OrderManager

variable {om om' : OrderManager}

/-! ## Spec lemmas of submission and dispatch -/

@[simp] theorem setQueue_orderQueues (e : ExchangeType) (q : RingBuffer Order) :
    (om.setQueue e q).orderQueues = Function.update om.orderQueues e (some q) := rfl

theorem rateGate_snd (om : OrderManager) (now : Nat) :
    ∃ c t, (om.rateGate now).2 = { om with ordersThisSecond := c, lastRateCheck := t } := by
  unfold rateGate
  split_ifs <;> exact ⟨_, _, rfl⟩

/-- What a `SubmitOrder` that returned did: either the gate rejected it, or it pushed
    onto the exchange's queue and returned the push's result. -/
theorem submitOrder_cases {order : Order} {now : Nat} {ok : Bool}
    (h : om.submitOrder order now = some (ok, om')) :
    (ok = false ∧ om' = (om.rateGate now).2.reject) ∨
      ∃ q q', om.orderQueues order.exchange = some q ∧ q.push order = some (ok, q') ∧
        om' = (fun o : OrderManager => if ok then o else o.reject)
          ((om.rateGate now).2.setQueue order.exchange q') := by
  obtain ⟨c, t, hg⟩ := rateGate_snd om now
  unfold submitOrder at h
  cases hp : (om.rateGate now).1
  · simp only [hp, Bool.not_false, ite_true, Option.some.injEq, Prod.mk.injEq] at h
    exact .inl ⟨h.1.symm, h.2.symm⟩
  · simp only [hp, Bool.not_true] at h
    rw [hg] at h
    cases hq : om.orderQueues order.exchange with
    | none => simp [hq] at h
    | some q =>
      simp only [hq] at h
      obtain ⟨⟨ok', q'⟩, hpush, heq⟩ := Option.map_eq_some'.1 h
      refine .inr ⟨q, q', rfl, ?_, ?_⟩ <;> cases ok' <;> simp_all

/-- `SubmitOrder` leaves the order index alone. -/
theorem submitOrder_index {order : Order} {now : Nat} {ok : Bool}
    (h : om.submitOrder order now = some (ok, om')) :
    om'.orders = om.orders ∧ om'.exchangeOrders = om.exchangeOrders ∧
      om'.nextOrderId = om.nextOrderId := by
  obtain ⟨c, t, hg⟩ := rateGate_snd om now
  rcases submitOrder_cases h with ⟨-, rfl⟩ | ⟨q, q', -, -, rfl⟩
  · simp [hg, reject]
  · cases ok <;> simp [hg, reject, setQueue]

/-- `SubmitOrder` touches at most the queue of the request's exchange. -/
theorem submitOrder_queues {order : Order} {now : Nat} {ok : Bool}
    (h : om.submitOrder order now = some (ok, om')) :
    (ok = false ∧ om'.orderQueues = om.orderQueues) ∨
      ∃ q q', om.orderQueues order.exchange = some q ∧ q.push order = some (ok, q') ∧
        om'.orderQueues = Function.update om.orderQueues order.exchange (some q') := by
  obtain ⟨c, t, hg⟩ := rateGate_snd om now
  rcases submitOrder_cases h with ⟨rfl, rfl⟩ | ⟨q, q', hq, hpush, rfl⟩
  · exact .inl ⟨rfl, by simp [hg, reject]⟩
  · exact .inr ⟨q, q', hq, hpush, by cases ok <;> simp [hg, reject, setQueue]⟩

theorem popRequest_cases {e : ExchangeType} {item : Option Order}
    (h : om.popRequest e = some (item, om')) :
    ∃ q q', om.orderQueues e = some q ∧ q.pop = some (item, q') ∧ om' = om.setQueue e q' := by
  unfold popRequest at h
  cases hq : om.orderQueues e with
  | none => simp [hq] at h
  | some q =>
    simp only [hq, Option.map_eq_some', Prod.mk.injEq] at h
    obtain ⟨⟨item', q'⟩, hpop, rfl, rfl⟩ := h
    exact ⟨q, q', rfl, hpop, rfl⟩

/-- `ProcessOrder` changes the order index and nothing else. -/
theorem processOrder_eq (r : Order) (now : Timestamp) : om.processOrder r now =
    { om with
      orders := (om.processOrder r now).orders
      exchangeOrders := (om.processOrder r now).exchangeOrders
      nextOrderId := (om.processOrder r now).nextOrderId } := by
  unfold processOrder processCancellation
  split_ifs
  · split
    · split_ifs <;> rfl
    · rfl
  · rfl

@[simp] theorem handleRequest_orderQueues (r : Order) (t : Tick) :
    (om.handleRequest r t).orderQueues = om.orderQueues := by
  show (om.processOrder r t.createdAt).orderQueues = _
  rw [processOrder_eq]

@[simp] theorem handleRequest_running (r : Order) (t : Tick) :
    (om.handleRequest r t).running = om.running := by
  show (om.processOrder r t.createdAt).running = _
  rw [processOrder_eq]

@[simp] theorem handleRequest_orders (r : Order) (t : Tick) :
    (om.handleRequest r t).orders = (om.processOrder r t.createdAt).orders := rfl

@[simp] theorem handleRequest_exchangeOrders (r : Order) (t : Tick) :
    (om.handleRequest r t).exchangeOrders = (om.processOrder r t.createdAt).exchangeOrders := rfl

@[simp] theorem handleRequest_nextOrderId (r : Order) (t : Tick) :
    (om.handleRequest r t).nextOrderId = (om.processOrder r t.createdAt).nextOrderId := rfl

@[simp] theorem setQueue_orders (e : ExchangeType) (q : RingBuffer Order) :
    (om.setQueue e q).orders = om.orders := rfl

@[simp] theorem setQueue_exchangeOrders (e : ExchangeType) (q : RingBuffer Order) :
    (om.setQueue e q).exchangeOrders = om.exchangeOrders := rfl

@[simp] theorem setQueue_nextOrderId (e : ExchangeType) (q : RingBuffer Order) :
    (om.setQueue e q).nextOrderId = om.nextOrderId := rfl

end OrderManager

namespace Dispatch

open OrderManager

/-! ## State and steps -/

/-- The order manager with proof-only ghost records. -/
structure State where
  om : OrderManager
  /-- Per exchange, the requests whose `SubmitOrder` returned `true`, in call order. -/
  accepted : ExchangeType → List Order
  /-- Per exchange, the requests `ProcessOrder` received from its queue, in order. -/
  received : ExchangeType → List Order
  /-- Each admitted request with the id it was stored under, in admission order. -/
  admitted : List (OrderId × Order)

/-- Append `r` to the ghost list of exchange `e`. -/
def record (xs : ExchangeType → List Order) (e : ExchangeType) (r : Order) :
    ExchangeType → List Order :=
  Function.update xs e (xs e ++ [r])

theorem record_apply (xs : ExchangeType → List Order) (e : ExchangeType) (r : Order)
    (e' : ExchangeType) : record xs e r e' = if e' = e then xs e ++ [r] else xs e' := by
  simp only [record, Function.update_apply]

namespace State

def init (cfg : Config) (now : Nat) : State := ⟨new cfg now, fun _ => [], fun _ => [], []⟩

/-- `SubmitOrder`, recording the request if it returned `true`. -/
def submit (s : State) (order : Order) (now : Nat) : Option State :=
  (s.om.submitOrder order now).map fun (ok, om) =>
    { s with
      om := om
      accepted := if ok then record s.accepted order.exchange order else s.accepted }

/-- `CancelOrder`. -/
def cancel (s : State) (orderId : OrderId) (exchange : ExchangeType) (now : Nat) :
    Option State :=
  s.submit (cancelRequest orderId exchange) now

/-- The dispatch loop's step for the queue of `e`, recording the popped request and,
    unless it is a cancellation, the id it is stored under. -/
def dispatchOne (s : State) (e : ExchangeType) (tick : Tick) : Option State :=
  (s.om.popRequest e).map fun (item, om) =>
    match item with
    | none => { s with om := om }
    | some order =>
      { om := om.handleRequest order tick
        accepted := s.accepted
        received := record s.received e order
        admitted := if order.status = .canceled then s.admitted
          else s.admitted ++ [(om.nextOrderId, order)] }

/-- One pass of `ProcessingLoop` over the queues in the order `keys`. -/
def pass (s : State) (keys : List ExchangeType) (ticks : ExchangeType → Tick) :
    Option State :=
  keys.foldlM (fun s e => s.dispatchOne e (ticks e)) s

/-! ### Erasing the ghosts gives the code -/

theorem submit_om (s : State) (order : Order) (now : Nat) :
    (s.submit order now).map State.om = (s.om.submitOrder order now).map Prod.snd := by
  rw [submit, Option.map_map]
  rfl

theorem dispatchOne_om (s : State) (e : ExchangeType) (tick : Tick) :
    (s.dispatchOne e tick).map State.om = s.om.dispatchOne e tick := by
  rw [dispatchOne, OrderManager.dispatchOne, Option.map_map]
  congr 1
  funext ⟨item, _⟩
  cases item <;> rfl

theorem pass_om (keys : List ExchangeType) (ticks : ExchangeType → Tick) :
    ∀ s : State, (s.pass keys ticks).map State.om = s.om.processingPass keys ticks := by
  induction keys with
  | nil => intro s; rfl
  | cons e keys ih =>
    intro s
    simp only [pass, processingPass, List.foldlM_cons] at ih ⊢
    rw [← dispatchOne_om]
    cases s.dispatchOne e (ticks e) with
    | none => rfl
    | some s' => exact ih s'

end State

/-- The atomic steps: a call of `SubmitOrder` or `CancelOrder` from any thread at any
    clock reading, one dispatch step while the worker runs, `Start` and `Stop`. -/
inductive Step : State → State → Prop
  | submit {s s' : State} (order : Order) (now : Nat) (h : s.submit order now = some s') :
      Step s s'
  | cancel {s s' : State} (orderId : OrderId) (exchange : ExchangeType) (now : Nat)
      (h : s.cancel orderId exchange now = some s') : Step s s'
  | dispatch {s s' : State} (e : ExchangeType) (tick : Tick) (hrun : s.om.running = true)
      (h : s.dispatchOne e tick = some s') : Step s s'
  | start (s : State) : Step s { s with om := s.om.start }
  | stop (s : State) : Step s { s with om := s.om.stop }

/-- The states reachable from `OrderManager(cfg)` built at steady-clock reading `now`. -/
inductive Reachable (cfg : Config) (now : Nat) : State → Prop
  | init : Reachable cfg now (State.init cfg now)
  | step {s s' : State} : Reachable cfg now s → Step s s' → Reachable cfg now s'

theorem State.dispatchOne_running {s s' : State} {e : ExchangeType} {tick : Tick}
    (h : s.dispatchOne e tick = some s') : s'.om.running = s.om.running := by
  obtain ⟨⟨item, om'⟩, hpop, rfl⟩ := Option.map_eq_some'.1 h
  obtain ⟨q, q', -, -, rfl⟩ := popRequest_cases hpop
  cases item <;> simp [setQueue]

/-- A whole pass of `ProcessingLoop` while the worker runs stays among the reachable
    states. -/
theorem Reachable.pass {cfg : Config} {now : Nat} (keys : List ExchangeType)
    (ticks : ExchangeType → Tick) :
    ∀ {s s' : State}, Reachable cfg now s → s.om.running = true →
      s.pass keys ticks = some s' → Reachable cfg now s' := by
  induction keys with
  | nil => intro s s' hs _ h; cases h; exact hs
  | cons e keys ih =>
    intro s s' hs hrun h
    simp only [State.pass, List.foldlM_cons, Option.bind_eq_bind, Option.bind_eq_some] at h
    obtain ⟨s₁, h₁, h⟩ := h
    exact ih (hs.step (.dispatch e (ticks e) hrun h₁)) ((State.dispatchOne_running h₁).trans hrun) h

/-- What a dispatch step did: it popped nothing, or it popped `r` and handed it to
    `ProcessOrder`. -/
theorem dispatchOne_cases {s s' : State} {e : ExchangeType} {tick : Tick}
    (h : s.dispatchOne e tick = some s') :
    ∃ q q', s.om.orderQueues e = some q ∧
      ((q.pop = some (none, q') ∧ s' = { s with om := s.om.setQueue e q' }) ∨
        ∃ r, q.pop = some (some r, q') ∧
          s' = ⟨(s.om.setQueue e q').handleRequest r tick, s.accepted, record s.received e r,
            if r.status = .canceled then s.admitted
            else s.admitted ++ [(s.om.nextOrderId, r)]⟩) := by
  obtain ⟨⟨item, om'⟩, hpop, rfl⟩ := Option.map_eq_some'.1 h
  obtain ⟨q, q', hq, hq', rfl⟩ := popRequest_cases hpop
  cases item with
  | none => exact ⟨q, q', hq, .inl ⟨hq', rfl⟩⟩
  | some r => exact ⟨q, q', hq, .inr ⟨r, hq', rfl⟩⟩

/-! ## The invariant -/

/-- Exchange `e`'s accepted requests are its received ones followed by the contents of
    its queue; an exchange without a queue has accepted and received nothing. -/
def QueueAgree (s : State) (e : ExchangeType) : Prop :=
  (∃ q, s.om.orderQueues e = some q ∧ q.Inv ∧ s.accepted e = s.received e ++ q.toList) ∨
    (s.om.orderQueues e = none ∧ s.accepted e = [] ∧ s.received e = [])

theorem QueueAgree.frame {s s' : State} {e : ExchangeType} (h : QueueAgree s e)
    (hq : s'.om.orderQueues e = s.om.orderQueues e) (ha : s'.accepted e = s.accepted e)
    (hr : s'.received e = s.received e) : QueueAgree s' e := by
  unfold QueueAgree
  rwa [hq, ha, hr]

theorem QueueAgree.received_prefix_accepted {s : State} {e : ExchangeType}
    (h : QueueAgree s e) :
    s.received e <+: s.accepted e := by
  rcases h with ⟨q, -, -, ha⟩ | ⟨-, ha, hr⟩
  · exact ha ▸ List.prefix_append _ _
  · simp [ha, hr]

structure Inv (s : State) : Prop where
  /-- The next id follows the ids assigned so far. -/
  next_eq : s.om.nextOrderId = s.admitted.length + 1
  /-- The ids assigned so far are `1, 2, …` in admission order. -/
  ids_eq : s.admitted.map Prod.fst = List.range' 1 s.admitted.length
  queue : ∀ e, QueueAgree s e
  /-- A request is accepted only for its own exchange. -/
  exchange_eq : ∀ e, ∀ r ∈ s.accepted e, r.exchange = e
  /-- `exchange_orders_[e]` lists the ids of `e`'s admitted requests. -/
  listed : ∀ e, s.om.exchangeOrders e =
    (s.admitted.filter fun a => a.2.exchange = e).map Prod.fst
  /-- `e`'s admitted requests are its received requests that are not cancellations. -/
  admitted_eq : ∀ e, (s.admitted.filter fun a => a.2.exchange = e).map Prod.snd =
    (s.received e).filter fun r => r.status ≠ .canceled

variable {cfg : Config} {s s' : State}

theorem inv_init (h1 : 2 ≤ cfg.ringBufferSize) (h2 : cfg.ringBufferSize ≤ 2 ^ 63)
    (now : Nat) : Inv (State.init cfg now) := by
  refine ⟨rfl, rfl, fun e => ?_, fun e r hr => absurd hr (List.not_mem_nil r), fun e => rfl,
    fun e => rfl⟩
  by_cases he : e.code.val ≤ 6
  · exact .inl ⟨_, if_pos he, RingBuffer.new_inv h1 h2, by simp [State.init]⟩
  · exact .inr ⟨if_neg he, rfl, rfl⟩

theorem submit_cases {order : Order} {now : Nat} (h : s.submit order now = some s') :
    ∃ ok om', s.om.submitOrder order now = some (ok, om') ∧
      s' = { s with
        om := om'
        accepted := if ok then record s.accepted order.exchange order else s.accepted } := by
  obtain ⟨⟨ok, om'⟩, hsub, rfl⟩ := Option.map_eq_some'.1 h
  exact ⟨ok, om', hsub, rfl⟩

theorem Inv.submit (hi : Inv s) {order : Order} {now : Nat}
    (h : s.submit order now = some s') : Inv s' := by
  obtain ⟨ok, om', hsub, rfl⟩ := submit_cases h
  obtain ⟨-, hx, hn⟩ := submitOrder_index hsub
  refine ⟨hn.trans hi.next_eq, hi.ids_eq, fun e => ?_, fun e r hr => ?_,
    fun e => (congrFun hx e).trans (hi.listed e), hi.admitted_eq⟩
  · rcases submitOrder_queues hsub with ⟨rfl, hq⟩ | ⟨q, q', hq, hpush, hq'⟩
    · exact (hi.queue e).frame (congrFun hq e) rfl rfl
    · by_cases he : e = order.exchange
      · subst he
        obtain ⟨q₀, hq₀, hinv, hacc⟩ := (hi.queue order.exchange).resolve_right (by simp [hq])
        cases hq₀.symm.trans hq
        obtain ⟨q'', hpush', hinv', -, hlist⟩ := RingBuffer.push_spec hinv order
        rw [hpush, Option.some.injEq, Prod.mk.injEq] at hpush'
        obtain ⟨rfl, rfl⟩ := hpush'
        refine .inl ⟨q', by simp [hq'], hinv', ?_⟩
        split_ifs at hlist ⊢ with hroom <;> simp_all [record_apply]
      · refine (hi.queue e).frame (by simp [hq', he]) ?_ rfl
        split_ifs <;> simp [record_apply, he]
  · simp only [ite_apply, record_apply] at hr
    split_ifs at hr with hok he
    · rcases List.mem_append.1 hr with hr | hr
      · rw [he]; exact hi.exchange_eq _ r hr
      · rw [List.mem_singleton.1 hr, he]
    all_goals exact hi.exchange_eq e r hr

/-- After popping `r` from `e`'s queue, the queue agreement holds with `r` moved from the
    queue to `e`'s received requests. -/
theorem Inv.queue_pop (hi : Inv s) {e : ExchangeType} {q q' : RingBuffer Order}
    (hq : s.om.orderQueues e = some q) (hinv : q'.Inv) (om : OrderManager)
    (hom : om.orderQueues = Function.update s.om.orderQueues e (some q'))
    (received : ExchangeType → List Order)
    (hr : ∀ e', e' ≠ e → received e' = s.received e')
    (hacc : s.accepted e = received e ++ q'.toList) (admitted : List (OrderId × Order))
    (e' : ExchangeType) : QueueAgree ⟨om, s.accepted, received, admitted⟩ e' := by
  by_cases he : e' = e
  · subst he
    exact .inl ⟨q', by simp [hom], hinv, hacc⟩
  · exact (hi.queue e').frame (by simp [hom, he]) rfl (hr e' he)

theorem Inv.dispatchOne (hi : Inv s) {e : ExchangeType} {tick : Tick}
    (h : s.dispatchOne e tick = some s') (hb : s'.admitted.length + 1 < wordSize) :
    Inv s' := by
  obtain ⟨q, q', hq, hcase⟩ := dispatchOne_cases h
  obtain ⟨q₀, hq₀, hinv, hacc⟩ := (hi.queue e).resolve_right (by simp [hq])
  cases hq₀.symm.trans hq
  obtain ⟨q'', hpop, hinv', -, hlist⟩ := RingBuffer.pop_spec hinv
  rcases hcase with ⟨hpop', rfl⟩ | ⟨r, hpop', rfl⟩
  · rw [hpop, Option.some.injEq, Prod.mk.injEq] at hpop'
    obtain ⟨hnil, rfl⟩ := hpop'
    refine ⟨hi.next_eq, hi.ids_eq, hi.queue_pop hq hinv' _ (by simp) _ (fun _ _ => rfl) ?_ _,
      hi.exchange_eq, hi.listed, hi.admitted_eq⟩
    rw [hacc, hlist, List.head?_eq_none_iff.1 hnil]
    rfl
  · rw [hpop, Option.some.injEq, Prod.mk.injEq] at hpop'
    obtain ⟨hhead, rfl⟩ := hpop'
    have hcons : q.toList = r :: q''.toList := by
      rw [hlist]
      exact List.eq_cons_of_mem_head? hhead
    have hre : r.exchange = e := hi.exchange_eq e r (by simp [hacc, hcons])
    have hqueue := hi.queue_pop hq hinv' ((s.om.setQueue e q'').handleRequest r tick)
      (by simp) (record s.received e r) (fun e' he => by simp [record_apply, he])
      (by simp [record_apply, hacc, hcons])
    by_cases hc : r.status = .canceled
    · refine ⟨?_, ?_, hqueue _, hi.exchange_eq, fun e' => ?_, fun e' => ?_⟩
      · simp [hc, processOrder_of_canceled, hi.next_eq]
      · simpa [hc] using hi.ids_eq
      · simp [hc, processOrder_of_canceled, hi.listed e']
      · simp only [if_pos hc, record_apply]
        split_ifs with he
        · simp [he, hc, hi.admitted_eq]
        · exact hi.admitted_eq e'
    · have hnext : s.admitted.length + 1 + 1 < wordSize := by
        simpa only [if_neg hc, List.length_append, List.length_singleton] using hb
      refine ⟨?_, ?_, hqueue _, hi.exchange_eq, fun e' => ?_, fun e' => ?_⟩
      · simp only [handleRequest_nextOrderId, processOrder_nextOrderId hc, setQueue_nextOrderId,
          sizeAdd, Nat.mod_eq_of_lt hnext, if_neg hc, List.length_append, List.length_singleton,
          hi.next_eq]
      · simp [hc, hi.ids_eq, List.range'_concat, hi.next_eq, Nat.add_comm]
      · rw [handleRequest_exchangeOrders, processOrder_exchangeOrders hc, if_neg hc]
        by_cases he : e' = r.exchange
        · simp [he, hi.listed]
        · simp [he, Ne.symm he, hi.listed]
      · simp only [if_neg hc, record_apply, List.filter_append, List.map_append]
        split_ifs with he
        · subst he
          simp [hre, hc, hi.admitted_eq]
        · simp [hi.admitted_eq, hre, Ne.symm he]

/-! ## Runs -/

theorem Step.admitted_prefix (h : Step s s') : s.admitted <+: s'.admitted := by
  cases h with
  | submit _ _ h | cancel _ _ _ h =>
    obtain ⟨-, -, -, rfl⟩ := submit_cases h
    exact List.prefix_refl _
  | dispatch _ _ _ h =>
    obtain ⟨q, q', -, ⟨-, rfl⟩ | ⟨r, -, rfl⟩⟩ := dispatchOne_cases h
    · exact List.prefix_refl _
    · split_ifs
      · exact List.prefix_refl _
      · exact List.prefix_append _ _
  | start | stop => exact List.prefix_refl _

theorem inv_step (hi : Inv s) (h : Step s s') (hb : s'.admitted.length + 1 < wordSize) :
    Inv s' := by
  cases h with
  | submit _ _ h | cancel _ _ _ h => exact hi.submit h
  | dispatch _ _ _ h => exact hi.dispatchOne h hb
  | start | stop => exact ⟨hi.next_eq, hi.ids_eq, hi.queue, hi.exchange_eq, hi.listed, hi.admitted_eq⟩

/-- The invariant holds in every reachable state with fewer than `2^64 - 1` admissions;
    admissions only accumulate, so the bound holds all along the run. -/
theorem inv_reachable (h1 : 2 ≤ cfg.ringBufferSize) (h2 : cfg.ringBufferSize ≤ 2 ^ 63)
    {now : Nat} (hs : Reachable cfg now s) (hb : s.admitted.length + 1 < wordSize) : Inv s := by
  induction hs with
  | init => exact inv_init h1 h2 now
  | step _ hstep ih =>
    exact inv_step (ih (lt_of_le_of_lt (Nat.add_le_add_right hstep.admitted_prefix.length_le 1) hb))
      hstep hb

/-- A dispatch step that hands a request `r` other than a cancellation to `ProcessOrder`
    records it under the next id and stores `r` there with only `id` and `created_at`
    replaced. -/
theorem dispatchOne_admit {e : ExchangeType} {tick : Tick} {r : Order}
    (h : s.dispatchOne e tick = some s') (hr : s'.received e = s.received e ++ [r])
    (hc : r.status ≠ .canceled) :
    s'.admitted = s.admitted ++ [(s.om.nextOrderId, r)] ∧
      s'.om.getOrder s.om.nextOrderId =
        some { r with id := s.om.nextOrderId, createdAt := tick.createdAt } := by
  obtain ⟨q, q', -, ⟨-, rfl⟩ | ⟨r', -, rfl⟩⟩ := dispatchOne_cases h
  · simp at hr
  · simp only [record_apply, if_true, List.append_cancel_left_eq, List.cons.injEq,
      and_true] at hr
    subst hr
    exact ⟨if_neg hc, by simp [getOrder, processOrder_orders hc]⟩

theorem Inv.id_lt_next (hi : Inv s) {a : OrderId × Order} (ha : a ∈ s.admitted) :
    a.1 < s.om.nextOrderId := by
  have : a.1 ∈ List.range' 1 s.admitted.length := hi.ids_eq ▸ List.mem_map_of_mem Prod.fst ha
  rw [List.mem_range'_1] at this
  rw [hi.next_eq]
  exact this.2.trans_le (Nat.add_comm _ _).le

/-! ## Runs of events -/

/-- One step of a thread of the order manager: a call of `SubmitOrder` or `CancelOrder`,
    a dispatch step of the worker, `Start` or `Stop`. -/
inductive Event where
  | submitOrder (order : Order) (now : Nat)
  | cancelOrder (orderId : OrderId) (exchange : ExchangeType) (now : Nat)
  | dispatch (e : ExchangeType) (tick : Tick)
  | start
  | stop

namespace State

/-- One event; the worker takes a dispatch step only while it runs. -/
def exec (s : State) : Event → Option State
  | .submitOrder order now => s.submit order now
  | .cancelOrder orderId exchange now => s.cancel orderId exchange now
  | .dispatch e tick => if s.om.running then s.dispatchOne e tick else some s
  | .start => some { s with om := s.om.start }
  | .stop => some { s with om := s.om.stop }

/-- The events in turn. -/
def execAll (s : State) (evs : List Event) : Option State := evs.foldlM exec s

end State

variable {now : Nat} {ev : Event}

theorem Reachable.exec (hs : Reachable cfg now s) (h : s.exec ev = some s') :
    Reachable cfg now s' := by
  cases ev with
  | submitOrder order t => exact hs.step (.submit order t h)
  | cancelOrder i e t => exact hs.step (.cancel i e t h)
  | dispatch e tick =>
    by_cases hrun : s.om.running
    · exact hs.step (.dispatch e tick hrun (by simpa [State.exec, hrun] using h))
    · obtain rfl : s = s' := by simpa [State.exec, hrun] using h
      exact hs
  | start => cases h; exact hs.step (.start s)
  | stop => cases h; exact hs.step (.stop s)

/-- Every run stays among the reachable states. -/
theorem Reachable.execAll : ∀ (evs : List Event) {s s' : State}, Reachable cfg now s →
    s.execAll evs = some s' → Reachable cfg now s'
  | [], _, _, hs, h => by cases h; exact hs
  | ev :: evs, s, s', hs, h => by
    obtain ⟨s₁, h₁, h⟩ := Option.bind_eq_some.1 h
    exact Reachable.execAll evs (hs.exec h₁) h

/-- Submission and dispatch, interleaved in any order: each exchange's queue delivers its
    accepted requests to `ProcessOrder` in submission order, each once; the requests
    admitted from it are its delivered requests that are not cancellations, and
    `exchange_orders_[e]` lists their ids in that order; ids rise with admission, and
    each admission stores the request under an id above every id assigned before, with
    only `id` and `created_at` replaced. -/
theorem dispatch_fifo {now : Nat} (h1 : 2 ≤ cfg.ringBufferSize)
    (h2 : cfg.ringBufferSize ≤ 2 ^ 63) (hs : Reachable cfg now s)
    (hb : s.admitted.length + 1 < wordSize) :
    (∀ e, s.received e <+: s.accepted e) ∧
    (∀ e, (s.admitted.filter fun a => a.2.exchange = e).map Prod.snd =
      (s.received e).filter fun r => r.status ≠ .canceled) ∧
    (∀ e, s.om.exchangeOrders e =
      (s.admitted.filter fun a => a.2.exchange = e).map Prod.fst) ∧
    (s.admitted.map Prod.fst).Sorted (· < ·) ∧
    ∀ e tick s' r, s.dispatchOne e tick = some s' → s'.received e = s.received e ++ [r] →
      r.status ≠ .canceled →
      (∀ a ∈ s.admitted, a.1 < s.om.nextOrderId) ∧
      s'.admitted = s.admitted ++ [(s.om.nextOrderId, r)] ∧
      s'.om.getOrder s.om.nextOrderId =
        some { r with id := s.om.nextOrderId, createdAt := tick.createdAt } := by
  have hi := inv_reachable h1 h2 hs hb
  refine ⟨fun e => (hi.queue e).received_prefix_accepted, hi.admitted_eq, hi.listed, ?_,
    fun e tick s' r h hr hc => ⟨fun a => hi.id_lt_next, dispatchOne_admit h hr hc⟩⟩
  rw [hi.ids_eq]
  exact List.pairwise_lt_range' 1 _

/-- Three requests, two on `BINANCE_SPOT` and one on `OKX_SPOT`, submitted once the worker
    runs. -/
def threeOrders : List Event :=
  [.start, .submitOrder { Order.blank with quantity := 1 } 0,
    .submitOrder { Order.blank with quantity := 2 } 0,
    .submitOrder { Order.blank with exchange := .okxSpot, quantity := 3 } 0]

/-- After the three requests and one dispatch step on `BINANCE_SPOT`: its first request was
    delivered and admitted under id `1`, the second still waits. -/
theorem dispatch_fifo_threeOrders :
    ∃ s, (State.init Config.default 0).execAll
        (threeOrders ++ [Event.dispatch ExchangeType.binanceSpot ⟨5, 1⟩]) = some s ∧
      s.received .binanceSpot = [{ Order.blank with quantity := 1 }] ∧
      s.accepted .binanceSpot =
        [{ Order.blank with quantity := 1 }, { Order.blank with quantity := 2 }] ∧
      s.admitted = [(1, { Order.blank with quantity := 1 })] ∧
      2 ≤ Config.default.ringBufferSize ∧ Config.default.ringBufferSize ≤ 2 ^ 63 ∧
      Reachable Config.default 0 s ∧ s.admitted.length + 1 < wordSize ∧
      (∀ e, s.received e <+: s.accepted e) ∧
      (∀ e, s.om.exchangeOrders e = (s.admitted.filter fun a => a.2.exchange = e).map Prod.fst) ∧
      (s.admitted.map Prod.fst).Sorted (· < ·) := by
  obtain ⟨s, hs, hrec, hacc, hadm⟩ : ∃ s,
      (State.init Config.default 0).execAll
        (threeOrders ++ [Event.dispatch ExchangeType.binanceSpot ⟨5, 1⟩]) = some s ∧
      s.received .binanceSpot = [{ Order.blank with quantity := 1 }] ∧
      s.accepted .binanceSpot =
        [{ Order.blank with quantity := 1 }, { Order.blank with quantity := 2 }] ∧
      s.admitted = [(1, { Order.blank with quantity := 1 })] := ⟨_, rfl, rfl, rfl, rfl⟩
  have h1 : 2 ≤ Config.default.ringBufferSize := by decide
  have h2 : Config.default.ringBufferSize ≤ 2 ^ 63 := by decide
  have hr : Reachable Config.default 0 s := Reachable.init.execAll _ hs
  have hb : s.admitted.length + 1 < wordSize := by rw [hadm]; decide
  obtain ⟨hpre, -, hlisted, hsorted, -⟩ := dispatch_fifo h1 h2 hr hb
  exact ⟨s, hs, hrec, hacc, hadm, h1, h2, hr, hb, hpre, hlisted, hsorted⟩

end Dispatch

end OmsCore
