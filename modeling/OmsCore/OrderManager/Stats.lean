import OmsCore.OrderManager.Admission
import Mathlib.Algebra.BigOperators.Group.Finset
import Mathlib.Data.Fintype.Basic
import Mathlib.Data.Nat.ModEq

/-! # The order manager's counters over any interleaving

    `SubmitOrder` and `CancelOrder` count a refused request in `stats_.orders_rejected` on
    either of their two refusal paths, the rate gate and a full queue, and the dispatch
    loop counts each request it hands to `ProcessOrder` in `stats_.orders_processed`.

    A run is any interleaving of calls, dispatch steps, `Start` and `Stop` (`Event`,
    `State.execAll`); every run stays among the reachable states of `Dispatch`
    (`Reachable.execAll`). Along a run `orders_processed` is the number of requests taken
    off the queues, and `orders_rejected` plus the accepted requests is the number of calls,
    both modulo `2^64` (`Counted`). With the queue invariant of `Dispatch` this says that
    every call is counted exactly once: as a rejection, as a processed request, or as a
    request still waiting in its exchange's queue (`every_call_counted_once`).
-/

namespace OmsCore

namespace OrderManager

variable {om om' : OrderManager}

/-! ## What each operation does to the counters -/

@[simp] theorem setQueue_stats (e : ExchangeType) (q : RingBuffer Order) :
    (om.setQueue e q).stats = om.stats := rfl

theorem handleRequest_ordersProcessed (r : Order) (t : Tick) :
    (om.handleRequest r t).stats.ordersProcessed = sizeAdd om.stats.ordersProcessed 1 := by
  show sizeAdd (om.processOrder r t.createdAt).stats.ordersProcessed 1 = _
  rw [processOrder_eq]

theorem handleRequest_ordersRejected (r : Order) (t : Tick) :
    (om.handleRequest r t).stats.ordersRejected = om.stats.ordersRejected := by
  show (om.processOrder r t.createdAt).stats.ordersRejected = _
  rw [processOrder_eq]

/-- `SubmitOrder` leaves `orders_processed` alone. -/
theorem submitOrder_ordersProcessed {order : Order} {now : Nat} {ok : Bool}
    (h : om.submitOrder order now = some (ok, om')) :
    om'.stats.ordersProcessed = om.stats.ordersProcessed := by
  obtain ⟨c, t, hg⟩ := rateGate_snd om now
  rcases submitOrder_cases h with ⟨-, rfl⟩ | ⟨q, q', -, -, rfl⟩
  · simp [hg, reject]
  · cases ok <;> simp [hg, reject]

end OrderManager

namespace Dispatch

open OrderManager

/-! ## Totals over the exchanges -/

/-- The exchange bytes, as `Fin 256`. -/
instance : Fintype ExchangeType :=
  Fintype.ofEquiv (Fin 256) ⟨ExchangeType.mk, ExchangeType.code, fun _ => rfl, fun _ => rfl⟩

/-- The number of requests in the ghost lists `xs`, over every exchange. -/
def total (xs : ExchangeType → List Order) : Nat := ∑ e, (xs e).length

theorem total_record (xs : ExchangeType → List Order) (e : ExchangeType) (r : Order) :
    total (record xs e r) = total xs + 1 := by
  have : ∀ e', (record xs e r e').length = (xs e').length + if e' = e then 1 else 0 := by
    intro e'
    rw [record_apply]
    split_ifs with h <;> simp [h]
  simp only [total, this, Finset.sum_add_distrib, Finset.sum_ite_eq', Finset.mem_univ, if_true]

/-- The requests waiting in exchange `e`'s queue, by its `size()`; none where it has no
    queue. -/
def queued (om : OrderManager) (e : ExchangeType) : Nat :=
  ((om.orderQueues e).map RingBuffer.size).getD 0

/-- Under the queue invariant, each accepted request has been received or still waits. -/
theorem Inv.total_accepted {s : State} (hi : Inv s) :
    total s.accepted = total s.received + ∑ e, queued s.om e := by
  rw [total, total, ← Finset.sum_add_distrib]
  refine Finset.sum_congr rfl fun e _ => ?_
  rcases hi.queue e with ⟨q, hq, -, hacc⟩ | ⟨hq, hacc, hrec⟩
  · simp [hacc, queued, hq, RingBuffer.length_toList]
  · simp [hacc, hrec, queued, hq]

/-! ## Runs -/

/-- The calls of the admission API. -/
def Event.isCall : Event → Bool
  | .submitOrder .. | .cancelOrder .. => true
  | .dispatch .. | .start | .stop => false

variable {cfg : Config} {now n : Nat} {s s' : State} {ev : Event}

/-- A step admits at most one request. -/
theorem exec_admitted (h : s.exec ev = some s') : s'.admitted.length ≤ s.admitted.length + 1 := by
  cases ev with
  | submitOrder order t | cancelOrder _ _ t =>
    obtain ⟨-, -, -, rfl⟩ := submit_cases h
    exact Nat.le_succ _
  | dispatch e tick =>
    by_cases hrun : s.om.running
    · simp only [State.exec, hrun, if_true] at h
      obtain ⟨q, q', -, ⟨-, rfl⟩ | ⟨r, -, rfl⟩⟩ := dispatchOne_cases h
      · exact Nat.le_succ _
      · split_ifs <;> simp
    · obtain rfl : s = s' := by simpa [State.exec, hrun] using h
      exact Nat.le_succ _
  | start | stop => cases h; exact Nat.le_succ _

theorem execAll_admitted : ∀ (evs : List Event) {s s' : State}, s.execAll evs = some s' →
    s'.admitted.length ≤ s.admitted.length + evs.length
  | [], _, _, h => by cases h; exact le_rfl
  | ev :: evs, s, s', h => by
    obtain ⟨s₁, h₁, h⟩ := Option.bind_eq_some.1 h
    have := execAll_admitted evs h
    have := exec_admitted h₁
    simp only [List.length_cons]
    omega

/-! ## The counting invariant -/

/-- After `n` calls: `orders_processed` counts the requests taken off the queues, and
    `orders_rejected` with the accepted requests counts the calls. -/
def Counted (n : Nat) (s : State) : Prop :=
  s.om.stats.ordersProcessed = total s.received % wordSize ∧
    Nat.ModEq wordSize (s.om.stats.ordersRejected + total s.accepted) n

theorem counted_init (cfg : Config) (now : Nat) : Counted 0 (State.init cfg now) := by
  simp [Counted, State.init, new, Stats.init, total, Nat.ModEq]

/-- A step adds one to `n` for a call and keeps the count. -/
theorem Counted.exec (hc : Counted n s) (h : s.exec ev = some s') :
    Counted (n + if ev.isCall then 1 else 0) s' := by
  obtain ⟨hp, hr⟩ := hc
  cases ev with
  | submitOrder order t | cancelOrder _ _ t =>
    obtain ⟨ok, om', hsub, rfl⟩ := submit_cases h
    have hrej := (submitOrder_counters hsub).2.2.2
    refine ⟨(submitOrder_ordersProcessed hsub).trans hp, ?_⟩
    cases ok
    · simpa [hrej, sizeAdd, Event.isCall, Nat.ModEq, Nat.add_right_comm] using hr.add_right 1
    · simpa [hrej, total_record, Event.isCall, Nat.add_assoc] using hr.add_right 1
  | dispatch e tick =>
    by_cases hrun : s.om.running
    · simp only [State.exec, hrun, if_true] at h
      obtain ⟨q, q', -, ⟨-, rfl⟩ | ⟨r, -, rfl⟩⟩ := dispatchOne_cases h
      · exact ⟨hp, hr⟩
      · refine ⟨?_, by simpa [handleRequest_ordersRejected, Event.isCall] using hr⟩
        simp only [handleRequest_ordersProcessed, setQueue_stats, hp, total_record, sizeAdd,
          Nat.mod_add_mod]
    · obtain rfl : s = s' := by simpa [State.exec, hrun] using h
      exact ⟨hp, hr⟩
  | start | stop => cases h; exact ⟨hp, hr⟩

theorem Counted.execAll : ∀ (evs : List Event) {n : Nat} {s s' : State}, Counted n s →
    s.execAll evs = some s' → Counted (n + evs.countP Event.isCall) s'
  | [], _, _, _, hc, h => by cases h; exact hc
  | ev :: evs, n, s, s', hc, h => by
    obtain ⟨s₁, h₁, h⟩ := Option.bind_eq_some.1 h
    have := Counted.execAll evs (hc.exec h₁) h
    rwa [List.countP_cons, Nat.add_comm (List.countP _ evs), ← Nat.add_assoc]

/-- Over any interleaving of calls, dispatch steps, `Start` and `Stop` from a fresh
    manager, with fewer than `2^64 - 1` events: `orders_processed` is the number of requests
    the worker took off the queues, and every call is counted exactly once, modulo `2^64`,
    as a rejection, as a processed request, or as a request still in its exchange's
    queue. -/
theorem every_call_counted_once (h1 : 2 ≤ cfg.ringBufferSize) (h2 : cfg.ringBufferSize ≤ 2 ^ 63)
    (now : Nat) (evs : List Event) (h : (State.init cfg now).execAll evs = some s)
    (hlen : evs.length + 1 < wordSize) :
    s.om.stats.ordersProcessed = total s.received % wordSize ∧
      Nat.ModEq wordSize
        (s.om.stats.ordersRejected + s.om.stats.ordersProcessed + ∑ e, queued s.om e)
        (evs.countP Event.isCall) := by
  obtain ⟨hp, hr⟩ := (counted_init cfg now).execAll evs h
  have hi := inv_reachable h1 h2 (Reachable.init.execAll evs h)
    (lt_of_le_of_lt (Nat.add_le_add_right (execAll_admitted evs h) 1)
      (by simpa [State.init] using hlen))
  refine ⟨hp, ?_⟩
  calc s.om.stats.ordersRejected + s.om.stats.ordersProcessed + ∑ e, queued s.om e
      = s.om.stats.ordersRejected + total s.received % wordSize + ∑ e, queued s.om e := by
        rw [hp]
    _ ≡ s.om.stats.ordersRejected + total s.received + ∑ e, queued s.om e [MOD wordSize] :=
        ((Nat.mod_modEq _ _).add_left _).add_right _
    _ = s.om.stats.ordersRejected + total s.accepted := by rw [hi.total_accepted, Nat.add_assoc]
    _ ≡ evs.countP Event.isCall [MOD wordSize] := by simpa using hr

/-- A request from the default exchange accepted, then processed once the worker runs. -/
def submitThenDispatch : List Event :=
  [.submitOrder Order.blank 0, .start, .dispatch ExchangeType.binanceSpot ⟨0, 3⟩]

theorem every_call_counted_once_submitThenDispatch :
    ∃ s, (State.init Config.default 0).execAll submitThenDispatch = some s ∧
      s.om.stats.ordersProcessed = total s.received % wordSize ∧
      Nat.ModEq wordSize
        (s.om.stats.ordersRejected + s.om.stats.ordersProcessed + ∑ e, queued s.om e)
        (submitThenDispatch.countP Event.isCall) := by
  obtain ⟨s, hs⟩ : ∃ s, (State.init Config.default 0).execAll submitThenDispatch = some s :=
    ⟨_, rfl⟩
  exact ⟨s, hs, every_call_counted_once (by decide) (by decide) 0 submitThenDispatch hs (by decide)⟩

end Dispatch

end OmsCore
