import OmsCore.RingBuffer.Concurrent

/-! # Several producers on one ring buffer

    `SubmitOrder` for an exchange pushes onto that exchange's ring buffer from whatever
    thread calls it; the dispatch worker is the one consumer. Here any number of producer
    threads run the steps of `push`, each with its own position, and the consumer runs the
    steps of `pop`, all interleaved (sequential consistency). The rate gate before the
    push touches only `orders_this_second_`, so for the queue it is a stutter step, and
    `SubmitOrder` returns `true` exactly when its push does: `pushed` records the accepted
    requests.

    Nothing in `push` keeps two producers apart. Two of them can load the same `head`,
    write the same slot and both store `head + 1`, both returning `true`: one request is
    lost (`two_producers_lose_request`). When a producer starts a `push` only while every
    other producer is idle (`exclusive`), the runs are runs of the one-producer model
    under the mapping `toSpsc`, and nothing is lost or duplicated
    (`exclusive_producers_no_loss`).
-/

namespace OmsCore

namespace Mpsc

open Spsc (ProducerPc ConsumerPc producerCheck consumerCheck)

/-! ## State and steps -/

/-- The shared buffer, every thread's position, and the ghost history. -/
structure State (α : Type) where
  ring : RingBuffer α
  /-- Producer thread `i`'s position inside its current `push`. -/
  producers : List (ProducerPc α)
  consumer : ConsumerPc α
  /-- Items of the pushes that returned `true`, in the order they returned. -/
  pushed : List α
  /-- Items of the pops that returned `true`, in order. -/
  popped : List α

variable {α : Type}

/-- A fresh `RingBuffer<T>(c)` and `n` idle producer threads. -/
def init [Inhabited α] (c n : Nat) : State α :=
  ⟨RingBuffer.new c, List.replicate n .idle, .idle, [], []⟩

/-- One step of one thread. With `exclusive`, a producer starts a `push` only while
    every producer is idle. -/
inductive Step (exclusive : Bool) : State α → State α → Prop where
  | producerLoadHead (s : State α) (i : Nat) (x : α) (hp : s.producers[i]? = some .idle)
      (hx : exclusive = true → ∀ p ∈ s.producers, p = .idle) :
      Step exclusive s { s with producers := s.producers.set i (.loadedHead x s.ring.head) }
  | producerLoadTail (s : State α) (i : Nat) (x : α) (h : Nat)
      (hp : s.producers[i]? = some (.loadedHead x h)) :
      Step exclusive s { s with producers := s.producers.set i (producerCheck s.ring x h) }
  | producerWrite (s : State α) (i : Nat) (x : α) (h next : Nat) (r : RingBuffer α)
      (hp : s.producers[i]? = some (.checked x h next)) (hw : s.ring.store? h x = some r) :
      Step exclusive s { s with ring := r, producers := s.producers.set i (.wrote x h next) }
  | producerStore (s : State α) (i : Nat) (x : α) (h next : Nat)
      (hp : s.producers[i]? = some (.wrote x h next)) :
      Step exclusive s { s with ring := { s.ring with head := next },
                                producers := s.producers.set i .idle,
                                pushed := s.pushed ++ [x] }
  | consumerLoadTail (s : State α) (hc : s.consumer = .idle) :
      Step exclusive s { s with consumer := .loadedTail s.ring.tail }
  | consumerLoadHead (s : State α) (t : Nat) (hc : s.consumer = .loadedTail t) :
      Step exclusive s { s with consumer := consumerCheck s.ring t }
  | consumerRead (s : State α) (t : Nat) (v : α) (hc : s.consumer = .checked t)
      (hr : s.ring.load? t = some v) :
      Step exclusive s { s with consumer := .read t v }
  | consumerStore (s : State α) (t : Nat) (v : α) (hc : s.consumer = .read t v) :
      Step exclusive s { s with ring := { s.ring with tail := sizeAdd t 1 &&& s.ring.mask },
                                consumer := .idle, popped := s.popped ++ [v] }

/-- States reachable from a fresh buffer with `n` producer threads. -/
inductive Reachable [Inhabited α] (c n : Nat) (exclusive : Bool) : State α → Prop where
  | init : Reachable c n exclusive (init c n)
  | step {s s' : State α} : Reachable c n exclusive s → Step exclusive s s' →
      Reachable c n exclusive s'

/-! ## Two producers lose a request -/

/-- Capacity 4, two producer threads pushing `1` and `2`: both load `head = 0` and
    `tail = 0`, both write slot 0, both store `head = 1` and return `true`; the consumer
    then pops `2` and finds the buffer empty. The request `1` was accepted and is gone. -/
theorem two_producers_lose_request :
    ¬ ∀ s : State Nat, Reachable 4 2 false s → s.ring.head = s.ring.tail →
      s.popped.Perm s.pushed := by
  intro hall
  have hs := ((((((((((((Reachable.init : Reachable 4 2 false (init 4 2 : State Nat)).step
    (.producerLoadHead _ 0 1 rfl nofun)).step
    (.producerLoadHead _ 1 2 rfl nofun)).step
    (.producerLoadTail _ 0 1 0 rfl)).step
    (.producerLoadTail _ 1 2 0 rfl)).step
    (.producerWrite _ 0 1 0 1 _ rfl rfl)).step
    (.producerWrite _ 1 2 0 1 _ rfl rfl)).step
    (.producerStore _ 0 1 0 1 rfl)).step
    (.producerStore _ 1 2 0 1 rfl)).step
    (.consumerLoadTail _ rfl)).step
    (.consumerLoadHead _ 0 rfl)).step
    (.consumerRead _ 0 2 rfl rfl)).step
    (.consumerStore _ 0 2 rfl)
  exact absurd (hall _ hs rfl) (by decide)

/-! ## Exclusive producers run the one-producer model -/

/-- The position of the busy producer: the first one that is not idle. -/
def active : List (ProducerPc α) → ProducerPc α
  | [] => .idle
  | .idle :: ps => active ps
  | p :: _ => p

/-- Every producer but thread `i` is idle. -/
def Others (ps : List (ProducerPc α)) (i : Nat) : Prop :=
  ∀ j p, j ≠ i → ps[j]? = some p → p = .idle

/-- The one-producer state standing for a state with at most one busy producer. -/
def toSpsc (s : State α) : Spsc.State α :=
  ⟨s.ring, active s.producers, s.consumer, s.pushed, s.popped⟩

theorem active_replicate (n : Nat) :
    active (List.replicate n (.idle : ProducerPc α)) = .idle := by
  induction n with
  | zero => rfl
  | succ n ih => exact ih

theorem active_of_others {ps : List (ProducerPc α)} {i : Nat} (h : Others ps i) :
    active ps = ps[i]?.getD .idle := by
  induction ps generalizing i with
  | nil => rfl
  | cons p ps ih =>
    cases i with
    | zero =>
      have hidle : active ps = .idle := by
        rw [ih (i := ps.length) fun j q _ hq =>
          h (j + 1) q (by omega) (by rwa [List.getElem?_cons_succ]),
          List.getElem?_eq_none le_rfl]
        rfl
      cases p <;> simp [active, hidle]
    | succ k =>
      obtain rfl : p = .idle := h 0 p (by omega) List.getElem?_cons_zero
      rw [active, List.getElem?_cons_succ]
      exact ih (i := k) fun j q hj hq => h (j + 1) q (by omega) (by rwa [List.getElem?_cons_succ])

theorem Others.set {ps : List (ProducerPc α)} {i : Nat} (h : Others ps i) (q : ProducerPc α) :
    Others (ps.set i q) i :=
  fun j p hj hp => h j p hj (by rwa [List.getElem?_set_ne (Ne.symm hj)] at hp)

theorem Others.active_set {ps : List (ProducerPc α)} {i : Nat} (h : Others ps i)
    (hi : i < ps.length) (q : ProducerPc α) : active (ps.set i q) = q := by
  rw [active_of_others (h.set q), List.getElem?_set_self hi]
  rfl

/-- A busy producer is the one that may be busy. -/
theorem Others.of_busy {ps : List (ProducerPc α)} {i₀ i : Nat} (h : Others ps i₀)
    {p : ProducerPc α} (hp : ps[i]? = some p) (hb : p ≠ .idle) : Others ps i := by
  by_cases hi : i = i₀
  · exact hi ▸ h
  · exact absurd (h i p hi hp) hb

/-- Under exclusive producers, each step of a state with at most one busy producer is a
    step of the one-producer model, and leaves at most one producer busy. -/
theorem step_toSpsc {s s' : State α} (ho : ∃ i, Others s.producers i) (h : Step true s s') :
    Spsc.Step (toSpsc s) (toSpsc s') ∧ ∃ i, Others s'.producers i := by
  obtain ⟨i₀, ho⟩ := ho
  cases h with
  | producerLoadHead i x hp hx =>
    have hall : Others s.producers i := fun j p _ hj => hx rfl p (List.getElem?_mem hj)
    have hlt := (List.getElem?_eq_some_iff.1 hp).1
    refine ⟨?_, i, hall.set _⟩
    simp only [toSpsc, hall.active_set hlt]
    exact .producerLoadHead _ x (by simp [toSpsc, active_of_others hall, hp])
  | producerLoadTail i x h hp =>
    have hi := ho.of_busy hp nofun
    refine ⟨?_, i, hi.set _⟩
    simp only [toSpsc, hi.active_set (List.getElem?_eq_some_iff.1 hp).1]
    exact .producerLoadTail _ x h (by simp [toSpsc, active_of_others hi, hp])
  | producerWrite i x h next r hp hw =>
    have hi := ho.of_busy hp nofun
    refine ⟨?_, i, hi.set _⟩
    simp only [toSpsc, hi.active_set (List.getElem?_eq_some_iff.1 hp).1]
    exact .producerWrite _ x h next r (by simp [toSpsc, active_of_others hi, hp]) hw
  | producerStore i x h next hp =>
    have hi := ho.of_busy hp nofun
    refine ⟨?_, i, hi.set _⟩
    simp only [toSpsc, hi.active_set (List.getElem?_eq_some_iff.1 hp).1]
    exact .producerStore _ x h next (by simp [toSpsc, active_of_others hi, hp])
  | consumerLoadTail hc => exact ⟨.consumerLoadTail _ hc, i₀, ho⟩
  | consumerLoadHead t hc => exact ⟨.consumerLoadHead _ t hc, i₀, ho⟩
  | consumerRead t v hc hr => exact ⟨.consumerRead _ t v hc hr, i₀, ho⟩
  | consumerStore t v hc => exact ⟨.consumerStore _ t v hc, i₀, ho⟩

theorem reachable_toSpsc [Inhabited α] {c n : Nat} {s : State α}
    (hs : Reachable c n true s) : Spsc.Reachable c (toSpsc s) ∧ ∃ i, Others s.producers i := by
  induction hs with
  | init =>
    refine ⟨?_, 0, fun j p _ hj => ?_⟩
    · simp only [toSpsc, init, active_replicate]
      exact .init
    · exact List.eq_of_mem_replicate (List.getElem?_mem hj)
  | step _ hst ih =>
    obtain ⟨hst', ho⟩ := step_toSpsc ih.2 hst
    exact ⟨ih.1.step hst', ho⟩

/-- For every capacity in `[2, 2^63]`, any number of producer threads that start a `push`
    only while every other producer is idle, and any interleaving with the consumer: the
    popped items are a prefix of the accepted ones, in order, none lost or duplicated, and
    when `head == tail` they are exactly the accepted ones. -/
theorem exclusive_producers_no_loss [Inhabited α] {c n : Nat} (h1 : 2 ≤ c)
    (h2 : c ≤ 2 ^ 63) {s : State α} (hs : Reachable c n true s) :
    s.popped <+: s.pushed ∧ (s.ring.head = s.ring.tail → s.popped = s.pushed) :=
  have hi := Spsc.inv_reachable h1 h2 (reachable_toSpsc hs).1
  ⟨hi.fifo, hi.drained⟩

/-- Capacity 4, two producer threads taking turns: thread `0` pushes `1` while the consumer
    starts a pop, then thread `1` pushes `2` while the consumer pops `1`, and the consumer
    pops `2`. Both requests come out, in order, and the buffer ends empty. -/
theorem exclusive_producers_no_loss_turns :
    ∃ s : State Nat, Reachable 4 2 true s ∧ s.pushed = [1, 2] ∧ s.ring.head = s.ring.tail ∧
      2 ≤ 4 ∧ 4 ≤ 2 ^ 63 ∧ s.popped <+: s.pushed ∧ s.popped = s.pushed := by
  have hs := ((((((((((((((((Reachable.init : Reachable 4 2 true (init 4 2 : State Nat)).step
    (.producerLoadHead _ 0 1 (by rfl) fun _ _ hp => by rcases hp with _ | ⟨_, _ | ⟨_, ⟨⟩⟩⟩ <;> rfl)).step
    (.producerLoadTail _ 0 1 0 (by rfl))).step
    (.producerWrite _ 0 1 0 1 _ (by rfl) (by rfl))).step
    (.consumerLoadTail _ (by rfl))).step
    (.producerStore _ 0 1 0 1 (by rfl))).step
    (.consumerLoadHead _ 0 (by rfl))).step
    (.producerLoadHead _ 1 2 (by rfl) fun _ _ hp => by rcases hp with _ | ⟨_, _ | ⟨_, ⟨⟩⟩⟩ <;> rfl)).step
    (.consumerRead _ 0 1 (by rfl) (by rfl))).step
    (.producerLoadTail _ 1 2 1 (by rfl))).step
    (.consumerStore _ 0 1 (by rfl))).step
    (.producerWrite _ 1 2 1 2 _ (by rfl) (by rfl))).step
    (.producerStore _ 1 2 1 2 (by rfl))).step
    (.consumerLoadTail _ (by rfl))).step
    (.consumerLoadHead _ 1 (by rfl))).step
    (.consumerRead _ 1 2 (by rfl) (by rfl))).step
    (.consumerStore _ 1 2 (by rfl))
  obtain ⟨hfifo, hdrained⟩ := exclusive_producers_no_loss (by decide) (by norm_num) hs
  exact ⟨_, hs, rfl, rfl, by decide, by norm_num, hfifo, hdrained rfl⟩

end Mpsc

end OmsCore
