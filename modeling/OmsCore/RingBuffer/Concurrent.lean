import OmsCore.RingBuffer.Invariant

/-! # One producer and one consumer, interleaved

    `push` and `pop` of `ring_buffer.h` cut into the steps the two threads take: each
    loads its own index, loads the other side's index and compares, then writes or reads
    the slot, and last stores its own index. The steps of the two threads interleave in
    any order (sequential consistency). Ghost lists record the items of the pushes and
    of the pops that returned `true`.

    The proof counts: with `P` pushes and `C` pops completed, `head = P mod N`,
    `tail = C mod N` and `C ≤ P < C + N`. A producer that passed its check has
    `P + 2 ≤ C + N` and only `C` can move until it stores; a consumer that passed its
    check has `C < P` and only `P` can move until it stores. So the producer's slot
    `P mod N` is never one of the live slots `k mod N`, `C ≤ k < P`, which hold the
    pushed items in order (`Inv`, `inv_step`, `spsc_safe`).
-/

namespace OmsCore

namespace Spsc

/-! ## State and steps -/

/-- Where the producer is inside `push(item)`. -/
inductive ProducerPc (α : Type) where
  | idle
  /-- `current_head` loaded. -/
  | loadedHead (item : α) (currentHead : Nat)
  /-- `tail` loaded and found different from `next_head`. -/
  | checked (item : α) (currentHead nextHead : Nat)
  /-- `buffer_[current_head] = item` done. -/
  | wrote (item : α) (currentHead nextHead : Nat)

/-- Where the consumer is inside `pop(item)`. -/
inductive ConsumerPc (α : Type) where
  | idle
  /-- `current_tail` loaded. -/
  | loadedTail (currentTail : Nat)
  /-- `head` loaded and found different from `current_tail`. -/
  | checked (currentTail : Nat)
  /-- `item = buffer_[current_tail]` done. -/
  | read (currentTail : Nat) (item : α)

/-- The slot the producer is about to write or has written but not yet published. -/
def ProducerPc.pendingSlot {α : Type} : ProducerPc α → Option Nat
  | .checked _ h _ => some h
  | .wrote _ h _ => some h
  | _ => none

/-- The slot the consumer is about to read. -/
def ConsumerPc.pendingSlot {α : Type} : ConsumerPc α → Option Nat
  | .checked t => some t
  | _ => none

/-- The shared buffer, both threads' positions, and the ghost history. -/
structure State (α : Type) where
  ring : RingBuffer α
  producer : ProducerPc α
  consumer : ConsumerPc α
  /-- Items of the pushes that returned `true`, in order. -/
  pushed : List α
  /-- Items of the pops that returned `true`, in order. -/
  popped : List α

variable {α : Type}

def init [Inhabited α] (c : Nat) : State α :=
  ⟨RingBuffer.new c, .idle, .idle, [], []⟩

/-- The producer's `tail` load and comparison: `push` returns `false` when the buffer is
    full, and goes on to write the slot otherwise. -/
def producerCheck (r : RingBuffer α) (x : α) (currentHead : Nat) : ProducerPc α :=
  let nextHead := sizeAdd currentHead 1 &&& r.mask
  if nextHead = r.tail then .idle else .checked x currentHead nextHead

/-- The consumer's `head` load and comparison: `pop` returns `false` when empty. -/
def consumerCheck (r : RingBuffer α) (currentTail : Nat) : ConsumerPc α :=
  if currentTail = r.head then .idle else .checked currentTail

/-- One step of either thread. -/
inductive Step : State α → State α → Prop where
  | producerLoadHead (s : State α) (x : α) (hp : s.producer = .idle) :
      Step s { s with producer := .loadedHead x s.ring.head }
  | producerLoadTail (s : State α) (x : α) (h : Nat) (hp : s.producer = .loadedHead x h) :
      Step s { s with producer := producerCheck s.ring x h }
  | producerWrite (s : State α) (x : α) (h next : Nat) (r : RingBuffer α)
      (hp : s.producer = .checked x h next) (hw : s.ring.store? h x = some r) :
      Step s { s with ring := r, producer := .wrote x h next }
  | producerStore (s : State α) (x : α) (h next : Nat) (hp : s.producer = .wrote x h next) :
      Step s { s with ring := { s.ring with head := next }, producer := .idle,
                      pushed := s.pushed ++ [x] }
  | consumerLoadTail (s : State α) (hc : s.consumer = .idle) :
      Step s { s with consumer := .loadedTail s.ring.tail }
  | consumerLoadHead (s : State α) (t : Nat) (hc : s.consumer = .loadedTail t) :
      Step s { s with consumer := consumerCheck s.ring t }
  | consumerRead (s : State α) (t : Nat) (v : α) (hc : s.consumer = .checked t)
      (hr : s.ring.load? t = some v) :
      Step s { s with consumer := .read t v }
  | consumerStore (s : State α) (t : Nat) (v : α) (hc : s.consumer = .read t v) :
      Step s { s with ring := { s.ring with tail := sizeAdd t 1 &&& s.ring.mask },
                      consumer := .idle, popped := s.popped ++ [v] }

/-- States reachable from a fresh `RingBuffer<T>(c)` by any interleaving. -/
inductive Reachable [Inhabited α] (c : Nat) : State α → Prop where
  | init : Reachable c (init c)
  | step {s s' : State α} : Reachable c s → Step s s' → Reachable c s'

/-! ## The invariant -/

/-- Two counts less than `n` apart fall on different slots. -/
theorem mod_ne_of_lt {a b n : Nat} (hab : a < b) (hba : b < a + n) : a % n ≠ b % n := by
  intro h
  have := Nat.sub_mod_eq_zero_of_mod_eq h.symm
  rw [Nat.mod_eq_of_lt (by omega)] at this
  omega

theorem prefix_append_of_getElem? {l₁ l₂ : List α} {v : α} (h : l₁ <+: l₂)
    (hv : l₂[l₁.length]? = some v) : l₁ ++ [v] <+: l₂ := by
  obtain ⟨t, rfl⟩ := h
  cases t with
  | nil => rw [List.append_nil, List.getElem?_eq_none le_rfl] at hv; cases hv
  | cons w t =>
    simp only [List.getElem?_append_right le_rfl, Nat.sub_self, List.getElem?_cons_zero,
      Option.some.injEq] at hv
    exact ⟨t, by simp [hv]⟩

/-- The producer's local copies, given `C` pops and `P` pushes completed. -/
def ProducerOk (pc : ProducerPc α) (buf : Nat → α) (cap C P : Nat) : Prop :=
  match pc with
  | .idle => True
  | .loadedHead _ h => h = P % cap
  | .checked _ h next => h = P % cap ∧ next = (P + 1) % cap ∧ P + 2 ≤ C + cap
  | .wrote x h next => h = P % cap ∧ next = (P + 1) % cap ∧ P + 2 ≤ C + cap ∧ buf h = x

/-- The consumer's local copies, given `C` pops completed and the items pushed. -/
def ConsumerOk (pc : ConsumerPc α) (pushed : List α) (cap C : Nat) : Prop :=
  match pc with
  | .idle => True
  | .loadedTail t => t = C % cap
  | .checked t => t = C % cap ∧ C < pushed.length
  | .read t v => t = C % cap ∧ pushed[C]? = some v

/-- Pops completing in the meantime never hurt the producer. -/
theorem ProducerOk.mono {pc : ProducerPc α} {buf : Nat → α} {cap C C' P : Nat}
    (h : ProducerOk pc buf cap C P) (hC : C ≤ C') : ProducerOk pc buf cap C' P := by
  cases pc with
  | idle => trivial
  | loadedHead => exact h
  | checked => exact ⟨h.1, h.2.1, by have := h.2.2; omega⟩
  | wrote => exact ⟨h.1, h.2.1, by have := h.2.2.1; omega, h.2.2.2⟩

/-- Pushes completing in the meantime never hurt the consumer. -/
theorem ConsumerOk.append {pc : ConsumerPc α} {pushed : List α} {cap C : Nat}
    (h : ConsumerOk pc pushed cap C) (x : α) : ConsumerOk pc (pushed ++ [x]) cap C := by
  cases pc with
  | checked t => exact ⟨h.1, by simp; have := h.2; omega⟩
  | read t v =>
    have hv : pushed[C]? = some v := h.2
    have hC : C < pushed.length := by
      by_contra hn; rw [List.getElem?_eq_none (by omega)] at hv; cases hv
    exact ⟨h.1, by rw [List.getElem?_append_left hC]; exact hv⟩
  | _ => exact h

/-- The invariant of every interleaving. -/
structure Inv (s : State α) : Prop where
  ring : s.ring.Inv
  head_eq : s.ring.head = s.pushed.length % s.ring.capacity
  tail_eq : s.ring.tail = s.popped.length % s.ring.capacity
  fifo : s.popped <+: s.pushed
  room : s.pushed.length < s.popped.length + s.ring.capacity
  slots : ∀ k, s.popped.length ≤ k → k < s.pushed.length →
    s.pushed[k]? = some (s.ring.buffer (k % s.ring.capacity))
  producer : ProducerOk s.producer s.ring.buffer s.ring.capacity s.popped.length
    s.pushed.length
  consumer : ConsumerOk s.consumer s.pushed s.ring.capacity s.popped.length

theorem Inv.popped_le {s : State α} (h : Inv s) : s.popped.length ≤ s.pushed.length :=
  h.fifo.length_le

/-- With `head == tail` every pushed item has been popped. -/
theorem Inv.drained {s : State α} (h : Inv s) (he : s.ring.head = s.ring.tail) :
    s.popped = s.pushed := by
  refine h.fifo.eq_of_length_le (Nat.not_lt.1 fun hlt => ?_)
  have := h.room
  exact mod_ne_of_lt (n := s.ring.capacity) hlt (by omega) (by rw [← h.tail_eq, ← h.head_eq, he])

theorem inv_init [Inhabited α] {c : Nat} (h1 : 2 ≤ c) (h2 : c ≤ 2 ^ 63) :
    Inv (init c : State α) := by
  have hr := RingBuffer.new_inv (α := α) h1 h2
  have := hr.two_le
  exact ⟨hr, rfl, rfl, List.nil_prefix, by show 0 < 0 + (RingBuffer.new c : RingBuffer α).capacity; omega,
    fun _ _ h => absurd h (Nat.not_lt_zero _), trivial, trivial⟩

/-! ## One lemma per step -/

section steps

variable {s : State α} (hi : Inv s)
include hi

theorem inv_producerLoadHead (x : α) : Inv { s with producer := .loadedHead x s.ring.head } :=
  { hi with producer := hi.head_eq }

theorem inv_producerLoadTail {x : α} {h : Nat} (hp : s.producer = .loadedHead x h) :
    Inv { s with producer := producerCheck s.ring x h } := by
  have hh : h = s.pushed.length % s.ring.capacity := by
    have := hi.producer; rw [hp] at this; exact this
  subst hh
  refine { hi with producer := ?_ }
  show ProducerOk (producerCheck s.ring x _) _ _ _ _
  unfold producerCheck
  simp only [hi.ring.sizeAdd_mask, Nat.mod_add_mod]
  split_ifs with hfull
  · trivial
  · refine ⟨rfl, rfl, ?_⟩
    have := hi.room
    by_contra hlt
    exact hfull (by rw [show s.pushed.length + 1 = s.popped.length + s.ring.capacity by omega,
      Nat.add_mod_right, hi.tail_eq])

theorem inv_producerWrite {x : α} {h next : Nat} {r : RingBuffer α}
    (hp : s.producer = .checked x h next) (hw : s.ring.store? h x = some r) :
    Inv { s with ring := r, producer := .wrote x h next } := by
  obtain ⟨hh, hn, hroom⟩ : h = s.pushed.length % s.ring.capacity ∧
      next = (s.pushed.length + 1) % s.ring.capacity ∧
      s.pushed.length + 2 ≤ s.popped.length + s.ring.capacity := by
    have := hi.producer; rw [hp] at this; exact this
  simp only [RingBuffer.store?] at hw
  split_ifs at hw
  cases hw
  refine ⟨⟨hi.ring.pow, hi.ring.mask_eq, hi.ring.head_lt, hi.ring.tail_lt⟩, hi.head_eq,
    hi.tail_eq, hi.fifo, hi.room, ?_, ⟨hh, hn, hroom, Function.update_same _ _ _⟩, hi.consumer⟩
  intro k (hk1 : s.popped.length ≤ k) (hk2 : k < s.pushed.length)
  rw [hi.slots k hk1 hk2]
  exact congrArg some
    (Function.update_noteq (by rw [hh]; exact mod_ne_of_lt hk2 (by omega)) _ _).symm

theorem inv_producerStore {x : α} {h next : Nat} (hp : s.producer = .wrote x h next) :
    Inv { s with ring := { s.ring with head := next }, producer := .idle,
                 pushed := s.pushed ++ [x] } := by
  obtain ⟨hh, hn, hroom, hbuf⟩ : h = s.pushed.length % s.ring.capacity ∧
      next = (s.pushed.length + 1) % s.ring.capacity ∧
      s.pushed.length + 2 ≤ s.popped.length + s.ring.capacity ∧ s.ring.buffer h = x := by
    have := hi.producer; rw [hp] at this; exact this
  have hcap := hi.ring.two_le
  refine ⟨⟨hi.ring.pow, hi.ring.mask_eq, by rw [hn]; exact Nat.mod_lt _ (by omega),
    hi.ring.tail_lt⟩, by simp [hn], hi.tail_eq, hi.fifo.trans (List.prefix_append _ _),
    by simp; omega, ?_, trivial, hi.consumer.append x⟩
  intro k hk1 hk2
  simp only [List.length_append, List.length_singleton] at hk2
  rcases Nat.lt_or_eq_of_le (Nat.le_of_lt_succ hk2) with hk | rfl
  · rw [List.getElem?_append_left hk]; exact hi.slots k hk1 hk
  · simp [← hh, hbuf]

theorem inv_consumerLoadTail : Inv { s with consumer := .loadedTail s.ring.tail } :=
  { hi with consumer := hi.tail_eq }

theorem inv_consumerLoadHead {t : Nat} (hc : s.consumer = .loadedTail t) :
    Inv { s with consumer := consumerCheck s.ring t } := by
  have ht : t = s.popped.length % s.ring.capacity := by
    have := hi.consumer; rw [hc] at this; exact this
  refine { hi with consumer := ?_ }
  show ConsumerOk (consumerCheck s.ring t) s.pushed s.ring.capacity s.popped.length
  unfold consumerCheck
  split_ifs with he
  · trivial
  · refine ⟨ht, ?_⟩
    have := hi.popped_le
    by_contra hn
    exact he (by rw [ht, hi.head_eq, show s.popped.length = s.pushed.length by omega])

theorem inv_consumerRead {t : Nat} {v : α} (hc : s.consumer = .checked t)
    (hr : s.ring.load? t = some v) : Inv { s with consumer := .read t v } := by
  obtain ⟨ht, hlt⟩ : t = s.popped.length % s.ring.capacity ∧
      s.popped.length < s.pushed.length := by
    have := hi.consumer; rw [hc] at this; exact this
  simp only [RingBuffer.load?] at hr
  split_ifs at hr
  cases hr
  exact { hi with consumer := ⟨ht, by rw [hi.slots _ le_rfl hlt, ht]⟩ }

theorem inv_consumerStore {t : Nat} {v : α} (hc : s.consumer = .read t v) :
    Inv { s with ring := { s.ring with tail := sizeAdd t 1 &&& s.ring.mask },
                 consumer := .idle, popped := s.popped ++ [v] } := by
  obtain ⟨ht, hv⟩ : t = s.popped.length % s.ring.capacity ∧
      s.pushed[s.popped.length]? = some v := by
    have := hi.consumer; rw [hc] at this; exact this
  have hnew : sizeAdd t 1 &&& s.ring.mask = (s.popped.length + 1) % s.ring.capacity := by
    rw [hi.ring.sizeAdd_mask, ht, Nat.mod_add_mod]
  have hcap := hi.ring.two_le
  refine ⟨⟨hi.ring.pow, hi.ring.mask_eq, hi.ring.head_lt,
    by rw [hnew]; exact Nat.mod_lt _ (by omega)⟩, hi.head_eq, by simp [hnew],
    prefix_append_of_getElem? hi.fifo hv,
    by simp; have := hi.room; omega, ?_, hi.producer.mono (by simp), trivial⟩
  intro k hk1 hk2
  simp only [List.length_append, List.length_singleton] at hk1
  exact hi.slots k (by omega) hk2

end steps

theorem inv_step {s s' : State α} (hi : Inv s) (h : Step s s') : Inv s' := by
  cases h with
  | producerLoadHead x _ => exact inv_producerLoadHead hi x
  | producerLoadTail _ _ hp => exact inv_producerLoadTail hi hp
  | producerWrite _ _ _ _ hp hw => exact inv_producerWrite hi hp hw
  | producerStore _ _ _ hp => exact inv_producerStore hi hp
  | consumerLoadTail _ => exact inv_consumerLoadTail hi
  | consumerLoadHead _ hc => exact inv_consumerLoadHead hi hc
  | consumerRead _ _ hc hr => exact inv_consumerRead hi hc hr
  | consumerStore _ _ hc => exact inv_consumerStore hi hc

theorem inv_reachable [Inhabited α] {c : Nat} (h1 : 2 ≤ c) (h2 : c ≤ 2 ^ 63) {s : State α}
    (hs : Reachable c s) : Inv s := by
  induction hs with
  | init => exact inv_init h1 h2
  | step _ hst ih => exact inv_step ih hst

/-! ## What every interleaving guarantees -/

/-- The guarantees in one state: the pops so far returned a prefix of the pushed items; a
    consumer about to read a slot finds there, inside the allocation, the next item pushed,
    and the slot is not one the producer is writing or has yet to publish; a producer
    about to write a slot writes inside the allocation, on no slot whose item is not yet
    popped, and not on the slot the consumer is about to read. -/
structure Safe (s : State α) : Prop where
  fifo : s.popped <+: s.pushed
  read_written : ∀ t, s.consumer = .checked t →
    t < s.ring.capacity ∧ s.pushed[s.popped.length]? = some (s.ring.buffer t) ∧
      s.producer.pendingSlot ≠ some t
  write_free : ∀ x h next, s.producer = .checked x h next →
    h < s.ring.capacity ∧
      (∀ k, s.popped.length ≤ k → k < s.pushed.length → h ≠ k % s.ring.capacity) ∧
      s.consumer.pendingSlot ≠ some h

theorem Inv.safe {s : State α} (hi : Inv s) : Safe s := by
  have hcap := hi.ring.two_le
  refine ⟨hi.fifo, fun t hc => ?_, fun x h next hp => ?_⟩
  · obtain ⟨ht, hlt⟩ : t = s.popped.length % s.ring.capacity ∧
        s.popped.length < s.pushed.length := by
      have := hi.consumer; rw [hc] at this; exact this
    refine ⟨ht ▸ Nat.mod_lt _ (by omega), by rw [hi.slots _ le_rfl hlt, ht], ?_⟩
    have hp := hi.producer
    cases hpc : s.producer with
    | checked x h next =>
      rw [hpc] at hp
      simp only [ProducerPc.pendingSlot, ne_eq, Option.some.injEq, hp.1, ht]
      exact (mod_ne_of_lt hlt (by have := hp.2.2; omega)).symm
    | wrote x h next =>
      rw [hpc] at hp
      simp only [ProducerPc.pendingSlot, ne_eq, Option.some.injEq, hp.1, ht]
      exact (mod_ne_of_lt hlt (by have := hp.2.2.1; omega)).symm
    | _ => simp [ProducerPc.pendingSlot]
  · obtain ⟨hh, -, hroom⟩ : h = s.pushed.length % s.ring.capacity ∧
        next = (s.pushed.length + 1) % s.ring.capacity ∧
        s.pushed.length + 2 ≤ s.popped.length + s.ring.capacity := by
      have := hi.producer; rw [hp] at this; exact this
    refine ⟨hh ▸ Nat.mod_lt _ (by omega),
      fun k hk1 hk2 => hh ▸ (mod_ne_of_lt hk2 (by omega)).symm, ?_⟩
    have hc := hi.consumer
    cases hcc : s.consumer with
    | checked t =>
      rw [hcc] at hc
      simp only [ConsumerPc.pendingSlot, ne_eq, Option.some.injEq, hc.1, hh]
      exact mod_ne_of_lt hc.2 (by omega)
    | _ => simp [ConsumerPc.pendingSlot]

/-- For every requested capacity in `[2, 2^63]` and every interleaving of the steps of one
    producer calling `push` and one consumer calling `pop`, the items returned by the
    successful pops are a prefix of the items of the successful pushes, in order; the
    consumer only reads slots the producer has finished writing and published, and the
    producer never overwrites an item the consumer has not read. -/
theorem spsc_safe [Inhabited α] {c : Nat} (h1 : 2 ≤ c) (h2 : c ≤ 2 ^ 63) {s : State α}
    (hs : Reachable c s) : Safe s :=
  (inv_reachable h1 h2 hs).safe

/-- Capacity 4: the producer pushes `1`; then, while the consumer has passed its check for
    slot `0`, the producer passes its check for slot `1` with `2`. Both are about to touch a
    slot, and they are different ones. -/
theorem spsc_safe_overlap :
    ∃ s : State Nat, Reachable 4 s ∧ s.consumer = .checked 0 ∧ s.producer = .checked 2 1 2 ∧
      2 ≤ 4 ∧ 4 ≤ 2 ^ 63 ∧ Safe s := by
  have hs := (((((((((Reachable.init : Reachable 4 (init 4 : State Nat)).step
    (.producerLoadHead _ 1 rfl)).step
    (.producerLoadTail _ 1 0 rfl)).step
    (.producerWrite _ 1 0 1 _ (by rfl) (by rfl))).step
    (.producerStore _ 1 0 1 rfl)).step
    (.consumerLoadTail _ rfl)).step
    (.producerLoadHead _ 2 rfl)).step
    (.consumerLoadHead _ 0 rfl)).step
    (.producerLoadTail _ 2 1 rfl))
  exact ⟨_, hs, rfl, rfl, by decide, by norm_num, spsc_safe (by decide) (by norm_num) hs⟩

end Spsc

end OmsCore
