import OmsCore.RingBuffer.Invariant

/-! # The ring buffer refines a bounded FIFO queue

    What a `RingBuffer<T>` is for: a FIFO queue holding at most `capacity() - 1` items.
    `BoundedQueue` states that purpose directly, and `Refines` relates a buffer to the
    queue it stands for (the invariant, the bound, and `toList = items`). Each call keeps
    the relation and gives the same reply on both sides (`call_refines`), so every finite
    sequence of calls on a freshly built buffer answers exactly as the queue does
    (`ringBuffer_refines_queue`).
-/

namespace OmsCore

/-! ## The abstract queue -/

/-- A FIFO queue of at most `bound` items. -/
structure BoundedQueue (α : Type) where
  bound : Nat
  items : List α
  length_le : items.length ≤ bound

namespace BoundedQueue

variable {α : Type}

def empty (bound : Nat) : BoundedQueue α := ⟨bound, [], Nat.zero_le _⟩

/-- Enqueue when there is room; report whether it was done. -/
def push (q : BoundedQueue α) (x : α) : Bool × BoundedQueue α :=
  if h : q.items.length < q.bound then
    (true, ⟨q.bound, q.items ++ [x], by simpa using h⟩)
  else (false, q)

/-- Dequeue the oldest item, if any. -/
def pop (q : BoundedQueue α) : Option α × BoundedQueue α :=
  (q.items.head?, ⟨q.bound, q.items.tail, by rw [List.length_tail]; have := q.length_le; omega⟩)

@[simp] theorem push_fst (q : BoundedQueue α) (x : α) :
    (q.push x).1 = decide (q.items.length < q.bound) := by
  unfold push; split_ifs with h <;> simp [h]

@[simp] theorem push_bound (q : BoundedQueue α) (x : α) : (q.push x).2.bound = q.bound := by
  unfold push; split_ifs <;> rfl

@[simp] theorem push_items (q : BoundedQueue α) (x : α) :
    (q.push x).2.items = if q.items.length < q.bound then q.items ++ [x] else q.items := by
  unfold push; split_ifs <;> rfl

end BoundedQueue

/-! ## Calls and replies -/

/-- A call on the queue interface of `RingBuffer<T>`. -/
inductive Call (α : Type) where
  | push (item : α)
  | pop
  | size
  | empty

/-- The reply to a `Call`; `pop` returns the item it wrote through its reference. -/
inductive Reply (α : Type) where
  | push (ok : Bool)
  | pop (item : Option α)
  | size (n : Nat)
  | empty (yes : Bool)
  deriving DecidableEq

namespace RingBuffer

variable {α : Type}

/-- One call on the buffer; `none` is undefined behaviour. -/
def call (r : RingBuffer α) : Call α → Option (Reply α × RingBuffer α)
  | .push x => (r.push x).map fun (ok, r) => (.push ok, r)
  | .pop => r.pop.map fun (item, r) => (.pop item, r)
  | .size => some (.size r.size, r)
  | .empty => some (.empty r.empty, r)

/-- A sequence of calls made one at a time. -/
def run (r : RingBuffer α) : List (Call α) → Option (List (Reply α) × RingBuffer α)
  | [] => some ([], r)
  | c :: cs => (r.call c).bind fun (o, r) => (r.run cs).map fun (os, r) => (o :: os, r)

end RingBuffer

namespace BoundedQueue

variable {α : Type}

def call (q : BoundedQueue α) : Call α → Reply α × BoundedQueue α
  | .push x => (.push (q.push x).1, (q.push x).2)
  | .pop => (.pop q.pop.1, q.pop.2)
  | .size => (.size q.items.length, q)
  | .empty => (.empty q.items.isEmpty, q)

def run (q : BoundedQueue α) : List (Call α) → List (Reply α) × BoundedQueue α
  | [] => ([], q)
  | c :: cs => ((q.call c).1 :: ((q.call c).2.run cs).1, ((q.call c).2.run cs).2)

end BoundedQueue

/-! ## The refinement -/

namespace RingBuffer

variable {α : Type}

/-- The buffer `r` stands for the queue `q`. -/
structure Refines (r : RingBuffer α) (q : BoundedQueue α) : Prop where
  inv : r.Inv
  bound_eq : q.bound = r.capacity - 1
  items_eq : r.toList = q.items

/-- Each call keeps the relation and answers as the queue does. -/
theorem call_refines {r : RingBuffer α} {q : BoundedQueue α} (h : Refines r q) (c : Call α) :
    ∃ r', r.call c = some ((q.call c).1, r') ∧ Refines r' (q.call c).2 := by
  cases c with
  | push x =>
    obtain ⟨r', hp, hi, hc, hl⟩ := push_spec h.inv x
    rw [h.items_eq, ← h.bound_eq] at hp hl
    exact ⟨r', by simp [call, hp, BoundedQueue.call],
      ⟨hi, by simp [BoundedQueue.call, hc, h.bound_eq], by simp [BoundedQueue.call, hl]⟩⟩
  | pop =>
    obtain ⟨r', hp, hi, hc, hl⟩ := pop_spec h.inv
    exact ⟨r', by simp [call, hp, BoundedQueue.call, BoundedQueue.pop, h.items_eq],
      hi, by rw [hc]; exact h.bound_eq, by rw [hl, h.items_eq]; rfl⟩
  | size => exact ⟨r, by simp [call, BoundedQueue.call, size_eq_length, h.items_eq], h⟩
  | empty =>
    exact ⟨r, by simp [call, BoundedQueue.call, empty_eq_isEmpty h.inv, h.items_eq], h⟩

/-- A whole sequence of calls answers as the queue does. -/
theorem run_refines {r : RingBuffer α} {q : BoundedQueue α} (h : Refines r q)
    (calls : List (Call α)) :
    ∃ r', r.run calls = some ((q.run calls).1, r') ∧ Refines r' (q.run calls).2 := by
  induction calls generalizing r q with
  | nil => exact ⟨r, rfl, h⟩
  | cons c cs ih =>
    obtain ⟨r₁, h₁, hr₁⟩ := call_refines h c
    obtain ⟨r₂, h₂, hr₂⟩ := ih hr₁
    exact ⟨r₂, by simp [run, BoundedQueue.run, h₁, h₂], hr₂⟩

theorem new_refines [Inhabited α] {c : Nat} (h1 : 2 ≤ c) (h2 : c ≤ 2 ^ 63) :
    Refines (new c : RingBuffer α) (BoundedQueue.empty (nextPowerOfTwo c - 1)) :=
  ⟨new_inv h1 h2, rfl, toList_new c⟩

/-- For every requested capacity `c` in `[2, 2^63]` and every sequence of `push`, `pop`,
    `size` and `empty` calls, a fresh `RingBuffer<T>(c)` has as capacity the least power
    of two `N ≥ c`, gives the replies of a FIFO queue bounded by `N - 1`, and ends in a
    state whose live slots are that queue's items. -/
theorem ringBuffer_refines_queue [Inhabited α] {c : Nat} (h1 : 2 ≤ c) (h2 : c ≤ 2 ^ 63)
    (calls : List (Call α)) :
    IsLeastPowerOfTwo c (new c : RingBuffer α).capacity ∧
      ∃ r, (new c : RingBuffer α).run calls =
          some (((BoundedQueue.empty (nextPowerOfTwo c - 1)).run calls).1, r) ∧
        Refines r ((BoundedQueue.empty (nextPowerOfTwo c - 1)).run calls).2 :=
  ⟨nextPowerOfTwo_isLeast (by omega) h2, run_refines (new_refines h1 h2) calls⟩

theorem ringBuffer_refines_queue_four :
    2 ≤ 4 ∧ 4 ≤ 2 ^ 63 ∧
      (IsLeastPowerOfTwo 4 (new 4 : RingBuffer Nat).capacity ∧
        ∃ r, (new 4 : RingBuffer Nat).run [.push 1, .push 2, .push 3, .pop, .pop, .push 4] =
            some (((BoundedQueue.empty (nextPowerOfTwo 4 - 1)).run
              [.push 1, .push 2, .push 3, .pop, .pop, .push 4]).1, r) ∧
          Refines r ((BoundedQueue.empty (nextPowerOfTwo 4 - 1)).run
            [.push 1, .push 2, .push 3, .pop, .pop, .push 4]).2) :=
  ⟨by decide, by norm_num, ringBuffer_refines_queue (by decide) (by norm_num) _⟩

end RingBuffer

end OmsCore
