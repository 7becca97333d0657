import OmsCore.Types
import Mathlib.Data.Nat.Size
import Mathlib.Tactic.NormNum

/-! # The SPSC ring buffer

    `RingBuffer<T>` of `ring_buffer.h`. The constructor rounds the requested capacity up
    with `next_power_of_two`, allocates that many slots and keeps `mask_ = capacity_ - 1`.
    `push` and `pop` advance `head` and `tail` modulo the capacity through the mask, and
    one slot always stays free, so a buffer of capacity `N` holds at most `N - 1` items.

    An access to `buffer_` outside the allocation is undefined behaviour; `push` and `pop`
    return `none` there. The invariant `Inv` (capacity a power of two in `[2, 2^63]`,
    `head` and `tail` inside it) rules that out, and the queue the buffer stands for is
    `toList`, the live slots read from `tail` onwards.
-/

namespace OmsCore

/-! ## `next_power_of_two` -/

/-- `RingBuffer::next_power_of_two`: smear the highest set bit of `n - 1` into every lower
    bit, then add one, all on a 64-bit `size_t`. -/
def nextPowerOfTwo (n : Nat) : Nat :=
  let n := sizeSub n 1
  let n := n ||| (n >>> 1)
  let n := n ||| (n >>> 2)
  let n := n ||| (n >>> 4)
  let n := n ||| (n >>> 8)
  let n := n ||| (n >>> 16)
  let n := n ||| (n >>> 32)
  sizeAdd n 1

/-- `N` is the least power of two at least `c`. -/
def IsLeastPowerOfTwo (c N : Nat) : Prop :=
  (∃ k, N = 2 ^ k) ∧ c ≤ N ∧ ∀ k, c ≤ 2 ^ k → N ≤ 2 ^ k

/-- Bit `i` of `r` is set iff one of the bits `i .. i + w - 1` of `m` is: the bits of `m`
    smeared downwards over a window of width `w`. -/
def Smeared (m r w : Nat) : Prop :=
  ∀ i, r.testBit i = true ↔ ∃ j, i ≤ j ∧ j < i + w ∧ m.testBit j = true

theorem smeared_self (m : Nat) : Smeared m m 1 := by
  intro i
  constructor
  · exact fun h => ⟨i, le_rfl, by omega, h⟩
  · rintro ⟨j, h1, h2, h⟩
    rwa [show i = j by omega]

/-- One line `n |= n >> w` of the smear doubles the window. -/
theorem smeared_step {m r w w' : Nat} (h : Smeared m r w) (hw : 2 * w = w') :
    Smeared m (r ||| r >>> w) w' := by
  intro i
  rw [Nat.testBit_or, Bool.or_eq_true, Nat.testBit_shiftRight, h i, h (w + i)]
  constructor
  · rintro (⟨j, h1, h2, hj⟩ | ⟨j, h1, h2, hj⟩) <;> exact ⟨j, by omega, by omega, hj⟩
  · rintro ⟨j, h1, h2, hj⟩
    by_cases hlt : j < i + w
    · exact .inl ⟨j, h1, hlt, hj⟩
    · exact .inr ⟨j, by omega, by omega, hj⟩

/-- A value below `2^64` smeared over 64 bits is all ones up to its top bit. -/
theorem smeared_eq {m r : Nat} (hm : m < 2 ^ 64) (h : Smeared m r 64) :
    r = 2 ^ m.size - 1 := by
  have hsize : m.size ≤ 64 := Nat.size_le.2 hm
  apply Nat.eq_of_testBit_eq
  intro i
  rw [Nat.testBit_two_pow_sub_one]
  by_cases hi : i < m.size
  · obtain ⟨j, hij, hj⟩ : ∃ j, i ≤ j ∧ m.testBit j = true := by
      by_contra hne
      push_neg at hne
      have := Nat.lt_pow_two_of_testBit m fun j hj => by simpa using hne j hj
      exact absurd (Nat.lt_size.1 hi) (by omega)
    have hjs : j < m.size := Nat.lt_size.2 (Nat.testBit_implies_ge hj)
    simpa [hi] using (h i).2 ⟨j, hij, by omega, hj⟩
  · have hr : r.testBit i = false := by
      by_contra hne
      obtain ⟨j, hij, -, hj⟩ := (h i).1 (by simpa using hne)
      have hlt : m < 2 ^ j :=
        (Nat.lt_size_self m).trans_le (Nat.pow_le_pow_right (by norm_num) (by omega))
      simp [Nat.testBit_lt_two_pow hlt] at hj
    simp [hi, hr]

/-- The smear leaves the ones below the top bit of `n - 1`: `next_power_of_two` adds one to
    `2^size(n - 1) - 1`, on a 64-bit `size_t`. -/
theorem nextPowerOfTwo_eq_sizeAdd {n : Nat} (h1 : 1 ≤ n) (h2 : n ≤ 2 ^ 64) :
    nextPowerOfTwo n = sizeAdd (2 ^ (n - 1).size - 1) 1 := by
  have hsub : sizeSub n 1 = n - 1 := by
    have hw : wordSize = 2 ^ 64 := rfl
    rw [sizeSub, show n + wordSize - 1 = n - 1 + wordSize by omega, Nat.add_mod_right,
      Nat.mod_eq_of_lt (by omega)]
  have s1 := smeared_step (smeared_self (n - 1)) (rfl : 2 * 1 = 2)
  have s2 := smeared_step s1 (rfl : 2 * 2 = 4)
  have s3 := smeared_step s2 (rfl : 2 * 4 = 8)
  have s4 := smeared_step s3 (rfl : 2 * 8 = 16)
  have s5 := smeared_step s4 (rfl : 2 * 16 = 32)
  have hs := smeared_step s5 (rfl : 2 * 32 = 64)
  unfold nextPowerOfTwo
  simp only [hsub]
  rw [smeared_eq (by omega) hs]

theorem nextPowerOfTwo_eq {n : Nat} (h1 : 1 ≤ n) (h2 : n ≤ 2 ^ 63) :
    nextPowerOfTwo n = 2 ^ (n - 1).size := by
  have hsize : (n - 1).size ≤ 63 := Nat.size_le.2 (by omega)
  have hpos : 0 < 2 ^ (n - 1).size := Nat.pos_pow_of_pos _ (by norm_num)
  have hlt : 2 ^ (n - 1).size < wordSize :=
    (Nat.pow_le_pow_right (by norm_num) hsize).trans_lt (by norm_num [wordSize])
  rw [nextPowerOfTwo_eq_sizeAdd h1 (by omega), sizeAdd, Nat.sub_add_cancel hpos,
    Nat.mod_eq_of_lt hlt]

/-- Above `2^63` the least power of two is `2^64`, which `size_t` wraps to `0`. -/
theorem nextPowerOfTwo_eq_zero {n : Nat} (h1 : 2 ^ 63 < n) (h2 : n ≤ 2 ^ 64) :
    nextPowerOfTwo n = 0 := by
  have hsize : (n - 1).size = 64 :=
    le_antisymm (Nat.size_le.2 (by omega)) (Nat.lt_size.2 (by omega))
  rw [nextPowerOfTwo_eq_sizeAdd (by omega) h2, hsize]
  rfl

/-- For a request in `[1, 2^63]`, `next_power_of_two` is the least power of two above it. -/
theorem nextPowerOfTwo_isLeast {n : Nat} (h1 : 1 ≤ n) (h2 : n ≤ 2 ^ 63) :
    IsLeastPowerOfTwo n (nextPowerOfTwo n) := by
  rw [nextPowerOfTwo_eq h1 h2]
  refine ⟨⟨_, rfl⟩, by have := Nat.lt_size_self (n - 1); omega, fun k hk => ?_⟩
  exact Nat.pow_le_pow_right (by norm_num) (Nat.size_le.2 (by omega))

theorem nextPowerOfTwo_bounds {n : Nat} (h1 : 2 ≤ n) (h2 : n ≤ 2 ^ 63) :
    ∃ k, 1 ≤ k ∧ k ≤ 63 ∧ nextPowerOfTwo n = 2 ^ k := by
  refine ⟨(n - 1).size, Nat.size_pos.2 (by omega), Nat.size_le.2 (by omega), ?_⟩
  exact nextPowerOfTwo_eq (by omega) h2

/-! ## The buffer -/

/-- `RingBuffer<T>`: the producer's `head`, the consumer's `tail`, the slots `buffer_`
    (meaningful below `capacity`, the length of the allocation) and `mask_`. -/
structure RingBuffer (α : Type) where
  head : Nat
  tail : Nat
  buffer : Nat → α
  capacity : Nat
  mask : Nat

namespace RingBuffer

variable {α : Type}

/-- `RingBuffer(capacity)`: `make_unique<T[]>` value-initialises every slot. -/
def new [Inhabited α] (c : Nat) : RingBuffer α where
  head := 0
  tail := 0
  buffer := fun _ => default
  capacity := nextPowerOfTwo c
  mask := sizeSub (nextPowerOfTwo c) 1

/-- `buffer_[i] = x`, undefined outside the allocation. -/
def store? (r : RingBuffer α) (i : Nat) (x : α) : Option (RingBuffer α) :=
  if i < r.capacity then some { r with buffer := Function.update r.buffer i x } else none

/-- `buffer_[i]` read, undefined outside the allocation. -/
def load? (r : RingBuffer α) (i : Nat) : Option α :=
  if i < r.capacity then some (r.buffer i) else none

/-- `RingBuffer::push`: `false` when the next head would meet the tail. -/
def push (r : RingBuffer α) (item : α) : Option (Bool × RingBuffer α) :=
  let currentHead := r.head
  let nextHead := sizeAdd currentHead 1 &&& r.mask
  if nextHead = r.tail then some (false, r)
  else (r.store? currentHead item).map fun r => (true, { r with head := nextHead })

/-- `RingBuffer::pop`: the item read, `none` (the call returned `false`) when empty. -/
def pop (r : RingBuffer α) : Option (Option α × RingBuffer α) :=
  let currentTail := r.tail
  if currentTail = r.head then some (none, r)
  else (r.load? currentTail).map fun item =>
    (some item, { r with tail := sizeAdd currentTail 1 &&& r.mask })

/-- `RingBuffer::size`. -/
def size (r : RingBuffer α) : Nat := sizeSub r.head r.tail &&& r.mask

/-- `RingBuffer::empty`. -/
def empty (r : RingBuffer α) : Bool := r.head == r.tail

/-- The queue the buffer holds: `buffer_[(tail + i) & mask_]` for `i < size()`. -/
def toList (r : RingBuffer α) : List α :=
  (List.range r.size).map fun i => r.buffer (sizeAdd r.tail i &&& r.mask)

end RingBuffer

end OmsCore
