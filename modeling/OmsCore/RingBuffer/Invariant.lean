import OmsCore.RingBuffer.Basic
import Mathlib.Tactic.Ring

/-! # The ring buffer's invariant and its queue

    `Inv` is the shape a buffer built with a requested capacity in `[2, 2^63]` keeps:
    the capacity is a power of two `2^k` with `1 ≤ k ≤ 63`, the mask is one below it, and
    `head` and `tail` are slot indices. Under it the masked `size_t` arithmetic of the
    source is arithmetic modulo the capacity, and each operation acts on `toList` as the
    corresponding queue operation: `push_spec`, `pop_spec`, `size_eq_length`,
    `empty_eq_isEmpty`. Those four lemmas are all that later modules use of the buffer.
-/

namespace OmsCore

/-- `x mod n` for `x < 2n`: at most one wrap-around. -/
theorem mod_of_lt_two_mul {x n : Nat} (h : x < 2 * n) :
    x % n = if x < n then x else x - n := by
  split_ifs with hx
  · exact Nat.mod_eq_of_lt hx
  · rw [Nat.mod_eq_sub_mod (by omega), Nat.mod_eq_of_lt (by omega)]

/-- Offsets below `n` from a slot below `n` land on distinct slots. -/
theorem add_mod_inj {a i j n : Nat} (ha : a < n) (hi : i < n) (hj : j < n)
    (h : (a + i) % n = (a + j) % n) : i = j := by
  rw [mod_of_lt_two_mul (by omega), mod_of_lt_two_mul (by omega)] at h
  split_ifs at h <;> omega

namespace RingBuffer

variable {α : Type} {r : RingBuffer α}

/-- The invariant of a buffer built with a requested capacity in `[2, 2^63]`. -/
structure Inv (r : RingBuffer α) : Prop where
  pow : ∃ k, 1 ≤ k ∧ k ≤ 63 ∧ r.capacity = 2 ^ k
  mask_eq : r.mask = r.capacity - 1
  head_lt : r.head < r.capacity
  tail_lt : r.tail < r.capacity

theorem new_inv [Inhabited α] {c : Nat} (h1 : 2 ≤ c) (h2 : c ≤ 2 ^ 63) :
    (new c : RingBuffer α).Inv := by
  obtain ⟨k, hk1, hk2, hk⟩ := nextPowerOfTwo_bounds h1 h2
  have hpos : 0 < 2 ^ k := Nat.pos_pow_of_pos _ (by norm_num)
  have hlt : 2 ^ k < wordSize :=
    (Nat.pow_le_pow_right (by norm_num) hk2).trans_lt (by norm_num [wordSize])
  refine ⟨⟨k, hk1, hk2, hk⟩, ?_, ?_, ?_⟩ <;> simp only [new, hk]
  · rw [sizeSub, show 2 ^ k + wordSize - 1 = 2 ^ k - 1 + wordSize by omega,
      Nat.add_mod_right, Nat.mod_eq_of_lt (by omega)]
  all_goals exact hpos

/-- A request of `SIZE_MAX`, which a `ring_buffer_size` of `-1` gives: `next_power_of_two`
    wraps to `0`, so the allocation is empty and the mask all ones, and the first `push`
    writes `buffer_[0]` outside the allocation. -/
theorem size_max_push_out_of_bounds [Inhabited α] (x : α) :
    (new (2 ^ 64 - 1) : RingBuffer α).capacity = 0 ∧
      (new (2 ^ 64 - 1) : RingBuffer α).mask = 2 ^ 64 - 1 ∧
      (new (2 ^ 64 - 1) : RingBuffer α).push x = none := by
  have hc : nextPowerOfTwo (2 ^ 64 - 1) = 0 := nextPowerOfTwo_eq_zero (by norm_num) (by norm_num)
  simp only [new, hc]
  simp [push, store?, sizeSub, sizeAdd, wordSize]

@[simp] theorem toList_new [Inhabited α] (c : Nat) : (new c : RingBuffer α).toList = [] := by
  simp [toList, size, new, sizeSub]

namespace Inv

variable (h : r.Inv)
include h

theorem two_le : 2 ≤ r.capacity := by
  obtain ⟨k, hk, -, hc⟩ := h.pow
  rw [hc]
  calc 2 = 2 ^ 1 := rfl
    _ ≤ 2 ^ k := Nat.pow_le_pow_right (by norm_num) hk

theorem dvd_wordSize : r.capacity ∣ wordSize := by
  obtain ⟨k, -, hk, hc⟩ := h.pow
  exact hc ▸ Nat.pow_dvd_pow 2 (by omega)

theorem and_mask (x : Nat) : x &&& r.mask = x % r.capacity := by
  obtain ⟨k, -, -, hc⟩ := h.pow
  rw [h.mask_eq, hc, Nat.and_pow_two_sub_one_eq_mod]

theorem sizeAdd_mask (x y : Nat) : sizeAdd x y &&& r.mask = (x + y) % r.capacity := by
  rw [h.and_mask, sizeAdd, Nat.mod_mod_of_dvd _ h.dvd_wordSize]

/-- `size()` under the invariant: the distance from `tail` to `head` modulo the capacity. -/
theorem size_eq : r.size = (r.head + r.capacity - r.tail) % r.capacity := by
  have hle : r.capacity ≤ wordSize := Nat.le_of_dvd (by norm_num [wordSize]) h.dvd_wordSize
  obtain ⟨j, hj⟩ := Nat.dvd_sub' h.dvd_wordSize (dvd_refl r.capacity)
  have tl := h.tail_lt
  rw [size, h.and_mask, sizeSub, Nat.mod_mod_of_dvd _ h.dvd_wordSize,
    show r.head + wordSize - r.tail = r.head + r.capacity - r.tail + (wordSize - r.capacity)
      by omega, hj, Nat.add_mul_mod_self_left]

theorem size_lt : r.size < r.capacity := by
  rw [h.size_eq]
  exact Nat.mod_lt _ (by have := h.two_le; omega)

/-- `size()` without wrap-around (`tail ≤ head`) and with it. -/
theorem size_cases :
    (r.tail ≤ r.head ∧ r.size = r.head - r.tail) ∨
      (r.head < r.tail ∧ r.size = r.head + r.capacity - r.tail) := by
  have := h.head_lt
  have := h.tail_lt
  rw [h.size_eq, mod_of_lt_two_mul (by omega)]
  split_ifs <;> omega

/-- `head` is `size()` slots after `tail`. -/
theorem head_eq : r.head = (r.tail + r.size) % r.capacity := by
  have := h.head_lt
  have := h.tail_lt
  rcases h.size_cases with ⟨h1, h2⟩ | ⟨h1, h2⟩
  · rw [h2, Nat.mod_eq_of_lt (by omega)]; omega
  · rw [h2, show r.tail + (r.head + r.capacity - r.tail) = r.head + r.capacity by omega,
      Nat.add_mod_right, Nat.mod_eq_of_lt h.head_lt]

/-- `size()` is the only offset below the capacity that leads from `tail` to `head`. -/
theorem size_unique {m : Nat} (hm : m < r.capacity)
    (he : (r.tail + m) % r.capacity = r.head) : r.size = m := by
  rw [h.head_eq] at he
  exact add_mod_inj h.tail_lt h.size_lt hm he.symm

theorem toList_eq :
    r.toList = (List.range r.size).map fun i => r.buffer ((r.tail + i) % r.capacity) := by
  simp only [toList, h.sizeAdd_mask]

end Inv

theorem length_toList : r.toList.length = r.size := by
  simp [toList]

/-! ## The operations on the queue -/

theorem size_eq_length : r.size = r.toList.length := length_toList.symm

theorem empty_eq_isEmpty (h : r.Inv) : r.empty = r.toList.isEmpty := by
  have hl : r.toList.isEmpty = decide (r.size = 0) := by
    rw [← length_toList]; cases r.toList <;> simp
  have ht := h.tail_lt
  rw [hl, empty]
  rcases h.size_cases with ⟨h1, h2⟩ | ⟨h1, h2⟩ <;> simp only [h2, beq_iff_eq] <;>
    apply Bool.decide_congr <;> omega

/-- `push` appends to the queue when it has room, `size() < capacity() - 1`, and leaves
    the buffer as it is otherwise. -/
theorem push_spec (h : r.Inv) (x : α) :
    ∃ r', r.push x = some (decide (r.toList.length < r.capacity - 1), r') ∧ r'.Inv ∧
      r'.capacity = r.capacity ∧
      r'.toList = if r.toList.length < r.capacity - 1 then r.toList ++ [x] else r.toList := by
  rw [← size_eq_length]
  have hn := h.size_lt
  have ht := h.tail_lt
  have hhd := h.head_eq
  have hnext := h.sizeAdd_mask r.head 1
  have hfull : (r.head + 1) % r.capacity = r.tail ↔ ¬ r.size < r.capacity - 1 := by
    rw [mod_of_lt_two_mul (by have := h.head_lt; omega)]
    rcases h.size_cases with ⟨h1, h2⟩ | ⟨h1, h2⟩ <;> split_ifs <;> omega
  by_cases hroom : r.size < r.capacity - 1
  · let r' : RingBuffer α :=
      { r with buffer := Function.update r.buffer r.head x, head := (r.head + 1) % r.capacity }
    have hi : r'.Inv := ⟨h.pow, h.mask_eq, Nat.mod_lt _ (by omega), ht⟩
    have hs : r'.size = r.size + 1 := hi.size_unique (show r.size + 1 < r.capacity by omega) (by
      show _ = (r.head + 1) % r.capacity
      rw [hhd, Nat.mod_add_mod, Nat.add_assoc])
    refine ⟨r', ?_, hi, rfl, ?_⟩
    · simp [push, hnext, hfull, hroom, store?, h.head_lt, r']
    · rw [if_pos hroom, hi.toList_eq, h.toList_eq, hs, List.range_succ, List.map_append]
      congr 1
      · refine List.map_congr_left fun i hi' => Function.update_noteq ?_ _ _
        rw [hhd]
        exact fun he => by
          have := add_mod_inj ht (by simp at hi'; omega) hn he
          simp at hi'; omega
      · show [Function.update r.buffer r.head x ((r.tail + r.size) % r.capacity)] = [x]
        rw [← hhd, Function.update_same]
  · exact ⟨r, by simp [push, hnext, hfull, hroom], h, rfl, by simp [hroom]⟩

/-- `pop` removes and returns the head of the queue, and returns nothing when it is empty. -/
theorem pop_spec (h : r.Inv) :
    ∃ r', r.pop = some (r.toList.head?, r') ∧ r'.Inv ∧ r'.capacity = r.capacity ∧
      r'.toList = r.toList.tail := by
  have hn := h.size_lt
  have ht := h.tail_lt
  have hhd := h.head_eq
  rcases hsz : r.size with _ | n
  · have hth : r.tail = r.head := by rw [hhd, hsz, Nat.add_zero, Nat.mod_eq_of_lt ht]
    have hl : r.toList = [] := List.eq_nil_of_length_eq_zero (by rw [length_toList, hsz])
    exact ⟨r, by simp [pop, hth, hl], h, rfl, by simp [hl]⟩
  · have hth : r.tail ≠ r.head := fun he => by
      rw [hhd, hsz] at he
      have := add_mod_inj ht (show 0 < r.capacity by omega) (show n + 1 < r.capacity by omega)
        (by rw [Nat.add_zero, Nat.mod_eq_of_lt ht]; exact he)
      omega
    let r' : RingBuffer α := { r with tail := (r.tail + 1) % r.capacity }
    have hi : r'.Inv := ⟨h.pow, h.mask_eq, h.head_lt, Nat.mod_lt _ (by omega)⟩
    have hs : r'.size = n := hi.size_unique (show n < r.capacity by omega) (by
      show ((r.tail + 1) % r.capacity + n) % r.capacity = r.head
      rw [Nat.mod_add_mod, hhd, hsz, Nat.add_right_comm, Nat.add_assoc])
    have hl : r.toList = r.buffer r.tail ::
        (List.range n).map fun i => r.buffer ((r.tail + (i + 1)) % r.capacity) := by
      rw [h.toList_eq, hsz, List.range_succ_eq_map]
      simp [Nat.mod_eq_of_lt ht]
    refine ⟨r', ?_, hi, rfl, ?_⟩
    · simp [pop, hth, load?, ht, hl, r', h.sizeAdd_mask]
    · rw [hl, hi.toList_eq, hs]
      simp only [List.tail_cons, r']
      refine List.map_congr_left fun i _ => ?_
      rw [Nat.mod_add_mod, Nat.add_assoc, Nat.add_comm 1 i]

end RingBuffer

end OmsCore
