import Mathlib.Data.List.Nodup

/-! # Association lists

    The maps of the source (`std::unordered_map` keyed by symbol or by exchange, the slot
    arrays searched by name) are modelled as lists of entries with distinct keys, in the
    order the entries were first added. `store` adds or updates an entry under a cap on
    the number of entries; `assign` is `map[k] = v`.
-/

namespace OmsCore

section Store

variable {κ ν : Type} [DecidableEq κ]

/-- `k` joins the keys `acc` unless present, while fewer than `n` are there. -/
def addCapped (n : Nat) (acc : List κ) (k : κ) : List κ :=
  if k ∈ acc then acc else if acc.length < n then acc ++ [k] else acc

/-- The first `n` distinct values of `l`, in order of first occurrence. -/
def firstCome (n : Nat) (l : List κ) : List κ := l.foldl (addCapped n) []

/-- The value of the first entry with key `k`. -/
def lookupKey : List (κ × ν) → κ → Option ν
  | [], _ => none
  | e :: l, k => if e.1 = k then some e.2 else lookupKey l k

/-- Update the entry of key `k` by `g`, or append `(k, v)` while fewer than `n` entries
    exist. -/
def store (n : Nat) (l : List (κ × ν)) (k : κ) (g : ν → ν) (v : ν) : List (κ × ν) :=
  if k ∈ l.map Prod.fst then l.map fun e => if e.1 = k then (k, g e.2) else e
  else if l.length < n then l ++ [(k, v)] else l

theorem addCapped_nodup {n : Nat} {acc : List κ} (h : acc.Nodup) (k : κ) :
    (addCapped n acc k).Nodup := by
  unfold addCapped
  split_ifs with hk
  · exact h
  · exact h.append (List.nodup_singleton _) (List.disjoint_singleton.2 hk)
  · exact h

theorem length_addCapped_le {n : Nat} {acc : List κ} (h : acc.length ≤ n) (k : κ) :
    (addCapped n acc k).length ≤ n := by
  unfold addCapped
  split_ifs with _ hl
  · exact h
  · simpa using hl
  · exact h

theorem mem_addCapped_self {n : Nat} {acc : List κ} {k : κ} :
    k ∈ addCapped n acc k ↔ k ∈ acc ∨ acc.length < n := by
  unfold addCapped
  split_ifs <;> simp_all

theorem mem_addCapped_of_ne {n : Nat} {acc : List κ} {k k' : κ} (h : k' ≠ k) :
    k' ∈ addCapped n acc k ↔ k' ∈ acc := by
  unfold addCapped
  split_ifs <;> simp [h]

theorem firstCome_append_singleton (n : Nat) (l : List κ) (k : κ) :
    firstCome n (l ++ [k]) = addCapped n (firstCome n l) k := by
  simp [firstCome]

/-- At most `n` distinct values are all kept, in order. -/
theorem firstCome_of_nodup {n : Nat} {l : List κ} (hl : l.Nodup) (hn : l.length ≤ n) :
    firstCome n l = l := by
  induction l using List.reverseRecOn with
  | nil => rfl
  | append_singleton l k ih =>
    obtain ⟨hl, -, hdis⟩ := List.nodup_append.1 hl
    have hk : k ∉ l := fun h => hdis h (List.mem_singleton_self k)
    simp only [List.length_append, List.length_singleton] at hn
    rw [firstCome_append_singleton, ih hl (by omega), addCapped, if_neg hk, if_pos (by omega)]

theorem lookupKey_eq_none {l : List (κ × ν)} {k : κ} :
    lookupKey l k = none ↔ k ∉ l.map Prod.fst := by
  induction l with
  | nil => simp [lookupKey]
  | cons e l ih =>
    by_cases he : e.1 = k
    · simp [lookupKey, he]
    · simp [lookupKey, he, ih, Ne.symm he]

theorem lookupKey_append (l l' : List (κ × ν)) (k : κ) :
    lookupKey (l ++ l') k = (lookupKey l k).or (lookupKey l' k) := by
  induction l with
  | nil => simp [lookupKey]
  | cons e l ih => by_cases he : e.1 = k <;> simp [lookupKey, he, ih]

theorem lookupKey_map_modify (l : List (κ × ν)) (k k' : κ) (g : ν → ν) :
    lookupKey (l.map fun e => if e.1 = k then (k, g e.2) else e) k' =
      if k = k' then (lookupKey l k).map g else lookupKey l k' := by
  induction l with
  | nil => simp [lookupKey]
  | cons e l ih =>
    simp only [List.map_cons, lookupKey, ih]
    split_ifs <;> simp_all

/-- With distinct keys, an entry is what the lookup of its key returns. -/
theorem mem_iff_lookupKey {l : List (κ × ν)} (hn : (l.map Prod.fst).Nodup) {k : κ} {x : ν} :
    (k, x) ∈ l ↔ lookupKey l k = some x := by
  induction l with
  | nil => simp [lookupKey]
  | cons e l ih =>
    rw [List.map_cons, List.nodup_cons] at hn
    by_cases he : e.1 = k
    · have hk : (k, x) ∉ l := fun hm => hn.1 (he ▸ List.mem_map_of_mem Prod.fst hm)
      obtain ⟨e1, e2⟩ := e
      simp only at he
      subst he
      simp [lookupKey, hk, eq_comm]
    · have : (k, x) ≠ e := fun h => he (h ▸ rfl)
      simp [lookupKey, he, ih hn.2, this]

omit [DecidableEq κ] in
/-- Two entries with the same key are the same entry. -/
theorem index_unique {l : List (κ × ν)} (hn : (l.map Prod.fst).Nodup) {i j : Nat} {k : κ}
    (hi : l[i]?.map Prod.fst = some k) (hj : l[j]?.map Prod.fst = some k) : i = j := by
  have hlt : i < (l.map Prod.fst).length := by
    rw [List.length_map]
    by_contra hge
    rw [List.getElem?_eq_none (by omega)] at hi
    cases hi
  exact List.getElem?_inj hlt hn (by rw [List.getElem?_map, List.getElem?_map, hi, hj])

variable (n : Nat) (l : List (κ × ν)) (k : κ) (g : ν → ν) (v : ν)

theorem keys_store : (store n l k g v).map Prod.fst = addCapped n (l.map Prod.fst) k := by
  unfold store addCapped
  rw [List.length_map]
  split_ifs with h
  · simp only [List.map_map]
    exact List.map_congr_left fun f _ => by by_cases hf : f.1 = k <;> simp [hf]
  · simp
  · rfl

theorem length_le_store : l.length ≤ (store n l k g v).length := by
  unfold store
  split_ifs <;> simp

/-- An entry of the store is an old one, the appended one or the updated one. -/
theorem mem_store {e : κ × ν} (h : e ∈ store n l k g v) :
    e ∈ l ∨ e = (k, v) ∨ ∃ x, (k, x) ∈ l ∧ e = (k, g x) := by
  unfold store at h
  split_ifs at h
  · obtain ⟨e', he', rfl⟩ := List.mem_map.1 h
    split_ifs with hk
    · exact .inr (.inr ⟨e'.2, hk ▸ he', rfl⟩)
    · exact .inl he'
  · rcases List.mem_append.1 h with h | h
    · exact .inl h
    · exact .inr (.inl (List.mem_singleton.1 h))
  · exact .inl h

theorem lookupKey_store_ne {k'} (h : k ≠ k') :
    lookupKey (store n l k g v) k' = lookupKey l k' := by
  unfold store
  split_ifs
  · simp [lookupKey_map_modify, h]
  · simp [lookupKey_append, lookupKey, h]
  · rfl

theorem lookupKey_store_self :
    lookupKey (store n l k g v) k =
      if k ∈ l.map Prod.fst then (lookupKey l k).map g
      else if l.length < n then some v else none := by
  unfold store
  split_ifs with h
  · simp [lookupKey_map_modify]
  · simp [lookupKey_append, lookupKey, lookupKey_eq_none.2 h]
  · exact lookupKey_eq_none.2 h

/-- With distinct keys, updating the entry at position `i` is a `set` there. -/
theorem store_eq_set (hn : (l.map Prod.fst).Nodup) {i : Nat} {x : ν}
    (hi : l[i]? = some (k, x)) : store n l k g v = l.set i (k, g x) := by
  have hmem : k ∈ l.map Prod.fst := List.mem_map_of_mem Prod.fst (List.getElem?_mem hi)
  rw [store, if_pos hmem]
  refine List.ext_getElem? fun j => ?_
  rw [List.getElem?_map, List.getElem?_set]
  by_cases hij : i = j
  · subst hij
    simp [hi, (List.getElem?_eq_some_iff.1 hi).1]
  · rw [if_neg hij]
    cases hj : l[j]? with
    | none => rfl
    | some e =>
      have hne : e.1 ≠ k := fun he =>
        hij (index_unique hn (by rw [hi]; rfl) (by rw [hj, Option.map_some', he]))
      simp [hne]

end Store

section Assign

variable {κ ν : Type} [DecidableEq κ]

/-- `map[k] = v`: overwrite the entry of `k`, or append one. -/
def assign (l : List (κ × ν)) (k : κ) (v : ν) : List (κ × ν) :=
  if k ∈ l.map Prod.fst then l.map fun e => if e.1 = k then (k, v) else e
  else l ++ [(k, v)]

theorem keys_assign (l : List (κ × ν)) (k : κ) (v : ν) :
    (assign l k v).map Prod.fst =
      if k ∈ l.map Prod.fst then l.map Prod.fst else l.map Prod.fst ++ [k] := by
  unfold assign
  split_ifs
  · simp only [List.map_map]
    exact List.map_congr_left fun f _ => by by_cases hf : f.1 = k <;> simp [hf]
  · simp

theorem nodup_keys_assign {l : List (κ × ν)} (h : (l.map Prod.fst).Nodup) (k : κ) (v : ν) :
    ((assign l k v).map Prod.fst).Nodup := by
  rw [keys_assign]
  split_ifs with hk
  · exact h
  · exact h.append (List.nodup_singleton _) (List.disjoint_singleton.2 hk)

theorem lookupKey_assign (l : List (κ × ν)) (k k' : κ) (v : ν) :
    lookupKey (assign l k v) k' = if k = k' then some v else lookupKey l k' := by
  unfold assign
  by_cases h : k ∈ l.map Prod.fst
  · rw [if_pos h, lookupKey_map_modify l k k' fun _ => v]
    split_ifs with hk
    · obtain ⟨x, hx⟩ := Option.ne_none_iff_exists'.1 fun hn => lookupKey_eq_none.1 hn h
      rw [hx, Option.map_some']
    · rfl
  · rw [if_neg h, lookupKey_append]
    by_cases hk : k = k'
    · subst hk
      simp [lookupKey_eq_none.2 h, lookupKey]
    · simp [lookupKey, hk]

/-- The values of a list with distinct keys are, up to order, the lookups along any list
    that holds each of its keys once. -/
theorem perm_filterMap_lookupKey {m : List (κ × ν)} (hm : (m.map Prod.fst).Nodup)
    {U : List κ} (hU : U.Nodup) (hsub : ∀ k ∈ m.map Prod.fst, k ∈ U) :
    (m.map Prod.snd).Perm (U.filterMap (lookupKey m)) := by
  have hpairs : m.Perm (U.filterMap fun k => (lookupKey m k).map (k, ·)) := by
    refine (List.perm_ext_iff_of_nodup (List.Nodup.of_map Prod.fst hm)
      (hU.filterMap fun a a' b ha ha' => ?_)).2 fun ⟨k, x⟩ => ?_
    · simp only [Option.mem_def, Option.map_eq_some'] at ha ha'
      obtain ⟨_, _, rfl⟩ := ha
      obtain ⟨_, _, h⟩ := ha'
      exact (Prod.mk.inj h).1.symm
    · simp only [List.mem_filterMap, Option.map_eq_some', Prod.mk.injEq]
      constructor
      · intro hx
        exact ⟨k, hsub k (List.mem_map_of_mem Prod.fst hx), x, (mem_iff_lookupKey hm).1 hx,
          rfl, rfl⟩
      · rintro ⟨k', -, x', hl, rfl, rfl⟩
        exact (mem_iff_lookupKey hm).2 hl
  simpa [List.map_filterMap, Option.map_map, Function.comp_def] using hpairs.map Prod.snd

end Assign

end OmsCore
