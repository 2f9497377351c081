import RapidArm.Lib.Lists
import Mathlib.Data.List.AList

/-!
# Queues with a position index

A queue is a list, oldest element first, beside a map from the keys of its elements to
their positions. Positions are absolute: the oldest element has position `base`, and `base`
moves on with every element that leaves.

Results:
* `Indexed.push`, `Indexed.pop`, `Indexed.modify`: the operations keep the index exact.
* `Indexed.find`: a position of the index leads to the element with its key.
-/

namespace RapidArm.Lib

variable {α κ : Type}

variable [DecidableEq κ]

theorem lookup_insert_if (m : AList fun _ : κ => α) (k k' : κ) (a : α) :
    (m.insert k a).lookup k' = if k' = k then some a else m.lookup k' := by
  by_cases hk : k' = k
  · subst hk
    rw [if_pos rfl]
    exact AList.lookup_insert _
  · rw [if_neg hk]
    exact AList.lookup_insert_ne hk

theorem lookup_erase_if (m : AList fun _ : κ => α) (k k' : κ) :
    (m.erase k).lookup k' = if k' = k then none else m.lookup k' := by
  by_cases hk : k' = k
  · subst hk
    rw [if_pos rfl]
    exact AList.lookup_erase _ _
  · rw [if_neg hk]
    exact AList.lookup_erase_ne hk

/-- `index` is exactly the map from the key of the `i`-th element to `base + i`, and the
    keys are distinct. -/
structure Indexed (key : α → κ) (queue : List α) (base : ℕ)
    (index : AList fun _ : κ => ℕ) : Prop where
  nodup : (queue.map key).Nodup
  lookup_iff : ∀ k p, index.lookup k = some p ↔ ∃ i, (queue.map key)[i]? = some k ∧ p = base + i

namespace Indexed

variable {key : α → κ} {queue : List α} {base : ℕ} {index : AList fun _ : κ => ℕ}

theorem nil (key : α → κ) (base : ℕ) : Indexed key [] base ∅ := by
  constructor
  · exact List.nodup_nil
  · simp

theorem mem_iff (h : Indexed key queue base index) (k : κ) : k ∈ index ↔ k ∈ queue.map key := by
  rw [← AList.lookup_isSome, Option.isSome_iff_exists, List.mem_iff_getElem?]
  constructor
  · rintro ⟨p, hp⟩
    obtain ⟨i, hi, -⟩ := (h.lookup_iff k p).1 hp
    exact ⟨i, hi⟩
  · rintro ⟨i, hi⟩
    exact ⟨base + i, (h.lookup_iff k _).2 ⟨i, hi, rfl⟩⟩

/-- The index has as many entries as the queue. -/
theorem length_keys (h : Indexed key queue base index) : index.keys.length = queue.length := by
  have hperm : index.keys.Perm (queue.map key) := by
    rw [List.perm_ext_iff_of_nodup index.keys_nodup h.nodup]
    exact h.mem_iff
  rw [hperm.length_eq, List.length_map]

/-- The position of a key is not below `base`, and leads to the element with this key. -/
theorem find (h : Indexed key queue base index) {k : κ} {p : ℕ} (hp : index.lookup k = some p) :
    base ≤ p ∧ ∃ a, queue[p - base]? = some a ∧ key a = k := by
  obtain ⟨i, hi, rfl⟩ := (h.lookup_iff k p).1 hp
  rw [List.getElem?_map, Option.map_eq_some_iff] at hi
  rw [Nat.add_sub_cancel_left]
  exact ⟨Nat.le_add_right base i, hi⟩

/-- An element with a new key joins at the end. -/
theorem push (h : Indexed key queue base index) {a : α} (hnew : index.lookup (key a) = none) :
    Indexed key (queue ++ [a]) base (index.insert (key a) (base + queue.length)) := by
  have hnot : key a ∉ queue.map key := by
    rw [← h.mem_iff, ← AList.lookup_eq_none]
    exact hnew
  constructor
  · rw [List.map_append, List.map_singleton, ← List.concat_eq_append]
    exact h.nodup.concat hnot
  · intro k p
    rw [List.map_append, List.map_singleton]
    by_cases hk : k = key a
    · subst hk
      rw [AList.lookup_insert, Option.some_inj]
      constructor
      · rintro rfl
        refine ⟨queue.length, ?_, rfl⟩
        rw [List.getElem?_append_right (by simp)]
        simp
      · rintro ⟨i, hi, rfl⟩
        by_cases hlt : i < (queue.map key).length
        · rw [List.getElem?_append_left hlt] at hi
          exact absurd (List.mem_of_getElem? hi) hnot
        · have hlen := List.getElem?_eq_some_iff.1 hi
          obtain ⟨hbound, -⟩ := hlen
          simp only [List.length_append, List.length_map, List.length_singleton] at hbound hlt
          omega
    · rw [AList.lookup_insert_ne hk, h.lookup_iff]
      refine exists_congr fun i => and_congr_left fun _ => ?_
      by_cases hlt : i < (queue.map key).length
      · rw [List.getElem?_append_left hlt]
      · rw [List.getElem?_append_right (Nat.le_of_not_lt hlt),
          List.getElem?_eq_none (Nat.le_of_not_lt hlt)]
        constructor
        · intro hi
          cases hi
        · intro hi
          exact absurd (List.mem_singleton.1 (List.mem_of_getElem? hi)) hk

/-- The oldest element leaves: its position was `base`. -/
theorem pop {a : α} (h : Indexed key (a :: queue) base index) :
    index.lookup (key a) = some base ∧ Indexed key queue (base + 1) (index.erase (key a)) := by
  have hnodup := h.nodup
  rw [List.map_cons, List.nodup_cons] at hnodup
  refine ⟨(h.lookup_iff _ _).2 ⟨0, by simp, rfl⟩, hnodup.2, fun k p => ?_⟩
  by_cases hk : k = key a
  · subst hk
    rw [AList.lookup_erase]
    constructor
    · intro hp
      cases hp
    · rintro ⟨i, hi, -⟩
      exact absurd (List.mem_of_getElem? hi) hnodup.1
  · rw [AList.lookup_erase_ne hk, h.lookup_iff]
    constructor
    · rintro ⟨i, hi, rfl⟩
      cases i with
      | zero =>
        simp only [List.map_cons, List.getElem?_cons_zero, Option.some_inj] at hi
        exact absurd hi.symm hk
      | succ i => exact ⟨i, by simpa using hi, by omega⟩
    · rintro ⟨i, hi, rfl⟩
      exact ⟨i + 1, by simpa using hi, by omega⟩

/-- Without elements any position is a base. -/
theorem rebase (h : Indexed key [] base index) (base' : ℕ) : Indexed key [] base' index := by
  refine ⟨h.nodup, fun k p => ?_⟩
  rw [h.lookup_iff]
  simp

/-- An element changes in place and keeps its key. -/
theorem modify (h : Indexed key queue base index) (i : ℕ) {f : α → α}
    (hf : ∀ a, key (f a) = key a) :
    Indexed key (queue.modify i f) base index := by
  constructor
  · rw [map_modify _ _ hf]
    exact h.nodup
  · rw [map_modify _ _ hf]
    exact h.lookup_iff

end Indexed

end RapidArm.Lib
