import Mathlib.Data.List.Basic
import Mathlib.Data.List.Nodup
import Mathlib.Data.List.Flatten
import Mathlib.Data.List.Perm.Subperm
import Mathlib.Order.Nat
import Mathlib.Tactic.Common

/-!
# Lists as arenas and as finite maps

A list that is read through `[i]?` and changed by `set` and by appending at its
end, as an arena is: how such a change acts on lookups, on membership and on the
concatenation of a list-valued field. And a list of pairs read through `lookup`,
as a finite map is.
-/

namespace RapidArm.Lib

variable {α β : Type*}

theorem getElem?_eq_some_lt {l : List α} {i : ℕ} {x : α} (h : l[i]? = some x) : i < l.length :=
  (List.getElem?_eq_some_iff.1 h).1

/-- Beyond a list there is only what was appended. -/
theorem getElem?_concat_of_ge {l : List α} {i : ℕ} {x y : α} (h : (l ++ [y])[i]? = some x)
    (hge : l.length ≤ i) : i = l.length ∧ x = y := by
  have hlt := getElem?_eq_some_lt h
  rw [List.length_append, List.length_singleton] at hlt
  obtain rfl : i = l.length := by omega
  rw [List.getElem?_concat_length] at h
  exact ⟨rfl, (Option.some.inj h).symm⟩

theorem getElem?_of_isPrefix {l l' : List α} (h : l <+: l') {i : ℕ} {a : α}
    (ha : l[i]? = some a) : l'[i]? = some a := by
  obtain ⟨rest, rfl⟩ := h
  rw [List.getElem?_append_left (List.getElem?_eq_some_iff.1 ha).1]
  exact ha

/-- Splitting a list around the element at index `i`. -/
theorem exists_split_of_getElem? {l : List α} {i : ℕ} {x : α} (h : l[i]? = some x) :
    ∃ l₁ l₂, l = l₁ ++ x :: l₂ ∧ l₁.length = i := by
  obtain ⟨hi, rfl⟩ := List.getElem?_eq_some_iff.1 h
  refine ⟨l.take i, l.drop (i + 1), ?_, by simp; omega⟩
  rw [← List.drop_eq_getElem_cons hi, List.take_append_drop]

theorem set_split {l₁ l₂ : List α} {x y : α} :
    (l₁ ++ x :: l₂).set l₁.length y = l₁ ++ y :: l₂ := by
  simp

/-- Changing the element at `i` so that its field grows by `z` makes the
    concatenated field grow by `z`. -/
theorem flatMap_set_perm {l : List α} {i : ℕ} {x y : α} {f : α → List β} {z : List β}
    (h : l[i]? = some x) (hf : (f y).Perm (f x ++ z)) :
    ((l.set i y).flatMap f).Perm (l.flatMap f ++ z) := by
  obtain ⟨l₁, l₂, rfl, rfl⟩ := exists_split_of_getElem? h
  rw [set_split]
  simp only [List.flatMap_append, List.flatMap_cons, List.append_assoc]
  refine List.Perm.append_left _ ?_
  calc f y ++ l₂.flatMap f
      |>.Perm ((f x ++ z) ++ l₂.flatMap f) := hf.append_right _
    _ |>.Perm (f x ++ (l₂.flatMap f ++ z)) := by
      rw [List.append_assoc]
      exact List.Perm.append_left _ List.perm_append_comm

/-- In a concatenation without repetition, an element comes from one place. -/
theorem eq_of_mem_flatMap {l : List α} {f : α → List β} (h : (l.flatMap f).Nodup)
    {i j : ℕ} {a b : α} (ha : l[i]? = some a) (hb : l[j]? = some b) {x : β} (hxa : x ∈ f a)
    (hxb : x ∈ f b) :
    i = j := by
  have hpairwise := List.pairwise_iff_getElem.1 (List.nodup_flatMap.1 h).2
  obtain ⟨hi, rfl⟩ := List.getElem?_eq_some_iff.1 ha
  obtain ⟨hj, rfl⟩ := List.getElem?_eq_some_iff.1 hb
  rcases Nat.lt_trichotomy i j with hij | rfl | hij
  · exact absurd hxb (hpairwise i j hi hj hij hxa)
  · rfl
  · exact absurd hxa (hpairwise j i hj hi hij hxb)

/-! ## Changes in place -/

/-- An element after one was changed: an old one, or the changed one. -/
theorem mem_modify {l : List α} {i : ℕ} {f : α → α} {b : α} (h : b ∈ l.modify i f) :
    b ∈ l ∨ ∃ a, l[i]? = some a ∧ b = f a := by
  obtain ⟨j, hj⟩ := List.mem_iff_getElem?.1 h
  by_cases hij : i = j
  · subst hij
    rw [List.getElem?_modify_eq] at hj
    obtain ⟨a, ha, rfl⟩ := Option.map_eq_some_iff.1 hj
    exact .inr ⟨a, ha, rfl⟩
  · rw [List.getElem?_modify_ne _ _ hij] at hj
    exact .inl (List.mem_of_getElem? hj)

theorem map_modify_comm {key : α → β} {f : α → α} {f' : β → β} {l : List α} {i : ℕ}
    (hf : ∀ a, l[i]? = some a → key (f a) = f' (key a)) :
    (l.modify i f).map key = (l.map key).modify i f' := by
  apply List.ext_getElem?
  intro j
  rw [List.getElem?_map, List.getElem?_modify, List.getElem?_modify, List.getElem?_map]
  cases hj : l[j]? with
  | none => rfl
  | some a =>
    by_cases hij : i = j
    · subst hij
      simp [hf a hj]
    · simp [hij]

/-- Changing an element in place keeps the keys if it keeps the key of this element. -/
theorem map_modify {key : α → β} {f : α → α} (l : List α) (i : ℕ) (hf : ∀ a, key (f a) = key a) :
    (l.modify i f).map key = l.map key :=
  (map_modify_comm fun a _ => hf a).trans (List.modify_id _ _)

/-! ## Lists of pairs -/

section Lookup

variable {κ : Type*} [DecidableEq κ]

theorem lookup_cons_if (p : κ × α) (l : List (κ × α)) (k : κ) :
    (p :: l).lookup k = if k = p.1 then some p.2 else l.lookup k := by
  rw [List.lookup_cons]
  by_cases h : k = p.1
  · simp [h]
  · rw [if_neg h, beq_eq_false_iff_ne.2 h]

theorem lookup_filter_ne (l : List (κ × α)) (n k : κ) :
    (l.filter fun p => p.1 ≠ n).lookup k = if k = n then none else l.lookup k := by
  induction l with
  | nil => simp
  | cons p l ih =>
    by_cases hp : p.1 = n
    · rw [List.filter_cons_of_neg (by simpa using hp), ih, lookup_cons_if, hp]
      split_ifs <;> rfl
    · rw [List.filter_cons_of_pos (by simpa using hp), lookup_cons_if, lookup_cons_if, ih]
      by_cases hk : k = p.1
      · rw [if_pos hk, if_pos hk, if_neg (by rw [hk]; exact hp)]
      · rw [if_neg hk, if_neg hk]

theorem lookup_map_snd (l : List (κ × α)) (f : κ → α → β) (k : κ) :
    (l.map fun p => (p.1, f p.1 p.2)).lookup k = (l.lookup k).map (f k) := by
  induction l with
  | nil => rfl
  | cons p l ih =>
    rw [List.map_cons, lookup_cons_if, lookup_cons_if, ih]
    by_cases hk : k = p.1
    · rw [if_pos hk, if_pos hk, hk]
      rfl
    · rw [if_neg hk, if_neg hk]

theorem mem_of_lookup {l : List (κ × α)} {k : κ} {a : α} (h : l.lookup k = some a) :
    (k, a) ∈ l := by
  induction l with
  | nil => cases h
  | cons p l ih =>
    rw [lookup_cons_if] at h
    by_cases hk : k = p.1
    · rw [if_pos hk] at h
      obtain rfl := Option.some.inj h
      rw [hk]
      exact List.mem_cons_self
    · rw [if_neg hk] at h
      exact List.mem_cons_of_mem _ (ih h)

theorem lookup_of_mem {l : List (κ × α)} (hnodup : (l.map Prod.fst).Nodup) {k : κ} {a : α}
    (h : (k, a) ∈ l) : l.lookup k = some a := by
  induction l with
  | nil => cases h
  | cons p l ih =>
    rw [List.map_cons, List.nodup_cons] at hnodup
    rw [lookup_cons_if]
    rcases List.mem_cons.1 h with rfl | hmem
    · rw [if_pos rfl]
    · have hne : k ≠ p.1 := by
        rintro rfl
        exact hnodup.1 (List.mem_map.2 ⟨_, hmem, rfl⟩)
      rw [if_neg hne]
      exact ih hnodup.2 hmem

end Lookup

/-! ## Counting -/

/-- Distinct numbers below `n` are at most `n` many. -/
theorem length_le_of_nodup {l : List ℕ} {n : ℕ} (hl : l.Nodup) (hlt : ∀ a ∈ l, a < n) :
    l.length ≤ n := by
  have hsub := (List.subperm_of_subset hl fun a ha => List.mem_range.2 (hlt a ha)).length_le
  rwa [List.length_range] at hsub

theorem two_le_countP {α : Type*} {p : α → Bool} {l : List α} {a b : α} (ha : a ∈ l) (hb : b ∈ l)
    (hne : a ≠ b) (hpa : p a = true) (hpb : p b = true) : 2 ≤ l.countP p := by
  have hsub : List.Subperm [a, b] l :=
    List.subperm_of_subset (by simpa using hne) (by simp [ha, hb])
  have hle := hsub.countP_le p
  rwa [List.countP_cons_of_pos hpa, List.countP_cons_of_pos hpb] at hle

/-- Two parts of a concatenation that each have an element count twice. -/
theorem two_le_countP_flatMap {α β : Type*} {p : β → Bool} {f : α → List β} {l : List α} {i j : ℕ}
    (hij : i ≠ j) {a b : α} (ha : l[i]? = some a) (hb : l[j]? = some b)
    (hx : ∃ x ∈ f a, p x = true) (hy : ∃ y ∈ f b, p y = true) : 2 ≤ (l.flatMap f).countP p := by
  have hrest : ∀ {l : List α} {k : ℕ} {c : α}, l[k]? = some c → (∃ x ∈ f c, p x = true) →
      1 ≤ (l.flatMap f).countP p := by
    rintro l k c hc ⟨x, hmem, hp⟩
    refine List.countP_pos_iff.2 ⟨x, ?_, hp⟩
    exact List.mem_flatMap.2 ⟨c, List.mem_of_getElem? hc, hmem⟩
  induction l generalizing i j with
  | nil => cases ha
  | cons c l ih =>
    rw [List.flatMap_cons, List.countP_append]
    cases i with
    | zero =>
      cases j with
      | zero => exact (hij rfl).elim
      | succ j =>
        obtain rfl := Option.some.inj ha
        obtain ⟨x, hmem, hp⟩ := hx
        have hhead : 1 ≤ (f c).countP p := List.countP_pos_iff.2 ⟨x, hmem, hp⟩
        have htail := hrest (l := l) hb hy
        omega
    | succ i =>
      cases j with
      | zero =>
        obtain rfl := Option.some.inj hb
        obtain ⟨y, hmem, hp⟩ := hy
        have hhead : 1 ≤ (f c).countP p := List.countP_pos_iff.2 ⟨y, hmem, hp⟩
        have htail := hrest (l := l) ha hx
        omega
      | succ j =>
        have htail := ih (fun heq => hij (congrArg Nat.succ heq)) ha hb
        omega

/-- Two ways to cut a list, the first one before any element with a property and the second
    one at such an element. -/
theorem cut_before {α : Type*} {p : α → Prop} {done todo seg rest : List α} {s : α}
    (h : done ++ todo = seg ++ s :: rest) (hdone : ∀ x ∈ done, ¬ p x) (hs : p s) :
    ∃ mid, seg = done ++ mid ∧ todo = mid ++ s :: rest := by
  rcases List.append_eq_append_iff.1 h with ⟨mid, hseg, htodo⟩ | ⟨mid, hdone', hrest⟩
  · exact ⟨mid, hseg, htodo⟩
  · cases mid with
    | nil => exact ⟨[], by simpa using hdone'.symm, by simpa using hrest.symm⟩
    | cons y mid =>
      obtain ⟨rfl, -⟩ := List.cons.inj hrest
      exact (hdone s (by rw [hdone']; simp) hs).elim

end RapidArm.Lib
