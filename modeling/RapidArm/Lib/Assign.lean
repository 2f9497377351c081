import Mathlib.Data.List.Nodup
import Mathlib.Data.Set.Function
import Mathlib.Logic.Function.Basic
import Mathlib.Logic.Nontrivial.Basic
import Mathlib.Tactic.Common

/-!
# Sequential and simultaneous copies

A list of copies `(destination, source)` between variables can be executed one
after the other (`seqAssign`) or all at once from the old values (`parAssign`).

Results, for distinct destinations:
* `seqAssign_eq_parAssign`: the two agree if no copy reads a destination that an
  earlier copy has changed (`NoOverwrite`).
* `forall_seqAssign_iff`: over values that are not all equal, the sequential
  copies give every destination the old value of its source exactly when
  `NoOverwrite` holds.

For any copies, `seqAssign_eqOn` and `parAssign_eqOn`: the values of a set of variables
that holds every source depend only on the values of this set.
-/

namespace RapidArm.Lib

variable {κ α : Type*} [DecidableEq κ]

/-- The copies executed in order, each reading the current values. -/
def seqAssign (copies : List (κ × κ)) (ρ : κ → α) : κ → α :=
  copies.foldl (fun ρ' c => Function.update ρ' c.1 (ρ' c.2)) ρ

/-- The copies executed at once, all reading the old values. -/
def parAssign (copies : List (κ × κ)) (ρ : κ → α) : κ → α :=
  copies.foldl (fun ρ' c => Function.update ρ' c.1 (ρ c.2)) ρ

/-- A copy whose source is the destination of an earlier copy comes after a copy
    of a variable to itself. -/
def NoOverwrite (copies : List (κ × κ)) : Prop :=
  copies.Pairwise fun c c' => c'.2 = c.1 → c.2 = c.1

instance (copies : List (κ × κ)) : Decidable (NoOverwrite copies) :=
  inferInstanceAs (Decidable (List.Pairwise _ _))

theorem seqAssign_cons (c : κ × κ) (copies : List (κ × κ)) (ρ : κ → α) :
    seqAssign (c :: copies) ρ = seqAssign copies (Function.update ρ c.1 (ρ c.2)) := rfl

theorem seqAssign_append (copies copies' : List (κ × κ)) (ρ : κ → α) :
    seqAssign (copies ++ copies') ρ = seqAssign copies' (seqAssign copies ρ) :=
  List.foldl_append

/-- A variable that is no destination keeps its value. -/
theorem seqAssign_of_notMem {copies : List (κ × κ)} {v : κ} (h : v ∉ copies.map Prod.fst)
    (ρ : κ → α) : seqAssign copies ρ v = ρ v := by
  induction copies generalizing ρ with
  | nil => rfl
  | cons c copies ih =>
    simp only [List.map_cons, List.mem_cons, not_or] at h
    rw [seqAssign_cons, ih h.2, Function.update_of_ne h.1]

/-- Simultaneous copies, from any accumulated state. -/
theorem foldl_par_apply {copies : List (κ × κ)} (hd : (copies.map Prod.fst).Nodup) (ρ ρ' : κ → α)
    (v : κ) :
    (∀ c ∈ copies, v = c.1 →
      copies.foldl (fun ρ' c => Function.update ρ' c.1 (ρ c.2)) ρ' v = ρ c.2) ∧
    (v ∉ copies.map Prod.fst →
      copies.foldl (fun ρ' c => Function.update ρ' c.1 (ρ c.2)) ρ' v = ρ' v) := by
  induction copies generalizing ρ' with
  | nil => simp
  | cons c copies ih =>
    rw [List.map_cons, List.nodup_cons] at hd
    obtain ⟨ihmem, ihnot⟩ := ih hd.2 (Function.update ρ' c.1 (ρ c.2))
    refine ⟨?_, ?_⟩
    · intro c' hc' hv
      rw [List.foldl_cons]
      rcases List.mem_cons.1 hc' with rfl | hmem
      · rw [ihnot (hv ▸ hd.1), hv, Function.update_self]
      · exact ihmem c' hmem hv
    · intro hv
      simp only [List.map_cons, List.mem_cons, not_or] at hv
      rw [List.foldl_cons, ihnot hv.2, Function.update_of_ne hv.1]

theorem parAssign_of_mem {copies : List (κ × κ)} (hd : (copies.map Prod.fst).Nodup) {c : κ × κ}
    (hc : c ∈ copies) (ρ : κ → α) : parAssign copies ρ c.1 = ρ c.2 :=
  (foldl_par_apply hd ρ ρ c.1).1 c hc rfl

theorem parAssign_of_notMem {copies : List (κ × κ)} (hd : (copies.map Prod.fst).Nodup) {v : κ}
    (hv : v ∉ copies.map Prod.fst) (ρ : κ → α) : parAssign copies ρ v = ρ v :=
  (foldl_par_apply hd ρ ρ v).2 hv

/-- Without overwriting, each destination ends with the old value of its source. -/
theorem seqAssign_of_mem {copies : List (κ × κ)} (hd : (copies.map Prod.fst).Nodup)
    (h : NoOverwrite copies) {c : κ × κ} (hc : c ∈ copies) (ρ : κ → α) :
    seqAssign copies ρ c.1 = ρ c.2 := by
  induction copies generalizing ρ with
  | nil => cases hc
  | cons c₀ copies ih =>
    rw [List.map_cons, List.nodup_cons] at hd
    obtain ⟨hhead, htail⟩ := List.pairwise_cons.1 h
    rw [seqAssign_cons]
    rcases List.mem_cons.1 hc with rfl | hmem
    · rw [seqAssign_of_notMem hd.1, Function.update_self]
    · rw [ih hd.2 htail hmem]
      -- the first copy did not change the source of a later one
      by_cases hsrc : c.2 = c₀.1
      · rw [hsrc, Function.update_self, hhead c hmem hsrc]
      · rw [Function.update_of_ne hsrc]

/-- Without overwriting, sequential copies are simultaneous ones. -/
theorem seqAssign_eq_parAssign {copies : List (κ × κ)} (hd : (copies.map Prod.fst).Nodup)
    (h : NoOverwrite copies) (ρ : κ → α) : seqAssign copies ρ = parAssign copies ρ := by
  funext v
  by_cases hv : v ∈ copies.map Prod.fst
  · obtain ⟨c, hc, rfl⟩ := List.mem_map.1 hv
    rw [seqAssign_of_mem hd h hc, parAssign_of_mem hd hc]
  · rw [seqAssign_of_notMem hv, parAssign_of_notMem hd hv]

/-- A copy that reads a variable `d` that no copy of the list writes passes the
    current value of `d` on. -/
theorem seqAssign_reads {copies : List (κ × κ)} (hd : (copies.map Prod.fst).Nodup) {d : κ}
    (hnot : d ∉ copies.map Prod.fst) {c : κ × κ} (hc : c ∈ copies) (hsrc : c.2 = d) (ρ : κ → α) :
    seqAssign copies ρ c.1 = ρ d := by
  induction copies generalizing ρ with
  | nil => cases hc
  | cons c₀ copies ih =>
    rw [List.map_cons, List.nodup_cons] at hd
    simp only [List.map_cons, List.mem_cons, not_or] at hnot
    rw [seqAssign_cons]
    rcases List.mem_cons.1 hc with rfl | hmem
    · rw [seqAssign_of_notMem hd.1, Function.update_self, hsrc]
    · rw [ih hd.2 hnot.2 hmem, Function.update_of_ne hnot.1]

theorem pairwise_of_forall_split {β : Type*} {R : β → β → Prop} {l : List β}
    (h : ∀ l₁ x l₂, l = l₁ ++ x :: l₂ → ∀ y ∈ l₂, R x y) : l.Pairwise R := by
  induction l with
  | nil => exact List.Pairwise.nil
  | cons a l ih =>
    refine List.pairwise_cons.2 ⟨h [] a l rfl, ih ?_⟩
    intro l₁ x l₂ hl
    exact h (a :: l₁) x l₂ (by rw [hl]; rfl)

/-- Sequential copies from variables of a set keep an agreement on this set. -/
theorem seqAssign_eqOn {copies : List (κ × κ)} {s : Set κ} (hs : ∀ c ∈ copies, c.2 ∈ s)
    {ρ ρ' : κ → α} (h : Set.EqOn ρ ρ' s) :
    Set.EqOn (seqAssign copies ρ) (seqAssign copies ρ') s := by
  induction copies generalizing ρ ρ' with
  | nil => exact h
  | cons c copies ih =>
    rw [seqAssign_cons, seqAssign_cons]
    refine ih (fun c' hc' => hs c' (List.mem_cons_of_mem _ hc')) fun v hv => ?_
    by_cases hvc : v = c.1
    · rw [hvc, Function.update_self, Function.update_self]
      exact h (hs c List.mem_cons_self)
    · rw [Function.update_of_ne hvc, Function.update_of_ne hvc]
      exact h hv

/-- Simultaneous copies from variables of a set keep an agreement on this set. -/
theorem parAssign_eqOn {copies : List (κ × κ)} {s : Set κ} (hs : ∀ c ∈ copies, c.2 ∈ s)
    {ρ ρ' : κ → α} (h : Set.EqOn ρ ρ' s) :
    Set.EqOn (parAssign copies ρ) (parAssign copies ρ') s := by
  unfold parAssign
  -- what is read stays as it was, what is written accumulates
  suffices hacc : ∀ (copies : List (κ × κ)), (∀ c ∈ copies, c.2 ∈ s) → ∀ {σ σ' : κ → α},
      Set.EqOn σ σ' s → Set.EqOn (copies.foldl (fun σ c => Function.update σ c.1 (ρ c.2)) σ)
        (copies.foldl (fun σ c => Function.update σ c.1 (ρ' c.2)) σ') s from hacc copies hs h
  intro copies hs
  induction copies with
  | nil => exact fun hσ => hσ
  | cons c copies ih =>
    intro σ σ' hσ
    rw [List.foldl_cons, List.foldl_cons]
    refine ih (fun c' hc' => hs c' (List.mem_cons_of_mem _ hc')) fun v hv => ?_
    by_cases hvc : v = c.1
    · rw [hvc, Function.update_self, Function.update_self]
      exact h (hs c List.mem_cons_self)
    · rw [Function.update_of_ne hvc, Function.update_of_ne hvc]
      exact hσ hv

/-- The sequential copies are simultaneous in every state exactly when no copy
    reads a variable that an earlier one has changed. -/
theorem forall_seqAssign_iff [Nontrivial α] {copies : List (κ × κ)}
    (hd : (copies.map Prod.fst).Nodup) :
    (∀ ρ : κ → α, ∀ c ∈ copies, seqAssign copies ρ c.1 = ρ c.2) ↔ NoOverwrite copies := by
  constructor
  · intro h
    refine pairwise_of_forall_split ?_
    rintro l₁ c l₂ rfl c' hc' hsrc
    simp only [List.map_append, List.map_cons, List.nodup_append, List.nodup_cons] at hd
    obtain ⟨-, ⟨hnot, hd₂⟩, -⟩ := hd
    -- the later copy passes on what the earlier one stored, in every state
    have hsame : ∀ ρ : κ → α, ρ c.2 = ρ c.1 := by
      intro ρ
      have hfirst := h ρ c (by simp)
      have hsecond := h ρ c' (by simp [hc'])
      rw [seqAssign_append, seqAssign_cons] at hfirst hsecond
      rw [seqAssign_of_notMem hnot] at hfirst
      rw [seqAssign_reads hd₂ hnot hc' hsrc, hfirst, hsrc] at hsecond
      exact hsecond
    obtain ⟨x, y, hxy⟩ := exists_pair_ne α
    by_contra hne
    have := hsame (Function.update (fun _ => x) c.1 y)
    rw [Function.update_of_ne hne, Function.update_self] at this
    exact hxy this
  · intro h ρ c hc
    exact seqAssign_of_mem hd h hc ρ

end RapidArm.Lib
