import RapidArm.HaltCheck.Refines

/-!
# Paths

Paths of the control-flow graph from the entry block, by what is met on them: `visit b` is
what the block `b` contributes, for example its safepoints.

Results:
* `path_of_blocks`: a path given by its blocks.
* `path_cases`: the last block of a path and what led to it.
-/

namespace RapidArm.HaltCheck

open RapidArm.Ir RapidArm.Lib

variable {α : Type}

/-- A path from the entry block to the end of a block, meeting a list of things. -/
inductive Path (ir : ExecIrBuilder) (visit : Block → List α) : Block → List α → Prop
  | entry : Path ir visit Block.ENTRYPOINT (visit Block.ENTRYPOINT)
  | step {u v : Block} {l : List α} (path : Path ir visit u l) (edge : v ∈ ir.succs u) :
      Path ir visit v (l ++ visit v)

/-- A path from the entry block to the start of a block. -/
def PathIn (ir : ExecIrBuilder) (visit : Block → List α) (v : Block) (l : List α) : Prop :=
  (v = Block.ENTRYPOINT ∧ l = []) ∨ ∃ u, v ∈ ir.succs u ∧ Path ir visit u l

theorem path_cases {ir : ExecIrBuilder} {visit : Block → List α} {v : Block} {l : List α} :
    Path ir visit v l ↔ ∃ l₀, PathIn ir visit v l₀ ∧ l = l₀ ++ visit v := by
  constructor
  · intro h
    cases h with
    | entry => exact ⟨[], .inl ⟨rfl, rfl⟩, rfl⟩
    | @step u _ l path edge => exact ⟨l, .inr ⟨u, edge, path⟩, rfl⟩
  · rintro ⟨l₀, ⟨rfl, rfl⟩ | ⟨u, edge, path⟩, rfl⟩
    · exact .entry
    · exact .step path edge

/-- A list of blocks, each one a successor of the one before, from the entry block. -/
def IsPath (ir : ExecIrBuilder) (path : List Block) : Prop :=
  path.head? = some Block.ENTRYPOINT ∧ path.IsChain fun u v => v ∈ ir.succs u

theorem path_of_blocks {ir : ExecIrBuilder} (visit : Block → List α) {path : List Block}
    (h : IsPath ir path) : ∃ b, path.getLast? = some b ∧ Path ir visit b (path.flatMap visit) := by
  obtain ⟨hhead, hchain⟩ := h
  induction path using List.reverseRecOn with
  | nil => cases hhead
  | append_singleton path b ih =>
    refine ⟨b, by simp, ?_⟩
    rw [List.flatMap_append, List.flatMap_singleton]
    cases hpath : path with
    | nil =>
      rw [hpath] at hhead
      obtain rfl : b = Block.ENTRYPOINT := Option.some.inj hhead
      exact .entry
    | cons a rest =>
      rw [← hpath]
      have hhead' : path.head? = some Block.ENTRYPOINT := by
        rw [hpath] at hhead ⊢
        exact hhead
      obtain ⟨u, hu, hpathTo⟩ := ih hhead' (hchain.left_of_append)
      refine .step hpathTo ?_
      exact (List.isChain_append.1 hchain).2.2 u hu b rfl

/-- The safepoints of a list of statements. -/
def safepointsOf (ir : ExecIrBuilder) (stmts : List Stmt) : List Stmt := stmts.filter ir.isSafepoint

/-- The safepoints of a block. -/
def blockSafepoints (ir : ExecIrBuilder) (b : Block) : List Stmt :=
  safepointsOf ir (ir.blockD b).stmts

theorem mem_safepointsOf {ir : ExecIrBuilder} {stmts : List Stmt} {x : Stmt} :
    x ∈ safepointsOf ir stmts ↔ x ∈ stmts ∧ ir.isSafepoint x = true := List.mem_filter

theorem safepointsOf_append {ir : ExecIrBuilder} (l l' : List Stmt) :
    safepointsOf ir (l ++ l') = safepointsOf ir l ++ safepointsOf ir l' := List.filter_append _ _

theorem safepointsOf_cons_true {ir : ExecIrBuilder} {x : Stmt} (h : ir.isSafepoint x = true)
    (l : List Stmt) : safepointsOf ir (x :: l) = x :: safepointsOf ir l := List.filter_cons_of_pos h

theorem safepointsOf_cons_false {ir : ExecIrBuilder} {x : Stmt} (h : ir.isSafepoint x = false)
    (l : List Stmt) : safepointsOf ir (x :: l) = safepointsOf ir l :=
  List.filter_cons_of_neg (by simp [h])

/-- A statement of a well-formed builder is in one block, and there once. -/
theorem block_unique {ir : ExecIrBuilder} (hwf : WF ir) {u v : Block} {x : Stmt}
    (hu : x ∈ (ir.blockD u).stmts) (hv : x ∈ (ir.blockD v).stmts) : u = v := by
  have hlt : ∀ b, x ∈ (ir.blockD b).stmts → ∃ h : b < ir.blocks.length, x ∈ ir.blocks[b].stmts := by
    intro b hb
    by_cases h : b < ir.blocks.length
    · rw [blockD_eq (List.getElem?_eq_getElem h)] at hb
      exact ⟨h, hb⟩
    · simp [ExecIrBuilder.blockD, List.getD_eq_getElem?_getD,
        List.getElem?_eq_none (Nat.le_of_not_lt h), BlockData.empty] at hb
  obtain ⟨hul, hu'⟩ := hlt u hu
  obtain ⟨hvl, hv'⟩ := hlt v hv
  have hpair := (List.nodup_flatMap.1 hwf.nodup).2
  rw [List.pairwise_iff_getElem] at hpair
  rcases Nat.lt_trichotomy u v with h | h | h
  · exact (hpair u v hul hvl h hu' hv').elim
  · exact h
  · exact (hpair v u hvl hul h hv' hu').elim

theorem block_nodup {ir : ExecIrBuilder} (hwf : WF ir) (b : Block) : (ir.blockD b).stmts.Nodup := by
  by_cases h : b < ir.blocks.length
  · rw [blockD_eq (List.getElem?_eq_getElem h)]
    exact (List.nodup_flatMap.1 hwf.nodup).1 _ (List.getElem_mem h)
  · simp [ExecIrBuilder.blockD, List.getD_eq_getElem?_getD,
      List.getElem?_eq_none (Nat.le_of_not_lt h), BlockData.empty]

end RapidArm.HaltCheck
