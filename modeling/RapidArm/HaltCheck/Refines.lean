import RapidArm.HaltCheck.Split
import Mathlib.Data.Finset.Insert

/-!
# Blocks in parts

How a builder with halt checks relates to the builder it was made from. A block of the
original builder is a chain of blocks now, each but the last one ending in a marked
safepoint, the load of the halt reason and the branch on it.

Results:
* `Covers.split`, `Refines.split`: a halt check after one more safepoint, in whatever part
  of whatever block, keeps the relation.
-/

namespace RapidArm.HaltCheck

open RapidArm.Ir RapidArm.Lib

/-- The statements `ss` of an original block, from the block `b` to `last`. -/
inductive Covers (ir₀ ir : ExecIrBuilder) (marked : Finset Stmt) : Block → List Stmt → Block → Prop
  | last {b : Block} {data : BlockData} {ss : List Stmt} (get : ir.blocks[b]? = some data)
      (stmts : data.stmts = ss) (unmarked : ∀ x ∈ ss, x ∉ marked) : Covers ir₀ ir marked b ss b
  | check {b c leave last : Block} {data next : BlockData} {seg rest ss : List Stmt} {s load : Stmt}
      {reason : SSAValue} (get : ir.blocks[b]? = some data) (stmts : data.stmts = seg ++ [s, load])
      (unmarked : ∀ x ∈ seg, x ∉ marked) (mark : s ∈ marked)
      (load_new : ir₀.stmts.length ≤ load)
      (load_data : ir.stmts[load]? = some ⟨[reason], .loadHaltReason⟩)
      (reason_new : ir₀.ssaValues.length ≤ reason)
      (terminator : data.terminator = .brZ reason ⟨c, []⟩ ⟨leave, []⟩)
      (leave_eq : ir.leaveAndTakeHalt = some leave)
      (next_get : ir.blocks[c]? = some next) (parameters : next.parameters = [])
      (covers : Covers ir₀ ir marked c rest last) (split : ss = seg ++ s :: rest) :
      Covers ir₀ ir marked b ss last

/-- The builder `ir` is `ir₀` with halt checks after the marked safepoints; the block `u`
    of `ir₀` now ends in `last u`. -/
structure Refines (ir₀ ir : ExecIrBuilder) (marked : Finset Stmt)
    (last : Block → Block) : Prop where
  stmts : ir₀.stmts <+: ir.stmts
  newStmts : ∀ s, ir₀.stmts.length ≤ s → ir.isSafepoint s = false
  ssaValues : ir₀.ssaValues <+: ir.ssaValues
  blocks : ir₀.blocks.length ≤ ir.blocks.length
  covers : ∀ u < ir₀.blocks.length, Covers ir₀ ir marked u (ir₀.blockD u).stmts (last u)
  parameters : ∀ u < ir₀.blocks.length, (ir.blockD u).parameters = (ir₀.blockD u).parameters
  terminator : ∀ u < ir₀.blocks.length, (ir.blockD (last u)).terminator = (ir₀.blockD u).terminator
  last_lt : ∀ u < ir₀.blocks.length, last u < ir.blocks.length
  last_inj : ∀ u < ir₀.blocks.length, ∀ v < ir₀.blocks.length, last u = last v → u = v
  marked : ∀ s ∈ marked, ir₀.isSafepoint s = true
  leave : ∀ l, ir.leaveAndTakeHalt = some l → l ≠ 0 ∧ l < ir.blocks.length ∧
    ∃ take v, LeaveBlock ir l take v ∧ ir₀.stmts.length ≤ take ∧ ir₀.ssaValues.length ≤ v

theorem isSafepoint_lt {ir : ExecIrBuilder} {s : Stmt} (h : ir.isSafepoint s = true) :
    s < ir.stmts.length := by
  unfold ExecIrBuilder.isSafepoint at h
  by_contra hge
  rw [List.getElem?_eq_none (Nat.le_of_not_lt hge)] at h
  cases h

/-- The statements of a shorter arena mean the same in a longer one. -/
theorem isSafepoint_of_stmts {ir ir' : ExecIrBuilder} (h : ir.stmts <+: ir'.stmts) {s : Stmt}
    (hs : s < ir.stmts.length) : ir'.isSafepoint s = ir.isSafepoint s := by
  have hget := List.getElem?_eq_getElem hs
  unfold ExecIrBuilder.isSafepoint
  rw [hget, getElem?_of_isPrefix h hget]

theorem Refines.isSafepoint_eq {ir₀ ir : ExecIrBuilder} {marked : Finset Stmt}
    {last : Block → Block}
    (h : Refines ir₀ ir marked last) (s : Stmt) : ir.isSafepoint s = ir₀.isSafepoint s := by
  by_cases hs : s < ir₀.stmts.length
  · exact isSafepoint_of_stmts h.stmts hs
  · rw [h.newStmts s (Nat.le_of_not_lt hs)]
    cases hsp : ir₀.isSafepoint s with
    | false => rfl
    | true => exact absurd (isSafepoint_lt hsp) hs

/-- Every builder refines itself. -/
theorem Refines.refl {ir : ExecIrBuilder} (hleave : ir.leaveAndTakeHalt = none) :
    Refines ir ir ∅ id where
  stmts := List.prefix_refl _
  newStmts s hs := by
    cases hsp : ir.isSafepoint s with
    | false => rfl
    | true => exact absurd (isSafepoint_lt hsp) (Nat.not_lt.2 hs)
  ssaValues := List.prefix_refl _
  blocks := le_refl _
  covers u hu := by
    have hget := List.getElem?_eq_getElem hu
    exact .last hget (congrArg BlockData.stmts (blockD_eq hget)).symm (by simp)
  parameters _ _ := rfl
  terminator _ _ := rfl
  last_lt _ hu := hu
  last_inj _ _ _ _ h := h
  marked := by simp
  leave l hl := by
    rw [hleave] at hl
    cases hl

/-! ## One more halt check -/

section Split

variable {ir₀ ir ir' : ExecIrBuilder} {block : Block} {data : BlockData} {i : ℕ} {leave : Block}
  {load stmt : Stmt} {reason : SSAValue} {marked : Finset Stmt} {last : Block → Block}

/-- The place of a safepoint: the `i`-th statement of `block`, and no other one. -/
structure OnlyAt (ir : ExecIrBuilder) (stmt : Stmt) (block : Block) (data : BlockData)
    (i : ℕ) : Prop where
  safepoint : ir.isSafepoint stmt = true
  get : ir.blocks[block]? = some data
  here : data.stmts[i]? = some stmt
  only : ∀ b d j, ir.blocks[b]? = some d → d.stmts[j]? = some stmt → b = block ∧ j = i

/-- Where an original block ends after the split of `block`. -/
def moveLast (ir : ExecIrBuilder) (block : Block) (b : Block) : Block :=
  if b = block then ir.blocks.length else b

/-- The two sides of the safepoint that a block is split after. -/
theorem OnlyAt.split_stmts (h : OnlyAt ir stmt block data i) :
    data.stmts = data.stmts.take i ++ stmt :: data.stmts.drop (i + 1) ∧
      data.stmts.take (i + 1) = data.stmts.take i ++ [stmt] := by
  have hlt : i < data.stmts.length := (List.getElem?_eq_some_iff.1 h.here).1
  have hget : data.stmts[i] = stmt := (List.getElem?_eq_some_iff.1 h.here).2
  constructor
  · rw [← hget, List.cons_getElem_drop_succ, List.take_append_drop]
  · rw [← hget, List.take_concat_get' _ _ hlt]

/-- The safepoint is in its own block only. -/
theorem OnlyAt.notMem (h : OnlyAt ir stmt block data i) {b : Block} {d : BlockData}
    (hd : ir.blocks[b]? = some d) (hne : b ≠ block) : stmt ∉ d.stmts := by
  intro hmem
  obtain ⟨j, hj⟩ := List.getElem?_of_mem hmem
  exact hne (h.only b d j hd hj).1

/-- The statements of a part that is not split stay unmarked. -/
theorem unmarked_insert {l : List Stmt} (h : ∀ x ∈ l, x ∉ marked) (hs : stmt ∉ l) :
    ∀ x ∈ l, x ∉ insert stmt marked := by
  intro x hx hmem
  rcases Finset.mem_insert.1 hmem with rfl | hold
  · exact hs hx
  · exact h x hx hold

theorem Covers.split (hs : Split ir ir' block data i leave load reason)
    (hat : OnlyAt ir stmt block data i) (hnot : stmt ∉ marked)
    (hstmts : ir₀.stmts <+: ir.stmts) (hnew : ∀ s, ir₀.stmts.length ≤ s → ir.isSafepoint s = false)
    (hvalues : ir₀.ssaValues.length ≤ ir.ssaValues.length) {b e : Block} {ss : List Stmt}
    (h : Covers ir₀ ir marked b ss e) :
    Covers ir₀ ir' (insert stmt marked) b ss (moveLast ir block e) := by
  obtain ⟨hsplit, htake⟩ := hat.split_stmts
  have hload : ir₀.stmts.length ≤ load := hstmts.length_le.trans hs.load_new
  have hreason : ir₀.ssaValues.length ≤ reason := hvalues.trans hs.reason_new
  -- the safepoint occurs once in its block
  have honce : stmt ∉ data.stmts.take i ∧ stmt ∉ data.stmts.drop (i + 1) := by
    constructor
    · intro hmem
      obtain ⟨j, hj⟩ := List.getElem?_of_mem hmem
      have hji : j < i := by
        have := (List.getElem?_eq_some_iff.1 hj).1
        rw [List.length_take] at this
        lia
      rw [List.getElem?_take_of_lt hji] at hj
      exact absurd (hat.only block data j hat.get hj).2 (Nat.ne_of_lt hji)
    · intro hmem
      obtain ⟨j, hj⟩ := List.getElem?_of_mem hmem
      rw [List.getElem?_drop] at hj
      have := (hat.only block data _ hat.get hj).2
      lia
  induction h with
  | @last b d ss hget hss hun =>
    by_cases hb : b = block
    · subst hb
      obtain rfl : d = data := Option.some.inj (hget.symm.trans hat.get)
      subst hss
      rw [hsplit] at hun
      have hsub : ∀ x ∈ d.stmts.take i, x ∉ marked := fun x hx => hun x (List.mem_append_left _ hx)
      have hrest : ∀ x ∈ d.stmts.drop (i + 1), x ∉ marked := fun x hx =>
        hun x (List.mem_append_right _ (List.mem_cons_of_mem _ hx))
      have hlast : Covers ir₀ ir' (insert stmt marked) ir.blocks.length (d.stmts.drop (i + 1))
          ir.blocks.length :=
        .last hs.continuation rfl (unmarked_insert hrest honce.2)
      unfold moveLast
      rw [if_pos rfl]
      exact .check hs.first (by rw [htake]; simp) (unmarked_insert hsub honce.1)
        (Finset.mem_insert_self _ _) hload hs.load_data hreason rfl hs.leave_eq hs.continuation rfl
        hlast hsplit
    · unfold moveLast
      rw [if_neg hb]
      refine .last ((hs.others b (List.getElem?_eq_some_iff.1 hget).1 hb).trans hget) hss
        (unmarked_insert hun ?_)
      rw [← hss]
      exact hat.notMem hget hb
  | @check b c l e d next seg rest ss s load₀ reason₀ hget hss hun hmark hnew₀ hdata₀ hreason₀ hterm
      hleave hnext hparams hcov hsplit₀ ih =>
    obtain ⟨next', hnext', hparams'⟩ := hs.parameters hnext
    rw [hparams] at hparams'
    have hdata' := getElem?_of_isPrefix hs.stmts hdata₀
    have hmark' := Finset.mem_insert_of_mem (a := s) (b := stmt) hmark
    by_cases hb : b = block
    · -- the part that is split ends in a halt check of its own
      subst hb
      obtain rfl : d = data := Option.some.inj (hget.symm.trans hat.get)
      have hi : i < seg.length := by
        by_contra hge
        have hstmt := hat.here
        rw [hss, List.getElem?_append_right (Nat.le_of_not_lt hge)] at hstmt
        rcases hk : i - seg.length with _ | _ | k
        · rw [hk] at hstmt
          obtain rfl : s = stmt := by simpa using hstmt
          exact hnot hmark
        · rw [hk] at hstmt
          obtain rfl : load₀ = stmt := by simpa using hstmt
          have := hat.safepoint
          rw [hnew load₀ hnew₀] at this
          cases this
        · rw [hk] at hstmt
          simp at hstmt
      have htakeSeg : d.stmts.take i = seg.take i := by
        rw [hss, List.take_append_of_le_length (Nat.le_of_lt hi)]
      have hdropSeg : d.stmts.drop (i + 1) = seg.drop (i + 1) ++ [s, load₀] := by
        rw [hss, List.drop_append_of_le_length hi]
      have hseg : seg = seg.take i ++ stmt :: seg.drop (i + 1) := by
        have hstmt := hat.here
        rw [hss, List.getElem?_append_left hi] at hstmt
        rw [← (List.getElem?_eq_some_iff.1 hstmt).2, List.cons_getElem_drop_succ,
          List.take_append_drop]
      rw [htakeSeg, hdropSeg] at honce
      have hseg₁ : ∀ x ∈ seg.take i, x ∉ marked := fun x hx => hun x (List.mem_of_mem_take hx)
      have hseg₂ : ∀ x ∈ seg.drop (i + 1), x ∉ marked := fun x hx => hun x (List.mem_of_mem_drop hx)
      have hrest :
          Covers ir₀ ir' (insert stmt marked) ir.blocks.length (seg.drop (i + 1) ++ s :: rest)
          (moveLast ir b e) :=
        .check hs.continuation hdropSeg
          (unmarked_insert hseg₂ fun hmem => honce.2 (List.mem_append_left _ hmem)) hmark'
            hnew₀ hdata'
          hreason₀ hterm (hs.leave_of hleave) hnext' hparams' ih rfl
      refine .check hs.first (by rw [htake, htakeSeg]; simp) (unmarked_insert hseg₁ honce.1)
        (Finset.mem_insert_self _ _) hload hs.load_data hreason rfl hs.leave_eq hs.continuation rfl
        hrest ?_
      rw [hsplit₀]
      nth_rewrite 1 [hseg]
      simp
    · have hget' := (hs.others b (List.getElem?_eq_some_iff.1 hget).1 hb).trans hget
      refine .check hget' hss (unmarked_insert hun fun hmem => ?_) hmark' hnew₀ hdata'
        hreason₀ hterm
        (hs.leave_of hleave) hnext' hparams' ih hsplit₀
      refine hat.notMem hget hb ?_
      rw [hss]
      exact List.mem_append_left _ hmem

/-- The block to leave by has no safepoint, so it is never split. -/
theorem LeaveBlock.split {take : Stmt} {v : SSAValue} {l : Block} (h : LeaveBlock ir l take v)
    (hs : Split ir ir' block data i leave load reason) (hat : OnlyAt ir stmt block data i)
    (htake : ir.isSafepoint take = false) : LeaveBlock ir' l take v := by
  obtain ⟨d, hd, hparams, hstmts, hterm⟩ := h.block
  have hne : l ≠ block := by
    rintro rfl
    obtain rfl : d = data := Option.some.inj (hd.symm.trans hat.get)
    have hmem := List.mem_of_getElem? hat.here
    rw [hstmts, List.mem_singleton] at hmem
    subst hmem
    rw [hat.safepoint] at htake
    cases htake
  refine ⟨⟨d, ?_, hparams, hstmts, hterm⟩, getElem?_of_isPrefix hs.stmts h.take⟩
  rw [hs.others l (List.getElem?_eq_some_iff.1 hd).1 hne]
  exact hd

/-- A halt check after an unmarked safepoint, wherever it stands by now. -/
theorem Refines.split (h : Refines ir₀ ir marked last)
    (hs : Split ir ir' block data i leave load reason) (hat : OnlyAt ir stmt block data i)
    (hnot : stmt ∉ marked) :
    Refines ir₀ ir' (insert stmt marked) fun u => moveLast ir block (last u) where
  stmts := h.stmts.trans hs.stmts
  newStmts s hge := by
    by_cases hlt : s < ir.stmts.length
    · rw [isSafepoint_of_stmts hs.stmts hlt]
      exact h.newStmts s hge
    · exact hs.notSafepoint s (Nat.le_of_not_lt hlt)
  ssaValues := h.ssaValues.trans hs.ssaValues
  blocks := h.blocks.trans (Nat.le_of_lt hs.grows)
  covers u hu := (h.covers u hu).split hs hat hnot h.stmts h.newStmts h.ssaValues.length_le
  parameters u hu := by
    have hget := List.getElem?_eq_getElem (lt_of_lt_of_le hu h.blocks)
    obtain ⟨d, hd, hparams⟩ := hs.parameters hget
    rw [blockD_eq hd, hparams, ← h.parameters u hu, blockD_eq hget]
  terminator u hu := by
    rw [← h.terminator u hu]
    unfold moveLast
    split_ifs with hb
    · rw [blockD_eq hs.continuation, hb, blockD_eq hs.get]
    · have hget := List.getElem?_eq_getElem (h.last_lt u hu)
      rw [blockD_eq hget, blockD_eq ((hs.others _ (h.last_lt u hu) hb).trans hget)]
  last_lt u hu := by
    unfold moveLast
    split_ifs
    · exact hs.grows
    · exact (h.last_lt u hu).trans hs.grows
  last_inj u hu v hv heq := by
    have hult := h.last_lt u hu
    have hvlt := h.last_lt v hv
    refine h.last_inj u hu v hv ?_
    unfold moveLast at heq
    split_ifs at heq with h₁ h₂ h₃
    · rw [h₁, h₂]
    · exact absurd heq (Nat.ne_of_gt hvlt)
    · exact absurd heq (Nat.ne_of_lt hult)
    · exact heq
  marked s hmem := by
    rcases Finset.mem_insert.1 hmem with rfl | hold
    · rw [← h.isSafepoint_eq]
      exact hat.safepoint
    · exact h.marked s hold
  leave l hl := by
    rw [hs.leave_eq, Option.some.injEq] at hl
    subst hl
    rcases hs.leave_old with hold | ⟨-, hgt, take, v, hleave, htake, hv⟩
    · obtain ⟨hne, hlt, take, v, hleave, htake, hv⟩ := h.leave leave hold
      exact ⟨hne, hlt.trans hs.grows, take, v,
        LeaveBlock.split hleave hs hat (h.newStmts take htake), htake, hv⟩
    · obtain ⟨d, hd, -⟩ := hleave.block
      exact ⟨Nat.ne_of_gt (Nat.zero_lt_of_lt hgt), (List.getElem?_eq_some_iff.1 hd).1,
        take, v, hleave, h.stmts.length_le.trans htake, h.ssaValues.length_le.trans hv⟩

end Split

end RapidArm.HaltCheck
