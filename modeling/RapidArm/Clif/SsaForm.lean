import RapidArm.Clif.Agreement
import RapidArm.HaltCheck.Insertions

/-!
# SSA form while halt checks are inserted

What the lowering relies on, but for dominance, stays true while halt checks are inserted: each
insertion splits a block and adds a statement, a value and, the first time, the block to leave by.

Results:
* `SsaForm.grown`: what is left to show of a function that has grown.
* `SsaForm.insertHaltCheckAt`: an insertion keeps SSA form and the types.
-/

namespace RapidArm.Clif

open RapidArm.Ir RapidArm.Lib RapidArm.Backend RapidArm.HaltCheck

/-! ## SSA form and types -/

/-- What is true of a typed function in SSA form, also between two insertions. -/
structure SsaForm (ir : ExecIrBuilder) : Prop where
  arguments : Arg.haltReasonPtr.asSSAValue ∈ (ir.blockD Block.ENTRYPOINT).parameters
  blocks : ∀ data ∈ ir.blocks, data.WF ir
  operands_lt : ∀ data ∈ ir.stmts, ∀ v ∈ data.rvalue.operands, v < ir.ssaValues.length
  nodup : (ir.blocks.flatMap BlockData.stmts).Nodup
  leave : ∀ l, ir.leaveAndTakeHalt = some l → l ≠ Block.ENTRYPOINT ∧
    ∃ data, ir.blocks[l]? = some data ∧ data.parameters = []
  single : SingleDefs ir
  stmtsTyped : ∀ data ∈ ir.stmts, StmtTyped ir data
  jumpsTyped : ∀ jump ∈ jumps ir, JumpTyped ir jump

/-- From `ir` to `ir'` values and statements were added, and no parameter of a block. -/
structure Grown (ir ir' : ExecIrBuilder) : Prop where
  ssaValues : ir.ssaValues <+: ir'.ssaValues
  stmts : ir.stmts <+: ir'.stmts
  blocks : ir.blocks.length ≤ ir'.blocks.length
  tags : ∀ v, isTag ir' v = isTag ir v
  parameters : ∀ (b : Block) (data : BlockData), ir.blocks[b]? = some data →
    ∃ data', ir'.blocks[b]? = some data' ∧ data'.parameters = data.parameters

/-- New values change no type. -/
theorem typeOf_of_isPrefix {ir ir' : ExecIrBuilder} (h : ir.ssaValues <+: ir'.ssaValues)
    {rvalue : StmtKind}
    {tys : List TypeFull} (hty : ir.typeOf rvalue = .ok tys) : ir'.typeOf rvalue = .ok tys := by
  have hget : ∀ {v : SSAValue} {ty : TypeFull}, arenaGet ir.ssaValues v = .ok ty →
      arenaGet ir'.ssaValues v = .ok ty := fun hv =>
    arenaGet_eq_ok.2 (getElem?_of_isPrefix h (arenaGet_eq_ok.1 hv))
  unfold ExecIrBuilder.typeOf at hty ⊢
  split at hty <;> first
    | exact hty
    | (obtain ⟨ty, hv, hty⟩ := bind_eq_ok.1 hty
       exact bind_eq_ok.2 ⟨ty, hget hv, hty⟩)

section Grown

variable {ir ir' : ExecIrBuilder} (h : Grown ir ir')

include h

theorem Grown.grows : RapidArm.Ir.Grows ir ir' :=
  ⟨h.ssaValues.length_le, h.blocks, h.stmts.length_le⟩

theorem Grown.value {v : SSAValue} (hv : v < ir.ssaValues.length) :
    ir'.ssaValues[v]? = ir.ssaValues[v]? := by
  rw [List.getElem?_eq_getElem hv]
  exact getElem?_of_isPrefix h.ssaValues (List.getElem?_eq_getElem hv)

theorem Grown.typeOf {rvalue : StmtKind} {tys : List TypeFull} (hty : ir.typeOf rvalue = .ok tys) :
    ir'.typeOf rvalue = .ok tys := typeOf_of_isPrefix h.ssaValues hty

theorem StmtTyped.grown {data : StmtData}
    (hops : ∀ v ∈ data.rvalue.operands, v < ir.ssaValues.length)
    (hdata : StmtTyped ir data) : StmtTyped ir' data where
  outputs := by
    obtain ⟨tys, htypeOf, htys⟩ := hdata.outputs
    exact ⟨tys, h.typeOf htypeOf, htys.imp fun _ _ hv => getElem?_of_isPrefix h.ssaValues hv⟩
  select cond ifTrue ifFalse hselect := by
    rw [hselect] at hops
    rw [h.value (hops ifTrue (by simp [StmtKind.operands])),
      h.value (hops ifFalse (by simp [StmtKind.operands]))]
    exact hdata.select cond ifTrue ifFalse hselect
  bitNot v hnot := by
    rw [hnot] at hops
    rw [h.value (hops v (by simp [StmtKind.operands]))]
    exact hdata.bitNot v hnot
  tags v hv := (h.tags v).trans (hdata.tags v hv)

theorem JumpTyped.grown {jump : Jump} {target : BlockData}
    (hget : ir.blocks[jump.target]? = some target)
    (hparams : ∀ v ∈ target.parameters, v < ir.ssaValues.length)
    (hargs : ∀ v ∈ jump.parameters, v < ir.ssaValues.length) (hjump : JumpTyped ir jump) :
    JumpTyped ir' jump where
  types data hdata := by
    obtain ⟨data', hdata', heq⟩ := h.parameters _ target hget
    obtain rfl := Option.some.inj (hdata'.symm.trans hdata)
    rw [heq]
    have htypes := hjump.types target hget
    refine List.forall₂_iff_zip.2 ⟨htypes.length_eq, fun {p v} hmem => ?_⟩
    have hpv := List.of_mem_zip hmem
    rw [h.value (hparams p hpv.1), h.value (hargs v hpv.2)]
    exact (List.forall₂_iff_zip.1 htypes).2 hmem
  tags v hv := (h.tags v).trans (hjump.tags v hv)

end Grown

/-- The jump passes nothing, to a block without parameters. -/
def Plain (ir : ExecIrBuilder) (jump : Jump) : Prop :=
  jump.parameters = [] ∧ ∃ target, ir.blocks[jump.target]? = some target ∧ target.parameters = []

theorem Plain.grown {ir ir' : ExecIrBuilder} (hg : Grown ir ir') {jump : Jump} (h : Plain ir jump) :
    Plain ir' jump := by
  obtain ⟨hargs, target, hget, hparams⟩ := h
  obtain ⟨target', hget', heq⟩ := hg.parameters _ target hget
  exact ⟨hargs, target', hget', heq.trans hparams⟩

theorem Plain.typed {ir : ExecIrBuilder} {jump : Jump} (h : Plain ir jump) : JumpTyped ir jump := by
  obtain ⟨hargs, target, hget, hparams⟩ := h
  refine ⟨fun data hdata => ?_, by simp [hargs]⟩
  obtain rfl := Option.some.inj (hget.symm.trans hdata)
  rw [hargs, hparams]
  exact List.Forall₂.nil

/-- A jump of a function leads to one of its blocks, with values of the function. -/
theorem SsaForm.jump {ir : ExecIrBuilder} (h : SsaForm ir) {jump : Jump} (hjump : jump ∈ jumps ir) :
    (∃ target, ir.blocks[jump.target]? = some target ∧ ∀ v ∈ target.parameters,
      v < ir.ssaValues.length) ∧
      ∀ v ∈ jump.parameters, v < ir.ssaValues.length := by
  obtain ⟨data, hdata, hmem⟩ := List.mem_flatMap.1 hjump
  have hwf := h.blocks data hdata
  have hlt := (hwf.targets jump.target (Terminator.mem_blockTargets.2 ⟨jump, hmem, rfl⟩)).2
  refine ⟨⟨_, List.getElem?_eq_getElem hlt, ?_⟩, fun v hv => hwf.operands_lt v ?_⟩
  · exact (h.blocks _ (List.getElem_mem hlt)).parameters_lt
  · cases hterm : data.terminator with
    | ret | returnCode =>
      rw [hterm] at hmem
      cases hmem
    | br jump' =>
      rw [hterm] at hmem
      obtain rfl := List.mem_singleton.1 hmem
      exact hv
    | brZ cond zero nonZero =>
      rw [hterm] at hmem
      rcases List.mem_pair.1 hmem with rfl | rfl <;> simp [Terminator.operands, hv]

/-- What is left to show of a function that has grown. -/
theorem SsaForm.grown {ir ir' : ExecIrBuilder} (h : SsaForm ir) (hg : Grown ir ir')
    (hblocks : ∀ data ∈ ir'.blocks, data.WF ir')
    (hstmts : ∀ data ∈ ir'.stmts, data ∈ ir.stmts ∨ data.rvalue.operands = [] ∧ StmtTyped ir' data)
    (hnodup : (ir'.blocks.flatMap BlockData.stmts).Nodup)
    (hleave : ∀ l, ir'.leaveAndTakeHalt = some l → ir.leaveAndTakeHalt = some l ∨
      l ≠ Block.ENTRYPOINT ∧ ∃ data, ir'.blocks[l]? = some data ∧ data.parameters = [])
    (hsingle : SingleDefs ir') (hjumps : ∀ jump ∈ jumps ir', jump ∈ jumps ir ∨ Plain ir' jump) :
    SsaForm ir' where
  arguments := by
    obtain ⟨data, hdata, hmem⟩ := blockD_parameters h.arguments
    obtain ⟨data', hdata', heq⟩ := hg.parameters _ data hdata
    rw [blockD_eq hdata', heq]
    exact hmem
  blocks := hblocks
  operands_lt data hdata v hv := by
    rcases hstmts data hdata with hold | ⟨hnil, -⟩
    · exact lt_of_lt_of_le (h.operands_lt data hold v hv) hg.ssaValues.length_le
    · rw [hnil] at hv
      cases hv
  nodup := hnodup
  leave l hl := by
    rcases hleave l hl with hold | hnew
    · obtain ⟨hne, data, hdata, hparams⟩ := h.leave l hold
      obtain ⟨data', hdata', heq⟩ := hg.parameters l data hdata
      exact ⟨hne, data', hdata', heq.trans hparams⟩
    · exact hnew
  single := hsingle
  stmtsTyped data hdata := by
    rcases hstmts data hdata with hold | ⟨-, hnew⟩
    · exact StmtTyped.grown hg (h.operands_lt data hold) (h.stmtsTyped data hold)
    · exact hnew
  jumpsTyped jump hjump := by
    rcases hjumps jump hjump with hold | hnew
    · obtain ⟨⟨target, hget, hparams⟩, hargs⟩ := h.jump hold
      exact JumpTyped.grown hg hget hparams hargs (h.jumpsTyped jump hold)
    · exact hnew.typed

/-! ## One insertion -/

section Insertion

variable {ir : ExecIrBuilder} {block : Block} {data data' : BlockData}

/-- The statements of a builder without operands and tags are not tags. -/
theorem isTag_append {b b' : ExecIrBuilder} {new : List StmtData} (h : b'.stmts = b.stmts ++ new)
    (hnew : ∀ data ∈ new, isHasTag data.rvalue = false) (v : SSAValue) :
    isTag b' v = isTag b v := by
  unfold isTag
  rw [h, List.any_append]
  have hnone : (new.any fun data => isHasTag data.rvalue && data.outputs.contains v) = false := by
    refine List.any_eq_false.2 fun data hdata => ?_
    rw [hnew data hdata]
    simp
  rw [hnone, Bool.or_false]

/-- All values are defined before the next one. -/
theorem SsaForm.defs_lt (h : SsaForm ir) :
    ∀ v ∈ ir.blocks.flatMap BlockData.parameters ++ ir.stmts.flatMap StmtData.outputs,
      v < ir.ssaValues.length := by
  intro v hv
  rcases List.mem_append.1 hv with hv | hv
  · obtain ⟨data, hdata, hv⟩ := List.mem_flatMap.1 hv
    exact (h.blocks data hdata).parameters_lt v hv
  · obtain ⟨data, hdata, hv⟩ := List.mem_flatMap.1 hv
    obtain ⟨tys, -, htys⟩ := (h.stmtsTyped data hdata).outputs
    generalize data.outputs = outputs at hv htys
    induction htys with
    | nil => cases hv
    | cons hty _ ih =>
      rcases List.mem_cons.1 hv with rfl | hv
      · exact getElem?_eq_some_lt hty
      · exact ih hv

theorem getElem?_set_parameters (hdata : ir.blocks[block]? = some data)
    (hparams : data'.parameters = data.parameters) {b : Block} {d : BlockData}
    (hd : ir.blocks[b]? = some d) :
    ∃ d', (ir.blocks.set block data')[b]? = some d' ∧ d'.parameters = d.parameters := by
  by_cases hb : block = b
  · subst hb
    obtain rfl := Option.some.inj (hd.symm.trans hdata)
    exact ⟨data', List.getElem?_set_self (getElem?_eq_some_lt hd), hparams⟩
  · exact ⟨d, (List.getElem?_set_ne hb).trans hd, rfl⟩

/-- The parameters of the blocks after one of them was changed. -/
theorem parameters_set_perm (hdata : ir.blocks[block]? = some data)
    (hparams : data'.parameters = data.parameters) :
    ((ir.blocks.set block data').flatMap BlockData.parameters).Perm
    (ir.blocks.flatMap BlockData.parameters) := by
  have hperm := flatMap_set_perm (y := data') (f := BlockData.parameters) (z := []) hdata
    (by rw [hparams, List.append_nil])
  rwa [List.append_nil] at hperm

theorem SingleDefs.perm {ir' : ExecIrBuilder} (h : SingleDefs ir)
    (hparams :
      (ir'.blocks.flatMap BlockData.parameters).Perm (ir.blocks.flatMap BlockData.parameters))
    (hstmts : ir'.stmts = ir.stmts) : SingleDefs ir' := by
  unfold SingleDefs
  rw [hstmts]
  exact (hparams.append_right _).nodup_iff.2 h

/-- Another terminator. -/
theorem SsaForm.setTerminator (h : SsaForm ir) (hdata : ir.blocks[block]? = some data)
    (hparams : data'.parameters = data.parameters) (hstmts : data'.stmts = data.stmts)
    (hwf : data'.WF ir)
    (hjumps : ∀ jump ∈ data'.terminator.targets, jump ∈ jumps ir ∨ Plain ir jump) :
    SsaForm { ir with blocks := ir.blocks.set block data' } := by
  have hlen : (ir.blocks.set block data').length = ir.blocks.length := List.length_set
  have hgrown : Grown ir { ir with blocks := ir.blocks.set block data' } :=
    ⟨List.prefix_refl _, List.prefix_refl _, hlen.ge, fun _ => rfl,
      fun _ _ => getElem?_set_parameters hdata hparams⟩
  refine h.grown hgrown ?_ (fun _ hd => .inl hd) ?_ (fun _ hl => .inl hl)
    (h.single.perm (parameters_set_perm hdata hparams) rfl) ?_
  · intro d hd
    rcases List.mem_or_eq_of_mem_set hd with hd | rfl
    · exact (h.blocks d hd).mono hgrown.grows
    · exact hwf.mono hgrown.grows
  · have hperm := flatMap_set_perm (y := data') (f := BlockData.stmts) (z := []) hdata
      (by rw [hstmts, List.append_nil])
    rw [List.append_nil] at hperm
    exact hperm.nodup_iff.2 h.nodup
  · intro jump hjump
    obtain ⟨d, hd, hmem⟩ := List.mem_flatMap.1 hjump
    rcases List.mem_or_eq_of_mem_set hd with hd | rfl
    · exact .inl (List.mem_flatMap.2 ⟨d, hd, hmem⟩)
    · exact (hjumps jump hmem).imp_right fun hplain => hplain.grown hgrown

/-- A new block. -/
theorem SsaForm.createBlock (h : SsaForm ir) :
    SsaForm { ir with blocks := ir.blocks ++ [BlockData.empty] } := by
  have hgrown : Grown ir { ir with blocks := ir.blocks ++ [BlockData.empty] } := by
    refine ⟨List.prefix_refl _, List.prefix_refl _, ?_, fun _ => rfl, fun b d hd => ⟨d, ?_, rfl⟩⟩
    · rw [List.length_append]
      exact Nat.le_add_right _ _
    · rw [List.getElem?_append_left (getElem?_eq_some_lt hd)]
      exact hd
  refine h.grown hgrown ?_ (fun _ hd => .inl hd) ?_ (fun _ hl => .inl hl) (h.single.perm ?_ rfl) ?_
  · intro d hd
    rcases List.mem_append.1 hd with hd | hd
    · exact (h.blocks d hd).mono hgrown.grows
    · rw [List.mem_singleton.1 hd]
      exact BlockData.empty_wf _
  · rw [List.flatMap_append, List.flatMap_singleton]
    simpa [BlockData.empty] using h.nodup
  · rw [List.flatMap_append, List.flatMap_singleton]
    simp [BlockData.empty]
  · intro jump hjump
    obtain ⟨d, hd, hmem⟩ := List.mem_flatMap.1 hjump
    rcases List.mem_append.1 hd with hd | hd
    · exact .inl (List.mem_flatMap.2 ⟨d, hd, hmem⟩)
    · rw [List.mem_singleton.1 hd] at hmem
      cases hmem

/-- The block to leave by. -/
theorem SsaForm.setLeave (h : SsaForm ir) (hdata : ir.blocks[block]? = some data)
    (hparams : data.parameters = []) (hne : block ≠ Block.ENTRYPOINT) :
    SsaForm { ir with leaveAndTakeHalt := some block } := by
  refine h.grown ⟨List.prefix_refl _, List.prefix_refl _, le_refl _, fun _ => rfl,
    fun _ d hd => ⟨d, hd, rfl⟩⟩
    (fun d hd => (h.blocks d hd).mono ⟨le_refl _, le_refl _, le_refl _⟩) (fun _ hd =>
      .inl hd) h.nodup ?_
    h.single (fun _ hjump => .inl hjump)
  intro l hl
  obtain rfl := Option.some.inj hl
  exact .inr ⟨hne, data, hdata, hparams⟩

/-- A statement without operands and with one output. -/
theorem SsaForm.pushStmt (h : SsaForm ir) (hdata : ir.blocks[block]? = some data)
    {rvalue : StmtKind} {ty : TypeFull}
    (hrvalue : rvalue = .loadHaltReason ∨ rvalue = .takeHaltReason) (hty : ty = .int .w32) :
    SsaForm (ir.pushStmt block data [ty] rvalue) := by
  have hops : rvalue.operands = [] := by rcases hrvalue with rfl | rfl <;> rfl
  have htag : isHasTag rvalue = false := by rcases hrvalue with rfl | rfl <;> rfl
  have huses : valueOperands rvalue = [Arg.haltReasonPtr.asSSAValue] := by
    rcases hrvalue with rfl | rfl <;> rfl
  have htypeOf : ∀ b : ExecIrBuilder, b.typeOf rvalue = .ok [ty] := by
    subst hty
    rcases hrvalue with rfl | rfl <;> exact fun _ => rfl
  have hgrown : Grown ir (ir.pushStmt block data [ty] rvalue) := by
    refine ⟨List.prefix_append _ _, List.prefix_append _ _, List.length_set.ge, ?_,
      fun _ _ hd => ?_⟩
    · exact isTag_append rfl (by simpa using htag)
    · exact @getElem?_set_parameters ir block data
        { data with stmts := data.stmts ++ [ir.stmts.length] }
        hdata rfl _ _ hd
  have hparams :=
    @parameters_set_perm ir block data { data with stmts := data.stmts ++ [ir.stmts.length] }
    hdata rfl
  have hwf := h.blocks data (List.mem_of_getElem? hdata)
  refine h.grown hgrown ?_ ?_ ?_ (fun _ hl => .inl hl) ?_ ?_
  · intro d hd
    rcases List.mem_or_eq_of_mem_set hd with hd | rfl
    · exact (h.blocks d hd).mono hgrown.grows
    · have hwf' := hwf.mono hgrown.grows
      refine ⟨fun s hs => ?_, hwf'.targets, hwf'.operands_lt, hwf'.parameters_lt,
        hwf'.parameters_nodup⟩
      rcases List.mem_append.1 hs with hs | hs
      · exact hwf'.stmts_lt s hs
      · rw [List.mem_singleton.1 hs]
        simp [ExecIrBuilder.pushStmt]
  · intro d hd
    rcases List.mem_append.1 hd with hd | hd
    · exact .inl hd
    · obtain rfl := List.mem_singleton.1 hd
      refine .inr ⟨hops, ⟨[ty], htypeOf _, ?_⟩, ?_, ?_, ?_⟩
      · simp [ExecIrBuilder.pushStmt]
      · intro cond ifTrue ifFalse hselect
        rw [show rvalue = .select cond ifTrue ifFalse from hselect] at hops
        cases hops
      · intro v hnot
        rw [show rvalue = .bitNot v from hnot] at hops
        cases hops
      · intro v hv
        rw [show valueOperands rvalue = _ from huses, List.mem_singleton] at hv
        rw [hv, hgrown.tags]
        exact h.single.isTag_parameter h.arguments
  · have hperm := flatMap_set_perm (y := { data with stmts := data.stmts ++ [ir.stmts.length] })
      (f := BlockData.stmts) (z := [ir.stmts.length]) hdata (List.Perm.refl _)
    refine hperm.nodup_iff.2 (List.nodup_append.2 ⟨h.nodup, List.nodup_singleton _, ?_⟩)
    rintro s hs s' hs' rfl
    obtain ⟨d, hd, hs⟩ := List.mem_flatMap.1 hs
    exact absurd (List.mem_singleton.1 hs') (Nat.ne_of_lt ((h.blocks d hd).stmts_lt s hs))
  · have hnew : (ir.pushStmt block data [ty] rvalue).stmts.flatMap StmtData.outputs =
        ir.stmts.flatMap StmtData.outputs ++ [ir.ssaValues.length] := by
      simp [ExecIrBuilder.pushStmt, List.flatMap_append]
    unfold SingleDefs
    rw [hnew, ← List.append_assoc]
    refine ((hparams.append_right _).append_right _).nodup_iff.2 ?_
    refine List.nodup_append.2 ⟨h.single, List.nodup_singleton _, ?_⟩
    rintro v hv v' hv' rfl
    exact absurd (List.mem_singleton.1 hv') (Nat.ne_of_lt (h.defs_lt v hv))
  · intro jump hjump
    obtain ⟨d, hd, hmem⟩ := List.mem_flatMap.1 hjump
    rcases List.mem_or_eq_of_mem_set hd with hd | rfl
    · exact .inl (List.mem_flatMap.2 ⟨d, hd, hmem⟩)
    · exact .inl (List.mem_flatMap.2 ⟨data, List.mem_of_getElem? hdata, hmem⟩)

/-- The split of a block. -/
theorem SsaForm.splitOff (h : SsaForm ir) (hdata : ir.blocks[block]? = some data) (n : ℕ) :
    SsaForm (ir.splitOff block data n) := by
  have hwf := h.blocks data (List.mem_of_getElem? hdata)
  have hlt := getElem?_eq_some_lt hdata
  let first : BlockData := { data with stmts := data.stmts.take n, terminator := .ret }
  let rest : BlockData :=
    { parameters := [], stmts := data.stmts.drop n, terminated := data.terminated,
                            terminator := data.terminator, isCold := data.isCold }
  have hmem : ∀ d ∈ (ir.splitOff block data n).blocks, d ∈ ir.blocks ∨ d = first ∨ d = rest := by
    intro d hd
    rcases List.mem_append.1 hd with hd | hd
    · rcases List.mem_or_eq_of_mem_set hd with hd | hd
      · exact .inl hd
      · exact .inr (.inl hd)
    · exact .inr (.inr (List.mem_singleton.1 hd))
  have hgrown : Grown ir (ir.splitOff block data n) := by
    refine ⟨List.prefix_refl _, List.prefix_refl _, by simp [ExecIrBuilder.splitOff],
      fun _ => rfl, ?_⟩
    intro b d hd
    obtain ⟨d', hd', hparams⟩ := @getElem?_set_parameters ir block data first hdata rfl b d hd
    exact ⟨d', (List.getElem?_append_left (getElem?_eq_some_lt hd')).trans hd', hparams⟩
  refine h.grown hgrown ?_ (fun _ hd => .inl hd) ?_ (fun _ hl => .inl hl) (h.single.perm ?_ rfl) ?_
  · intro d hd
    rcases hmem d hd with hd | rfl | rfl
    · exact (h.blocks d hd).mono hgrown.grows
    · exact BlockData.WF.mono ⟨fun s hs => hwf.stmts_lt s (List.mem_of_mem_take hs),
        by simp [first, Terminator.blockTargets, Terminator.targets],
        by simp [first, Terminator.operands], hwf.parameters_lt, hwf.parameters_nodup⟩ hgrown.grows
    · exact BlockData.WF.mono ⟨fun s hs => hwf.stmts_lt s (List.mem_of_mem_drop hs), hwf.targets,
        hwf.operands_lt, by simp [rest], List.nodup_nil⟩ hgrown.grows
  · -- the two parts have the statements of the block
    have hperm := flatMap_set_perm (y := data) (f := BlockData.stmts) (z := data.stmts.drop n)
      (List.getElem?_set_self (a := first) hlt) (by
        rw [show first.stmts = data.stmts.take n from rfl, List.take_append_drop])
    rw [List.set_set, ← (List.getElem?_eq_some_iff.1 hdata).2, List.set_getElem_self] at hperm
    rw [(List.getElem?_eq_some_iff.1 hdata).2] at hperm
    refine (List.Perm.nodup_iff (List.Perm.of_eq ?_)).1 (hperm.nodup_iff.1 h.nodup)
    simp only [ExecIrBuilder.splitOff, List.flatMap_append, List.flatMap_singleton]
    rfl
  · simp only [ExecIrBuilder.splitOff, List.flatMap_append, List.flatMap_singleton, List.append_nil]
    exact @parameters_set_perm ir block data first hdata rfl
  · intro jump hjump
    obtain ⟨d, hd, hmem'⟩ := List.mem_flatMap.1 hjump
    rcases hmem d hd with hd | rfl | rfl
    · exact .inl (List.mem_flatMap.2 ⟨d, hd, hmem'⟩)
    · cases hmem'
    · exact .inl (List.mem_flatMap.2 ⟨data, List.mem_of_getElem? hdata, hmem'⟩)

/-- The block to leave by. -/
theorem SsaForm.withLeaveBlock (h : SsaForm ir) : SsaForm (withLeaveBlock ir) := by
  have hlast : ∀ d : BlockData, (ir.blocks ++ [d])[ir.blocks.length]? = some d :=
    fun _ => List.getElem?_concat_length
  have hpushed := h.createBlock.pushStmt (hlast _) (.inr rfl) rfl
  have hget :
      (ExecIrBuilder.pushStmt { ir with blocks := ir.blocks ++ [BlockData.empty] } ir.blocks.length
      BlockData.empty [.int .w32] .takeHaltReason).blocks[ir.blocks.length]? =
        some { BlockData.empty with stmts := [ir.stmts.length] } := by
    simp only [ExecIrBuilder.pushStmt, set_append_length]
    exact hlast _
  have hpos := getElem?_eq_some_lt (blockD_parameters h.arguments).choose_spec.1
  have hwf := hpushed.blocks _ (List.mem_of_getElem? hget)
  have hset := @SsaForm.setTerminator _ ir.blocks.length _ {
    parameters := []
    stmts := [ir.stmts.length]
    terminated := true
    terminator := .returnCode ir.ssaValues.length
    isCold := true } hpushed hget rfl rfl ?_ (by simp [Terminator.targets])
  · have hleave :=
      @SsaForm.setLeave _ ir.blocks.length _ hset
        (List.getElem?_set_self (getElem?_eq_some_lt hget))
      rfl (Nat.ne_of_gt hpos)
    simpa [ExecIrBuilder.pushStmt, set_append_length, Ir.withLeaveBlock] using hleave
  · refine ⟨hwf.stmts_lt, by simp [Terminator.blockTargets, Terminator.targets], ?_, by
      simp, List.nodup_nil⟩
    simp [Terminator.operands, ExecIrBuilder.pushStmt]

/-- The load of the halt reason, and the branch on it. -/
theorem SsaForm.branchOnHalt (h : SsaForm ir) (hdata : ir.blocks[block]? = some data)
    {next leave : Block} (hnext : Plain ir ⟨next, []⟩) (hleave : Plain ir ⟨leave, []⟩)
    (hne : next ≠ Block.ENTRYPOINT ∧ leave ≠ Block.ENTRYPOINT) {stmts : List Stmt}
    (hstmts : stmts = data.stmts ++ [ir.stmts.length]) :
    SsaForm { ir with
      ssaValues := ir.ssaValues ++ [.int .w32]
      stmts := ir.stmts ++ [⟨[ir.ssaValues.length], .loadHaltReason⟩]
      blocks := ir.blocks.set block { data with
        stmts
        terminator := .brZ ir.ssaValues.length ⟨next, []⟩ ⟨leave, []⟩
        terminated := true } } := by
  subst hstmts
  have hpushed := h.pushStmt hdata (.inl rfl) rfl
  have hget : (ir.pushStmt block data [.int .w32] .loadHaltReason).blocks[block]? =
      some { data with stmts := data.stmts ++ [ir.stmts.length] } :=
    List.getElem?_set_self (getElem?_eq_some_lt hdata)
  have hwf := hpushed.blocks _ (List.mem_of_getElem? hget)
  have hplain : ∀ {jump}, Plain ir jump →
      Plain (ir.pushStmt block data [.int .w32] .loadHaltReason) jump := by
    rintro jump ⟨hargs, target, htarget, hparams⟩
    obtain ⟨target', htarget', heq⟩ := @getElem?_set_parameters ir block data
      { data with stmts := data.stmts ++ [ir.stmts.length] } hdata rfl _ _ htarget
    exact ⟨hargs, target', htarget', heq.trans hparams⟩
  have hset := @SsaForm.setTerminator _ block _ { data with
    stmts := data.stmts ++ [ir.stmts.length]
    terminator := .brZ ir.ssaValues.length ⟨next, []⟩ ⟨leave, []⟩
    terminated := true } hpushed hget rfl rfl
    ⟨hwf.stmts_lt, ?_, ?_, hwf.parameters_lt, hwf.parameters_nodup⟩ ?_
  · simpa [ExecIrBuilder.pushStmt] using hset
  · simp only [Terminator.mem_blockTargets, Terminator.targets, List.mem_cons,
      List.not_mem_nil, or_false]
    rintro t ⟨jump, rfl | rfl, rfl⟩
    · obtain ⟨-, target, htarget, -⟩ := hplain hnext
      exact ⟨hne.1, getElem?_eq_some_lt htarget⟩
    · obtain ⟨-, target, htarget, -⟩ := hplain hleave
      exact ⟨hne.2, getElem?_eq_some_lt htarget⟩
  · simp [Terminator.operands, ExecIrBuilder.pushStmt]
  · intro jump hjump
    rcases List.mem_pair.1 hjump with rfl | rfl
    · exact .inr (hplain hnext)
    · exact .inr (hplain hleave)

/-- An insertion keeps SSA form and the types. -/
theorem SsaForm.insertHaltCheckAt : KeptByInsertion SsaForm := by
  intro ir block insertAt continuation ir' h hrun
  obtain ⟨data, i, stmt, rfl, hdata, hstmt, hsafe⟩ := insertHaltCheckAt_after hrun
  have hpos := getElem?_eq_some_lt (blockD_parameters h.arguments).choose_spec.1
  have hlt := getElem?_eq_some_lt hdata
  have hsplit := h.splitOff hdata (i + 1)
  have hfirst : (ir.splitOff block data (i + 1)).blocks[block]? =
      some { data with stmts := data.stmts.take (i + 1), terminator := .ret } := by
    simp only [ExecIrBuilder.splitOff]
    rw [List.getElem?_append_left (by simpa using hlt), List.getElem?_set_self hlt]
  have hcont : (ir.splitOff block data (i + 1)).blocks[ir.blocks.length]? = some {
      parameters := [], stmts := data.stmts.drop (i + 1), terminated := data.terminated,
      terminator := data.terminator, isCold := data.isCold } := by
    simp [ExecIrBuilder.splitOff]
  have hlen : (ir.splitOff block data (i + 1)).blocks.length = ir.blocks.length + 1 := by
    simp [ExecIrBuilder.splitOff]
  have hnext : ir.blocks.length ≠ Block.ENTRYPOINT := Nat.ne_of_gt hpos
  cases hold : ir.leaveAndTakeHalt with
  | some leave =>
    obtain ⟨hne, target, htarget, hparams⟩ := h.leave leave hold
    have hleave := Nat.ne_of_gt (getElem?_eq_some_lt htarget)
    have heq :=
      insertHaltCheckAt_eq hdata hstmt hsafe (getLeaveAndTakeHalt_some hold) hfirst hpos hleave hne
    obtain ⟨-, rfl⟩ := Prod.mk.inj (Except.ok.inj (heq.symm.trans hrun))
    obtain ⟨-, target', htarget', hparams'⟩ := hsplit.leave leave hold
    exact hsplit.branchOnHalt hfirst ⟨rfl, _, hcont, rfl⟩ ⟨rfl, target', htarget',
      hparams'⟩ ⟨hnext, hne⟩ rfl
  | none =>
    have hrunLeave := getLeaveAndTakeHalt_none (b := ir.splitOff block data (i + 1)) hold
      (by rw [hlen]; exact Nat.succ_pos _)
    have hget : ∀ {b d}, (ir.splitOff block data (i + 1)).blocks[b]? = some d →
        (Ir.withLeaveBlock (ir.splitOff block data (i + 1))).blocks[b]? = some d := fun hd =>
      (List.getElem?_append_left (getElem?_eq_some_lt hd)).trans hd
    have heq := insertHaltCheckAt_eq hdata hstmt hsafe hrunLeave (hget hfirst) hpos
      (by rw [hlen]; exact Nat.ne_of_lt (Nat.lt_succ_self _))
        (by rw [hlen]; exact Nat.succ_ne_zero _)
    obtain ⟨-, rfl⟩ := Prod.mk.inj (Except.ok.inj (heq.symm.trans hrun))
    obtain ⟨hne, target, htarget, hparams⟩ := hsplit.withLeaveBlock.leave _ rfl
    exact hsplit.withLeaveBlock.branchOnHalt (hget hfirst) ⟨rfl, _, hget hcont, rfl⟩
      ⟨rfl, target, htarget, hparams⟩ ⟨hnext, hne⟩ rfl

end Insertion

end RapidArm.Clif
