import RapidArm.Clif.Agreement

/-!
# The lowering preserves meaning

The Cranelift function of `compiler/cranelift_backend.rs` simulates the function of the IR: a
statement is the instructions it was translated to, and a terminator those of its own and the
jump or return after them.

Results:
* `clif_simulates`: one step of the IR is any number of steps of its code.
* `lowering_preserves`: a call of the Cranelift function has the results of a call of the IR
  function, and is endless if and only if that one is.
-/

namespace RapidArm.Clif

open RapidArm.Ir RapidArm.Jit RapidArm.Lib RapidArm.Backend RapidArm.HaltCheck RapidArm.Mmu Relation

/-! ## Running code -/

section Run

variable {W : Type} {host : FlatHost W} {halts : ℕ → BitVec 32} {f : ClifFunction}
  {data : ClifBlockData} {cb : ClifBlock} {pc : ℕ} {s s' : ClifState W} {types : List IntWidth}

theorem step_inst (hget : f.blocks[cb]? = some data) {stmt : ClifStmt}
    (hstmt : data.insts[pc]? = some stmt) (hexec : stmt.exec host halts s = some s') :
    (f.system host halts).step ⟨cb, pc, s⟩ ⟨cb, pc + 1, s'⟩ := by
  show f.next host halts ⟨cb, pc, s⟩ = _
  simp only [ClifFunction.next, hget, hstmt, hexec]

theorem next_at_end (hget : f.blocks[cb]? = some data) (hend : data.insts.length ≤ pc)
    {term : ClifTerminator} (hterm : data.terminator = some term) :
    f.next host halts ⟨cb, pc, s⟩ = f.nextTerm s term := by
  simp only [ClifFunction.next, hget, List.getElem?_eq_none hend, hterm]

/-- Code in a block is run to its end. -/
theorem exec_reaches (hget : f.blocks[cb]? = some data) {code rest : List ClifStmt}
    (hdrop : data.insts.drop pc = code ++ rest) (hexec : execInsts host halts s code = some s') :
    (f.system host halts).Reaches ⟨cb, pc, s⟩ ⟨cb, pc + code.length, s'⟩ := by
  induction code generalizing pc s with
  | nil =>
    obtain rfl := Option.some.inj hexec
    exact ReflTransGen.refl
  | cons stmt code ih =>
    obtain ⟨s₁, hstmt, hexec⟩ := Option.bind_eq_some_iff.1 hexec
    have hat : data.insts[pc]? = some stmt := by
      rw [← List.head?_drop, hdrop]
      rfl
    have hdrop' : data.insts.drop (pc + 1) = code ++ rest := by
      rw [← List.tail_drop, hdrop]
      rfl
    have hrest := ih hdrop' hexec
    rw [Nat.add_right_comm] at hrest
    exact ReflTransGen.head (step_inst hget hat hstmt) hrest

/-! ## Terminators -/

section Terminators

variable {v : SSAValue} {c : ClifValue} {x : Word}

theorem emits_ret : Emits host halts types s (lowerTerminator .ret [] []) fun term _ s' =>
    s'.world = s.world ∧ s'.reads = s.reads ∧ ∃ code, term = .ret [code] ∧
      s'.env code = ⟨.w32, 0⟩ := by
  refine Emits.of_one (emits_emit1 (x := ⟨.w32, 0⟩) rfl rfl) fun code _ s' _ hworld hreads hcode =>
    ?_
  exact emits_pure ⟨hworld, hreads, code, rfl, hcode.2⟩

theorem emits_returnCode (hc : Holds types s c x) :
    Emits host halts types s (lowerTerminator (.returnCode v) [c] []) fun term _ s' =>
      s'.world = s.world ∧ s'.reads = s.reads ∧ ∃ code, term = .ret [code] ∧ s'.env code = x := by
  refine Emits.bind (emits_assertValueTy hc fun _ _ => ?_)
  exact emits_pure ⟨rfl, rfl, c, rfl, hc.2⟩

theorem emits_br {jump : Jump} {dest : ClifBlock × List ClifValue} :
    Emits host halts types s (lowerTerminator (.br jump) [] [dest]) fun term _ s' =>
      s'.world = s.world ∧ s'.reads = s.reads ∧ term = .jump dest :=
  emits_pure ⟨rfl, rfl, rfl⟩

theorem emits_brZ {zero nonZero : Jump} {destZ destNz : ClifBlock × List ClifValue}
    (hc : Holds types s c x) :
    Emits host halts types s (lowerTerminator (.brZ v zero nonZero) [c] [destNz, destZ])
      fun term _ s' =>
      s'.world = s.world ∧ s'.reads = s.reads ∧ ∃ cond, term = .brif cond destNz destZ ∧
        ((s'.env cond).bits != 0) = (x.bits != 0) := by
  refine Emits.of_one (emits_icmpImm hc) fun cond _ s' _ hworld hreads hcond => ?_
  refine emits_pure ⟨hworld, hreads, cond, rfl, ?_⟩
  rw [hcond.2]
  refine (clifBool_ne_zero _).trans ?_
  exact congrArg (x.bits != ·) (BitVec.setWidth_zero _ _)

end Terminators

end Run

/-! ## One step of the IR -/

section Steps

variable {M : Machine} {ir : ExecIrBuilder} {copy : Copy M.Val} {halts : ℕ → BitVec 32}
  {c c' : Config M} {e e' : Event M}

theorem nextStmt_step {stmt : Stmt} {data : StmtData} (hget : ir.stmts[stmt]? = some data)
    (h : M.nextStmt ir halts c stmt = .step e c') :
    ∃ vals world reads, M.evalStmt halts c data.rvalue = some (vals, world, reads) ∧
      c' = { c with pc := c.pc + 1, env := M.define c.env data.outputs vals, world, reads } := by
  unfold Machine.nextStmt at h
  simp only [hget] at h
  cases heval : M.evalStmt halts c data.rvalue with
  | none =>
    rw [heval] at h
    cases h
  | some r =>
    obtain ⟨vals, world, reads⟩ := r
    rw [heval] at h
    obtain ⟨-, rfl⟩ := Next.step.inj h
    exact ⟨vals, world, reads, rfl, rfl⟩

theorem takeJump_step {jump : Jump} (h : M.takeJump ir copy c e' jump = .step e c') :
    ∃ data, ir.blocks[jump.target]? = some data ∧
      c' = { c with block := jump.target, pc := 0,
                    env := copy (data.parameters.zip jump.parameters) c.env } := by
  unfold Machine.takeJump Machine.jumpCopies at h
  cases hdata : ir.blocks[jump.target]? with
  | none =>
    rw [hdata] at h
    cases h
  | some data =>
    simp only [hdata] at h
    split_ifs at h
    obtain ⟨-, rfl⟩ := Next.step.inj h
    exact ⟨data, rfl, rfl⟩

theorem takeJump_ne_done (jump : Jump) : M.takeJump ir copy c e' jump ≠ .done e := by
  intro h
  unfold Machine.takeJump at h
  split at h <;> cases h

end Steps

/-! ## The simulation -/

section Simulation

variable {W : Type} {host : FlatHost W} {halts : ℕ → BitVec 32} {ir : ExecIrBuilder}
  {values : SSAValue → Option ClifValue} {blocks : Block → Option ClifBlock} {f : ClifFunction}

/-- What has been built from a function of the IR. -/
structure Compiled (host : FlatHost W) (ir : ExecIrBuilder) (values : SSAValue → Option ClifValue)
    (blocks : Block → Option ClifBlock) (f : ClifFunction) : Prop where
  code : ∀ b, Reachable ir b → HasCode host.codeAddr ir values blocks f b
  inj : ∀ v v' c, values v = some c → values v' = some c → v = v'
  entry : f.layout.head? = blocks Block.ENTRYPOINT
  arguments : (ir.blockD Block.ENTRYPOINT).parameters = Arg.args.map Arg.asSSAValue

/-- The run of the code is where the run of the IR is. -/
structure Rel (host : FlatHost W) (ir : ExecIrBuilder) (values : SSAValue → Option ClifValue)
    (blocks : Block → Option ClifBlock) (f : ClifFunction) (c : Config (flatMachine host))
    (d : ClifConfig W) : Prop where
  reachable : Reachable ir c.block
  place : ∃ data types term, BlockOf ir values blocks f c.block d.block data ∧
    data.terminator = some term ∧
    CodeFrom host.codeAddr ir values blocks f.types c.block c.pc types (data.insts.drop d.pc) term
  world : d.state.world = c.world
  reads : d.state.reads = c.reads
  haltReasonPtr : c.env Arg.haltReasonPtr.asSSAValue = .ptr host.haltReasonPtr
  agrees : Agrees ir values f.types c.block c.pc c.env d.state

/-- The statements of the block that are left. -/
def left (ir : ExecIrBuilder) (c : Config (flatMachine host)) : ℕ :=
  (ir.blockD c.block).stmts.length - c.pc

theorem Compiled.haltReasonPtr_mem (h : Compiled host ir values blocks f) :
    Arg.haltReasonPtr.asSSAValue ∈ (ir.blockD Block.ENTRYPOINT).parameters := by
  rw [h.arguments]
  decide

/-- The arguments are available everywhere. -/
theorem Compiled.haltReasonPtr_dominates (h : Compiled host ir values blocks f)
    (b : Block) (k : ℕ) :
    DefDominates ir Arg.haltReasonPtr.asSSAValue b k := by
  refine .inl ⟨Block.ENTRYPOINT, h.haltReasonPtr_mem, fun path hpath _ => ?_⟩
  exact List.mem_of_mem_head? hpath.1

/-- A statement yields values of the types of its outputs. -/
theorem evalStmt_hasType {c : Config (flatMachine host)} {data : StmtData}
    (htyped : StmtTyped ir data) (hvalues : ∀ v ∈ data.rvalue.operands, TypedValue ir c.env v)
    {vals : List (Val Address)} {world : W} {reads : ℕ}
    (heval : (flatMachine host).evalStmt halts c data.rvalue =
      some (vals, world, reads)) :
    ∃ tys, List.Forall₂ (fun v ty => ir.ssaValues[v]? = some ty) data.outputs tys ∧
      List.Forall₂ HasType vals tys := by
  obtain ⟨tys, htypeOf, htys⟩ := htyped.outputs
  refine ⟨tys, htys, ?_⟩
  unfold Machine.evalStmt at heval
  split at heval
  · rename_i hload
    rw [hload] at htypeOf
    obtain rfl := Except.ok.inj htypeOf
    obtain ⟨rfl, -⟩ := Prod.mk.inj (Option.some.inj heval)
    exact List.Forall₂.cons rfl List.Forall₂.nil
  · obtain ⟨⟨vals', world'⟩, hsome, hresult⟩ := Option.map_eq_some_iff.1 heval
    obtain ⟨rfl, -⟩ := Prod.mk.inj hresult
    exact eval_hasType hvalues htyped.select hsome htypeOf

/-- No statement defines an argument. -/
theorem Compiled.define_haltReasonPtr (h : Compiled host ir values blocks f)
    (hsingle : SingleDefs ir) {data : StmtData} (hdata : data ∈ ir.stmts)
    {vals : List (Val Address)} (hlen : data.outputs.length = vals.length)
    (env : SSAValue → Val Address) :
    (flatMachine host).define env data.outputs vals Arg.haltReasonPtr.asSSAValue =
      env Arg.haltReasonPtr.asSSAValue := by
  obtain ⟨-, houtputs, hdisjoint⟩ := List.nodup_append.1 hsingle
  refine (bind_names hlen ((List.nodup_flatMap.1 houtputs).1 data hdata) env).2 _ fun hmem => ?_
  obtain ⟨entry, hget, hparam⟩ := blockD_parameters h.haltReasonPtr_mem
  exact hdisjoint _ (List.mem_flatMap.2 ⟨entry, List.mem_of_getElem? hget, hparam⟩) _
    (List.mem_flatMap.2 ⟨data, hdata, hmem⟩) rfl

/-- A statement is simulated by the instructions it was translated to. -/
theorem stmt_simulated (hir : Lowerable ir) (hcompiled : Compiled host ir values blocks f)
    {c c' : Config (flatMachine host)} {d : ClifConfig W} (hrel : Rel host ir values blocks f c d)
    {stmt : Stmt} (hstmt : (ir.blockD c.block).stmts[c.pc]? = some stmt)
    {e : Event (flatMachine host)}
    (hnext : (flatMachine host).nextStmt ir halts c stmt = .step e c') :
    (∃ d', TransGen (f.system host halts).step d d' ∧ Rel host ir values blocks f c' d') ∨
      (Rel host ir values blocks f c' d ∧ left ir c' < left ir c) := by
  obtain ⟨data, types, term, hof, hterm, hcode⟩ := hrel.place
  generalize hdrop : data.insts.drop d.pc = insts at hcode
  cases hcode with
  | term atEnd =>
    rw [List.getElem?_eq_none atEnd] at hstmt
    cases hstmt
  | @stmt _ s _ types' code rest _ get bounded limited limited' head tail =>
    obtain rfl := Option.some.inj (hstmt.symm.trans get)
    obtain @⟨sdata, ops, outs, hget, hoperands, houtputs, hrun⟩ := head
    obtain ⟨vals, world, reads, heval, rfl⟩ := nextStmt_step hget hnext
    have hdata := List.mem_of_getElem? hget
    have htyped := hir.stmts sdata hdata
    -- what the statement uses is available, and shown by its Cranelift operands
    have hat : usesAt ir c.block c.pc = sdata.rvalue.operands := by
      simp only [usesAt, hstmt, operandsOf, hget]
    have hdom : ∀ v ∈ sdata.rvalue.operands, DefDominates ir v c.block c.pc := fun v hv =>
      hir.uses c.block hrel.reachable c.pc v (hat ▸ hv)
    have hops := hrel.agrees.uses limited bounded (fun v hv => by
      rcases FunctionLowering.mem_rvalueUses hv with hv | rfl
      · exact hdom v hv
      · exact hcompiled.haltReasonPtr_dominates _ _) hoperands
    have hvalues : ∀ v ∈ sdata.rvalue.operands, TypedValue ir c.env v := fun v hv =>
      (hrel.agrees v (hdom v hv)).1
    obtain ⟨words, hrep, hemits⟩ := rvalue_emits htyped hir.single hcompiled.haltReasonPtr_mem
      hrel.haltReasonPtr hops hvalues hrel.world hrel.reads heval
    obtain ⟨new, s', hnew, hexec, hext, hworld, hreads, hheld⟩ := hemits [] outs ⟨types', code⟩ hrun
    obtain rfl : code = new := hnew
    obtain ⟨tys, htys, hvals⟩ := evalStmt_hasType htyped hvalues heval
    have hlen : sdata.outputs.length = vals.length := htys.length_eq.trans hvals.length_eq.symm
    have hreach := exec_reaches hof.get hdrop hexec
    have hrel' : Rel host ir values blocks f
        { c with pc := c.pc + 1, env := (flatMachine
          host).define c.env sdata.outputs vals, world, reads }
        ⟨d.block, d.pc + code.length, s'⟩ := by
      refine ⟨hrel.reachable, ⟨data, types', term, hof, hterm, ?_⟩, hworld, hreads, ?_, ?_⟩
      · have hrest : data.insts.drop (d.pc + code.length) = rest := by
          rw [← List.drop_drop, hdrop, List.drop_left]
        exact hrest.symm ▸ tail
      · exact (hcompiled.define_haltReasonPtr hir.single hdata hlen c.env).trans hrel.haltReasonPtr
      · exact hrel.agrees.stmt hir.single hstmt hget limited' bounded hext htys hvals
          houtputs hheld hrep
    rcases reflTransGen_iff_eq_or_transGen.1 hreach with heq | htrans
    · have hsame : ClifConfig.mk d.block (d.pc + code.length) s' = d := heq
      refine .inr ⟨hsame ▸ hrel', ?_⟩
      have hlt := getElem?_eq_some_lt hstmt
      show (ir.blockD c.block).stmts.length - (c.pc + 1) < (ir.blockD c.block).stmts.length - c.pc
      omega
    · exact .inl ⟨_, htrans, hrel'⟩

theorem Lowerable.block (hir : Lowerable ir) {b : Block} (h : Reachable ir b) :
    ∃ data, ir.blocks[b]? = some data := by
  have hlt : b < ir.blocks.length := by
    rcases ReflTransGen.cases_tail h with rfl | ⟨u, -, hedge⟩
    · exact hir.targets.entry
    · exact hir.targets.targets u b hedge
  exact ⟨_, List.getElem?_eq_getElem hlt⟩

/-- A jump binds the parameters of its target in both functions. -/
theorem jump_simulated (hir : Lowerable ir) (hcompiled : Compiled host ir values blocks f)
    {c c' : Config (flatMachine host)} {s : ClifState W} (hreach : Reachable ir c.block)
    (hend : (ir.blockD c.block).stmts.length ≤ c.pc) (hworld : s.world = c.world)
    (hreads : s.reads = c.reads)
    (hptr : c.env Arg.haltReasonPtr.asSSAValue = .ptr host.haltReasonPtr)
    (hagrees : Agrees ir values f.types c.block c.pc c.env s) {jump : Jump}
    (hjump : jump ∈ (ir.blockD c.block).terminator.targets)
    (huses : ∀ v ∈ jump.parameters, DefDominates ir v c.block c.pc)
    {dest : ClifBlock × List ClifValue} (hdest : JumpCode values blocks jump dest)
    {e e' : Event (flatMachine host)}
    (hnext : (flatMachine host).takeJump ir (clifCopy _) c e' jump = .step e c') :
    ∃ d', f.takeJump s dest = .step d' ∧ Rel host ir values blocks f c' d' := by
  obtain ⟨bdata, hbdata⟩ := hir.block hreach
  have hedge : jump.target ∈ ir.succs c.block := Terminator.mem_blockTargets.2 ⟨jump, hjump, rfl⟩
  have hmem : jump ∈ jumps ir :=
    List.mem_flatMap.2 ⟨bdata, List.mem_of_getElem? hbdata, blockD_eq hbdata ▸ hjump⟩
  have hreach' : Reachable ir jump.target := ReflTransGen.tail hreach hedge
  obtain ⟨data, hdata, rfl⟩ := takeJump_step hnext
  obtain ⟨cb, cdata, types, term, hof, hterm, hcode⟩ := hcompiled.code jump.target hreach'
  obtain ⟨hblock, hargs⟩ := hdest
  obtain rfl : cb = dest.1 := Option.some.inj (hof.block.symm.trans hblock)
  have hblockD := blockD_eq hdata
  have hparams : List.Forall₂ (Param ir values f.types) data.parameters cdata.params :=
    hblockD ▸ hof.params
  obtain ⟨hwidths, hagrees'⟩ := hagrees.jump hcompiled.inj hir.single hreach hend hedge huses
    (hir.jumps jump hmem) hdata hparams hargs
  refine ⟨⟨dest.1, 0, { s with env := bindValues s.env cdata.params (dest.2.map s.env) }⟩, ?_, ?_⟩
  · unfold ClifFunction.takeJump
    rw [hof.get]
    exact if_pos hwidths
  · refine ⟨hreach', ⟨cdata, types, term, hof, hterm, hcode⟩, hworld, hreads, ?_, hagrees'⟩
    -- the entry block is no target, so that the arguments are not bound again
    have hnot : Arg.haltReasonPtr.asSSAValue ∉ data.parameters := by
      intro hin
      have heq := hir.single.uniqueParameters.eq (hblockD ▸ hin) hcompiled.haltReasonPtr_mem
      exact hir.entry c.block (heq ▸ hedge)
    have hnodup : data.parameters.Nodup := hblockD ▸ hir.single.uniqueParameters.nodup jump.target
    have hzip : (data.parameters.zip jump.parameters).map Prod.fst = data.parameters :=
      List.map_fst_zip ((hir.jumps jump hmem).types data hdata).length_eq.le
    exact (parAssign_of_notMem (hzip.symm ▸ hnodup) (hzip.symm ▸ hnot) c.env).trans hptr

/-- At the end of a block, the code of the terminator is left. -/
theorem Rel.terminator {c : Config (flatMachine host)} {d : ClifConfig W}
    (hrel : Rel host ir values blocks f c d) (hend : (ir.blockD c.block).stmts.length ≤ c.pc) :
    ∃ types types' code term, types <+: f.types ∧ Bounded ir values c.block c.pc types ∧
      TermCode values blocks (ir.blockD c.block).terminator types types' code term ∧
      ∀ s', execInsts host halts d.state code = some s' → ∃ d',
        (f.system host halts).Reaches d d' ∧ f.next host halts d' = f.nextTerm s' term := by
  obtain ⟨data, types, term, hof, hterm, hcode⟩ := hrel.place
  generalize hdrop : data.insts.drop d.pc = insts at hcode
  cases hcode with
  | stmt get =>
    rw [List.getElem?_eq_none hend] at get
    cases get
  | term atEnd bounded limited limited' head =>
    refine ⟨types, _, insts, term, limited, bounded, head, fun s' hexec => ?_⟩
    rw [← List.append_nil insts] at hdrop
    refine ⟨_, exec_reaches hof.get hdrop hexec, next_at_end hof.get ?_ hterm⟩
    have hlen := congrArg List.length hdrop
    rw [List.append_nil, List.length_drop] at hlen
    omega

/-- What the terminator uses is available, and shown by its Cranelift values. -/
theorem Rel.operand (hir : Lowerable ir) {c : Config (flatMachine host)} {d : ClifConfig W}
    (hrel : Rel host ir values blocks f c d) (hend : (ir.blockD c.block).stmts.length ≤ c.pc)
    {v : SSAValue}
    (hv : v ∈ (ir.blockD c.block).terminator.operands) : DefDominates ir v c.block c.pc := by
  refine hir.uses c.block hrel.reachable c.pc v ?_
  unfold usesAt
  rw [List.getElem?_eq_none hend]
  exact hv

theorem Agrees.shown {b : Block} {k : ℕ} {types limit : List IntWidth}
    {env : SSAValue → Val Address} {s : ClifState W} (h : Agrees ir values limit b k env s)
    (htypes : types <+: limit) (hbounded : Bounded ir values b k types) {v : SSAValue}
    (hv : DefDominates ir v b k) {cv : ClifValue}
    (hcv : values v = some cv) : Shows (isTag ir) env types s v cv := by
  have hone : Names values [v] [cv] := List.Forall₂.cons hcv List.Forall₂.nil
  have huses := h.uses htypes hbounded (fun u hu => List.mem_singleton.1 hu ▸ hv) hone
  exact (List.forall₂_cons.1 huses).1

/-- The end of a block is simulated by the code of its terminator. -/
theorem term_simulated (hir : Lowerable ir) (hcompiled : Compiled host ir values blocks f)
    {c c' : Config (flatMachine host)} {d : ClifConfig W} (hrel : Rel host ir values blocks f c d)
    (hend : (ir.blockD c.block).stmts.length ≤ c.pc) {e : Event (flatMachine host)}
    (hnext : (flatMachine host).nextTerm ir (clifCopy _) c (ir.blockD c.block).terminator =
      .step e c') :
    ∃ d', TransGen (f.system host halts).step d d' ∧ Rel host ir values blocks f c' d' := by
  obtain ⟨types, types', code, term, htypes, hbounded, ⟨huses, hrun⟩, hreach⟩ :=
    hrel.terminator hend
  have hoperand : ∀ v ∈ (ir.blockD c.block).terminator.operands, DefDominates ir v c.block c.pc :=
    fun v hv => hrel.operand hir hend hv
  -- a jump from where the code of the terminator gets to
  have htake : ∀ {s' : ClifState W} {jump : Jump} {dest : ClifBlock × List ClifValue}
      {e' : Event (flatMachine host)},
      execInsts host halts d.state code = some s' → Extends types d.state types' s' →
      s'.world = d.state.world → s'.reads = d.state.reads →
        f.nextTerm s' term = f.takeJump s' dest →
      jump ∈ (ir.blockD c.block).terminator.targets →
      (∀ v ∈ jump.parameters, v ∈ (ir.blockD c.block).terminator.operands) →
      JumpCode values blocks jump dest →
      (flatMachine host).takeJump ir (clifCopy _) c e' jump = .step e c' →
      ∃ d', TransGen (f.system host halts).step d d' ∧ Rel host ir values blocks f c' d' := by
    intro s' jump dest e' hexec hext hworld hreads hterm hjump hparams hdest hstep
    obtain ⟨d₁, hd₁, hlast⟩ := hreach s' hexec
    obtain ⟨d', hd', hrel'⟩ :=
      jump_simulated hir hcompiled hrel.reachable hend (hworld.trans hrel.world)
      (hreads.trans hrel.reads) hrel.haltReasonPtr (hrel.agrees.extends hbounded hext) hjump
      (fun v hv => hoperand v (hparams v hv)) hdest hstep
    exact ⟨d', TransGen.tail' hd₁ (hlast.trans (hterm.trans hd')), hrel'⟩
  generalize (ir.blockD c.block).terminator = terminator at *
  cases terminator with
  | ret => cases hnext
  | returnCode v => cases hnext
  | br jump =>
    obtain ⟨dest, hdest, rfl, rfl⟩ := huses
    have hemits : Emits host halts types d.state (lowerTerminator (.br jump) [] [dest]) _ :=
      emits_br
    obtain ⟨new, s', hnew, hexec, hext, hworld, hreads, rfl⟩ := hemits [] term _ hrun
    obtain rfl : code = new := hnew
    exact htake hexec hext hworld hreads rfl (by simp [Terminator.targets]) (fun v hv =>
      hv) hdest hnext
  | brZ cond zero nonZero =>
    obtain ⟨cv, destZ, destNz, hcv, hz, hnz, rfl, rfl⟩ := huses
    obtain ⟨word, hword, hrep⟩ := hrel.agrees.shown htypes hbounded
      (hoperand cond (by simp [Terminator.operands])) hcv
    obtain ⟨new, s', hnew, hexec, hext, hworld, hreads, t, rfl, ht⟩ :=
      emits_brZ hword [] term _ hrun
    obtain rfl : code = new := hnew
    have htest := ht.trans (@Represents.test W host _ _ _ hrep)
    simp only [Machine.nextTerm] at hnext
    cases hzero : (flatMachine host).isZero (c.env cond) with
    | true =>
      rw [hzero] at hnext htest
      refine @htake s' zero destZ _ hexec hext hworld hreads ?_ (by simp [Terminator.targets])
        (fun v hv => by simp [Terminator.operands, hv]) hz hnext
      simp only [ClifFunction.nextTerm, htest]
      rfl
    | false =>
      rw [hzero] at hnext htest
      refine @htake s' nonZero destNz _ hexec hext hworld hreads ?_ (by simp [Terminator.targets])
        (fun v hv => by simp [Terminator.operands, hv]) hnz hnext
      simp only [ClifFunction.nextTerm, htest]
      rfl

/-- What the terminator returns is returned. -/
theorem result_simulated (hir : Lowerable ir) {c : Config (flatMachine host)} {d : ClifConfig W}
    (hrel : Rel host ir values blocks f c d) {r : BitVec 32 × W}
    (hresult : (flatSystem host ir halts).result c r) : (f.system host halts).Returns d r := by
  obtain ⟨reason, world⟩ := r
  obtain ⟨rfl, hdone⟩ := hresult
  obtain ⟨bdata, hbdata⟩ := hir.block hrel.reachable
  have hblockD := blockD_eq hbdata
  have hnotStmt : ∀ {stmt : Stmt} {e : Event (flatMachine host)},
      (flatMachine host).nextStmt ir halts c stmt ≠ .done e := by
    intro stmt e hstmt
    unfold Machine.nextStmt at hstmt
    split at hstmt
    · cases hstmt
    · split at hstmt <;> cases hstmt
  have hend : (ir.blockD c.block).stmts.length ≤ c.pc := by
    by_contra hlt
    obtain ⟨stmt, hget⟩ : ∃ stmt, (ir.blockD c.block).stmts[c.pc]? = some stmt :=
      ⟨_, List.getElem?_eq_getElem (Nat.lt_of_not_le hlt)⟩
    rw [next_of_stmt _ _ _ hbdata (hblockD ▸ hget)] at hdone
    rcases hdone with ⟨hdone, -⟩ | ⟨v, hdone⟩
    · exact hnotStmt hdone
    · exact hnotStmt hdone
  rw [next_of_end _ hbdata (hblockD ▸ hend), ← hblockD] at hdone
  obtain ⟨types, types', code, term, htypes, hbounded, ⟨huses, hrun⟩, hreach⟩ :=
    hrel.terminator hend
  have hoperand : ∀ v ∈ (ir.blockD c.block).terminator.operands, DefDominates ir v c.block c.pc :=
    fun v hv => hrel.operand hir hend hv
  have hreturn : ∀ {s' : ClifState W} {cv : ClifValue},
      execInsts host halts d.state code = some s' →
      s'.world = d.state.world → term = .ret [cv] → s'.env cv = ⟨.w32, reason⟩ →
      (f.system host halts).Returns d (reason, c.world) := by
    intro s' cv hexec hworld hterm hvalue
    obtain ⟨d₁, hd₁, hlast⟩ := hreach s' hexec
    refine ⟨d₁, hd₁, hlast.trans ?_⟩
    rw [hterm, ← hrel.world, ← hworld]
    exact congrArg (fun x => ClifNext.returned [x] s'.world) hvalue
  generalize (ir.blockD c.block).terminator = terminator at *
  cases terminator with
  | ret =>
    obtain ⟨rfl, rfl⟩ := huses
    have hemits : Emits host halts types d.state (lowerTerminator .ret [] []) _ := emits_ret
    obtain ⟨new, s', hnew, hexec, -, hworld, -, cv, hterm, hvalue⟩ := hemits [] term _ hrun
    obtain rfl : code = new := hnew
    rcases hdone with ⟨-, hzero⟩ | ⟨v, hdone⟩
    · exact hreturn hexec hworld hterm (hvalue.trans (congrArg (Word.mk .w32) hzero.symm))
    · cases hdone
  | returnCode v =>
    obtain ⟨cv, hcv, rfl, rfl⟩ := huses
    have henv : c.env v = .int .w32 reason := by
      rcases hdone with ⟨hdone, -⟩ | ⟨u, hdone⟩
      · cases hdone
      · exact (List.cons.inj (Event.term.inj (Next.done.inj hdone)).2).1
    obtain ⟨word, hword, hrep⟩ := hrel.agrees.shown htypes hbounded
      (hoperand v (by simp [Terminator.operands])) hcv
    -- an integer is no tag
    have hwordReason : word = ⟨.w32, reason⟩ := by
      rw [henv, Represents] at hrep
      split_ifs at hrep
      · cases hrep.2
      · exact hrep
    subst hwordReason
    obtain ⟨new, s', hnew, hexec, -, hworld, -, code', hterm, hvalue⟩ :=
      emits_returnCode hword [] term _ hrun
    obtain rfl : code = new := hnew
    exact hreturn hexec hworld hterm hvalue
  | br jump =>
    rcases hdone with ⟨hdone, -⟩ | ⟨v, hdone⟩
    · exact absurd hdone (takeJump_ne_done _)
    · exact absurd hdone (takeJump_ne_done _)
  | brZ cond zero nonZero =>
    rcases hdone with ⟨hdone, -⟩ | ⟨v, hdone⟩
    · exact absurd hdone (takeJump_ne_done _)
    · exact absurd hdone (takeJump_ne_done _)

/-- One step of the IR is any number of steps of its code, and its results are results of it. -/
theorem clif_simulates (hir : Lowerable ir) (hcompiled : Compiled host ir values blocks f) :
    Simulates (flatSystem host ir halts) (f.system host halts) (Rel host ir values blocks f)
      (left ir) where
  step {c d c'} hrel hstep := by
    obtain ⟨e, hnext⟩ := hstep
    obtain ⟨bdata, hbdata⟩ := hir.block hrel.reachable
    have hblockD := blockD_eq hbdata
    cases hstmt : (ir.blockD c.block).stmts[c.pc]? with
    | some stmt =>
      rw [next_of_stmt _ _ _ hbdata (hblockD ▸ hstmt)] at hnext
      exact stmt_simulated hir hcompiled hrel hstmt hnext
    | none =>
      have hend := List.getElem?_eq_none_iff.1 hstmt
      rw [next_of_end _ hbdata (hblockD ▸ hend), ← hblockD] at hnext
      exact .inl (term_simulated hir hcompiled hrel hend hnext)
  result hrel hresult := result_simulated hir hrel hresult

theorem compiled_of_lowering (hir : Lowerable ir) {order : List Block}
    (horder : topoSort ir = .ok order) {s : FunctionLowering (clif host.codeAddr)}
    (hrun : lowerFunction (clif host.codeAddr) ir order = .ok s) :
    Compiled host ir s.values s.blocks (funcOf s) := by
  obtain ⟨order', horder', hcompile⟩ := topoSort_spec hir.targets
  obtain rfl := Except.ok.inj (horder.symm.trans horder')
  obtain ⟨hlaying, harguments⟩ :=
    lowerFunction_layout hir.single.uniqueParameters hcompile hir.uses hrun
  refine ⟨fun b hb => hlaying.filled b ((hcompile.mem b).2 hb), hlaying.values.inj, ?_, harguments⟩
  rw [hlaying.layout, hcompile.entry]
  rfl

/-- In the entry block, the arguments are available. -/
theorem defDominates_entry {v : SSAValue} (h : DefDominates ir v Block.ENTRYPOINT 0) :
    v ∈ (ir.blockD Block.ENTRYPOINT).parameters := by
  have hentry : ∀ d, Dominates ir d Block.ENTRYPOINT → d = Block.ENTRYPOINT := fun d hd =>
    List.mem_singleton.1 (hd [Block.ENTRYPOINT] ⟨rfl, List.isChain_singleton _⟩ rfl)
  rcases h with ⟨d, hv, hd⟩ | ⟨d, i, s, -, -, ⟨-, hlt⟩ | ⟨hne, hd⟩⟩
  · exact hentry d hd ▸ hv
  · exact absurd hlt (Nat.not_lt_zero i)
  · exact absurd (hentry d hd) hne

/-- The words of the arguments. -/
def argWords (env : SSAValue → Val Address) : List Word :=
  Arg.args.map fun arg => toWord (env arg.asSSAValue)

/-- A call of the code is one of the IR function. -/
theorem call_rel (hir : Lowerable ir) (hcompiled : Compiled host ir values blocks f)
    {env : SSAValue → Val Address} {world : W}
    (hptr : env Arg.haltReasonPtr.asSSAValue = .ptr host.haltReasonPtr)
    (hargs : ∀ arg ∈ Arg.args, TypedValue ir env arg.asSSAValue) :
    (∃ d, f.call (argWords env) world d) ∧
      ∀ d, f.call (argWords env) world d →
        Rel host ir values blocks f ((flatMachine host).start env world) d := by
  obtain ⟨cb, data, types, term, hof, hterm, hcode⟩ :=
    hcompiled.code Block.ENTRYPOINT ReflTransGen.refl
  have hlayout : f.layout.head? = some cb := hcompiled.entry.trans hof.block
  have hwords : argWords env = ((ir.blockD Block.ENTRYPOINT).parameters.map env).map toWord := by
    rw [hcompiled.arguments]
    rfl
  have hnames : Names values (ir.blockD Block.ENTRYPOINT).parameters data.params :=
    List.Forall₂.imp (fun _ _ hp => hp.1) hof.params
  have hnodup := hir.single.uniqueParameters.nodup Block.ENTRYPOINT
  have hlen : data.params.length = (argWords env).length := by
    rw [hwords, List.length_map, List.length_map, hof.params.length_eq]
  have hpassed : List.Forall₂ (fun p x => ∃ ty, ir.ssaValues[p]? = some ty ∧ HasType x ty)
      (ir.blockD Block.ENTRYPOINT).parameters
        ((ir.blockD Block.ENTRYPOINT).parameters.map env) := by
    rw [List.forall₂_map_right_iff, List.forall₂_same]
    intro p hp
    rw [hcompiled.arguments] at hp
    obtain ⟨arg, harg, rfl⟩ := List.mem_map.1 hp
    exact hargs arg harg
  -- whatever the other values are
  have hagree : ∀ ρ : ClifValue → Word,
      (∀ p ∈ (ir.blockD Block.ENTRYPOINT).parameters, TypedValue ir env p ∧ ∃ cv,
        values p = some cv ∧
        Shows (isTag ir) env f.types (⟨bindValues ρ data.params (argWords env), world, 0⟩ :
          ClifState W)
          p cv) ∧
      (argWords env).map (fun word => some word.width) = data.params.map (f.types[·]?) := by
    intro ρ
    have hbound' : List.Forall₂ (fun cp word => ClifState.env
        ⟨bindValues ρ data.params (argWords env), world, 0⟩ cp = word) data.params (argWords env) :=
      (bind_names hlen (hnames.nodup hcompiled.inj hnodup) ρ).1
    rw [hwords] at hbound' ⊢
    refine agrees_parameters hof.params ?_ hbound' hpassed fun p hp => hir.single.isTag_parameter hp
    exact List.forall₂_map_right_iff.2 (List.forall₂_same.2 fun _ _ => rfl)
  refine ⟨⟨_, cb, data, hlayout, hof.get, (hagree fun _ => ⟨.w64, 0⟩).2, fun _ => ⟨.w64, 0⟩, rfl⟩,
    ?_⟩
  rintro d ⟨cb', data', hlayout', hget', -, ρ, rfl⟩
  obtain rfl := Option.some.inj (hlayout.symm.trans hlayout')
  obtain rfl := Option.some.inj (hof.get.symm.trans hget')
  refine ⟨ReflTransGen.refl, ⟨data, types, term, hof, hterm, hcode⟩, rfl, rfl, hptr, fun v hv => ?_⟩
  exact (hagree ρ).1 v (defDominates_entry hv)

/-- A call of the Cranelift function starts a simulation. -/
theorem lowering_simulates {W : Type} (host : FlatHost W) {ir : ExecIrBuilder} (hir : Lowerable ir)
    {order : List Block} (horder : topoSort ir = .ok order)
    {s : FunctionLowering (clif host.codeAddr)}
    (hrun : lowerFunction (clif host.codeAddr) ir order = .ok s) (halts : ℕ → BitVec 32)
    {env : SSAValue → Val Address} (world : W)
    (hptr : env Arg.haltReasonPtr.asSSAValue = .ptr host.haltReasonPtr)
    (hargs : ∀ arg ∈ Arg.args, TypedValue ir env arg.asSSAValue) :
    (∃ d, (funcOf s).call (argWords env) world d) ∧
      ∀ d, (funcOf s).call (argWords env) world d →
        ∃ R measure, Simulates (flatSystem host ir halts) ((funcOf s).system host halts) R measure ∧
          R ((flatMachine host).start env world) d := by
  have hcompiled := compiled_of_lowering hir horder hrun
  obtain ⟨hcall, hrel⟩ :=
    @call_rel W host ir s.values s.blocks (funcOf s) hir hcompiled env world hptr hargs
  exact ⟨hcall, fun d hd => ⟨_, _, clif_simulates hir hcompiled, hrel d hd⟩⟩

end Simulation

/-- The lowering preserves meaning. The Cranelift function can be called with the words of the
    arguments. Its call returns what a call of the IR function returns, with the same world, and
    is endless where that one is; and if that one never gets stuck, nothing else happens. -/
theorem lowering_preserves {W : Type} (host : FlatHost W) {ir : ExecIrBuilder} (hir : Lowerable ir)
    {order : List Block} (horder : topoSort ir = .ok order)
    {s : FunctionLowering (clif host.codeAddr)}
    (hrun : lowerFunction (clif host.codeAddr) ir order = .ok s) (halts : ℕ → BitVec 32)
    {env : SSAValue → Val Address} (world : W)
    (hptr : env Arg.haltReasonPtr.asSSAValue = .ptr host.haltReasonPtr)
    (hargs : ∀ arg ∈ Arg.args, TypedValue ir env arg.asSSAValue) :
    (∃ d, (funcOf s).call (argWords env) world d) ∧
      ∀ d, (funcOf s).call (argWords env) world d →
        let A := flatSystem host ir halts
        let B := (funcOf s).system host halts
        let start := (flatMachine host).start env world
        (∀ r, A.Returns start r → B.Returns d r) ∧ (A.Diverges start → B.Diverges d) ∧
          (A.Safe start → (∀ r, A.Returns start r ↔ B.Returns d r) ∧
            (A.Diverges start ↔ B.Diverges d)) := by
  obtain ⟨hcall, hsimulated⟩ := lowering_simulates host hir horder hrun halts world hptr hargs
  refine ⟨hcall, fun d hd => ?_⟩
  obtain ⟨R, measure, hsim, hrel⟩ := hsimulated d hd
  refine ⟨fun r => hsim.returns hrel, hsim.diverges hrel, fun hsafe => ?_⟩
  exact hsim.same_behaviour ((funcOf s).system_deterministic host halts) hrel hsafe

/-- A function that returns if a pointer is tagged, and with a negative number if it is not. -/
def tagBuilder : ExecIrBuilder :=
  { usesBuilder with
    ssaValues := usesBuilder.ssaValues ++ [.bool, .int .w32, .int .w32, .int .w32]
    blocks := [
      { BlockData.empty with
        parameters := Arg.args.map Arg.asSSAValue, stmts := [0, 1], terminator :=
          .brZ 6 ⟨1, [7]⟩ ⟨2, []⟩ },
      { BlockData.empty with parameters := [8], stmts := [2], terminator := .returnCode 9 },
      { BlockData.empty with terminator := .ret }]
    stmts := [⟨[6], .hasTag 1 1⟩, ⟨[7], .iconst (IConst.u32 7)⟩, ⟨[9], .intNeg 8⟩] }

theorem tagBuilder_targets (u : Block) : ∀ v ∈ tagBuilder.succs u, v = 1 ∨ v = 2 := by
  intro v hv
  match u with
  | 0 =>
    have hv : v ∈ [1, 2] := hv
    simpa using hv
  | 1 => cases hv
  | 2 => cases hv
  | u + 3 => cases hv

theorem tagBuilder_dominated : UsesDominated tagBuilder := by
  intro b _ k v hv
  have hdef : ∀ i s, (tagBuilder.blockD b).stmts[i]? = some s → v ∈ outputsOf tagBuilder s → i < k →
      DefDominates tagBuilder v b k :=
        fun i s hs hout hlt => .inr ⟨b, i, s, hs, hout, .inl ⟨rfl, hlt⟩⟩
  have hparam : v ∈ (tagBuilder.blockD b).parameters → DefDominates tagBuilder v b k := fun hp =>
    .inl ⟨b, hp, fun path _ hlast => List.mem_of_getLast? hlast⟩
  match b, k with
  | 0, 0 =>
    obtain rfl := List.mem_singleton.1 hv
    exact hparam (by decide)
  | 0, 1 => cases hv
  | 0, k + 2 =>
    have hv : v ∈ [6, 7] := hv
    rcases List.mem_pair.1 hv with rfl | rfl
    · exact hdef 0 0 rfl (by decide) (by omega)
    · exact hdef 1 1 rfl (by decide) (by omega)
  | 1, 0 =>
    obtain rfl := List.mem_singleton.1 hv
    exact hparam (by decide)
  | 1, k + 1 =>
    obtain rfl := List.mem_singleton.1 hv
    exact hdef 0 2 rfl (by decide) (by omega)
  | 2, 0 => cases hv
  | 2, k + 1 => cases hv
  | _ + 3, _ => cases hv

theorem tagBuilder_lowerable : Lowerable tagBuilder where
  targets := by
    refine ⟨by decide, fun u v hv => ?_⟩
    rcases tagBuilder_targets u v hv with rfl | rfl <;> decide
  entry u hu := by
    rcases tagBuilder_targets u _ hu with h | h <;> cases h
  single := by decide
  uses := tagBuilder_dominated
  stmts := by
    have hall : tagBuilder.stmts = [⟨[6], .hasTag 1 1⟩, ⟨[7], .iconst (IConst.u32 7)⟩,
        ⟨[9], .intNeg 8⟩] := rfl
    simp only [hall, List.forall_mem_cons, List.not_mem_nil, false_imp_iff, implies_true, and_true]
    refine ⟨⟨⟨[.bool], rfl, by simp; rfl⟩, by simp, by simp, by decide⟩,
      ⟨⟨[.int .w32], rfl, by simp; rfl⟩, by simp, by simp, by decide⟩,
      ⟨⟨[.int .w32], rfl, by simp; rfl⟩, by simp, by simp, by decide⟩⟩
  jumps := by
    have hall : jumps tagBuilder = [⟨1, [7]⟩, ⟨2, []⟩] := rfl
    simp only [hall, List.forall_mem_cons, List.not_mem_nil, false_imp_iff, implies_true, and_true]
    refine ⟨⟨fun data hdata => ?_, by decide⟩, ⟨fun data hdata => ?_, by decide⟩⟩
    · obtain rfl := Option.some.inj hdata
      exact List.Forall₂.cons rfl List.Forall₂.nil
    · obtain rfl := Option.some.inj hdata
      exact List.Forall₂.nil

/-- Where the code of a callback is. -/
def callbackAddr : HostCallback → Address
  | .load width => BitVec.ofNat 64 width.bits
  | .store width => BitVec.ofNat 64 (256 + width.bits)
  | .ldrex width => BitVec.ofNat 64 (512 + width.bits)
  | .strex width => BitVec.ofNat 64 (768 + width.bits)
  | .clrex => 0

/-- All callbacks. -/
def callbacks : List HostCallback :=
  .clrex :: [IntWidth.w8, .w16, .w32, .w64].flatMap fun width =>
    [.load width, .store width, .ldrex width, .strex width]

theorem callbackAddr_find (func : HostCallback) :
    (callbacks.find? fun g => callbackAddr g == callbackAddr func) = some func := by
  cases func with
  | load width => cases width <;> decide
  | store width => cases width <;> decide
  | ldrex width => cases width <;> decide
  | strex width => cases width <;> decide
  | clrex => decide

/-- A host without memory. -/
def emptyHost : FlatHost Unit where
  load _ _ _ := none
  store _ _ _ _ := none
  atomicLoad _ _ _ := none
  atomicStore _ _ _ _ := none
  fetchOr _ _ _ := none
  haltReasonPtr := 64
  swapHaltReason _ w := (0, w)
  stackAddr _ := 0
  codeAddr := callbackAddr
  codeAt p := callbacks.find? fun func => callbackAddr func == p
  codeAt_codeAddr := callbackAddr_find
  call _ _ _ := none

/-- The arguments of a call. -/
def someArguments (v : SSAValue) : Val Address := .ptr (if v = 4 then 64 else 0)

theorem lowering_preserves_tag :
    ∃ s, lowerFunction (clif emptyHost.codeAddr) tagBuilder [0, 2, 1] = .ok s ∧
    ∀ d, (funcOf s).call (argWords someArguments) () d →
      ((funcOf s).system emptyHost fun _ => 0).Returns d (BitVec.ofInt 32 (-7), ()) := by
  have horder : topoSort tagBuilder = .ok [0, 2, 1] := by decide +kernel
  have hargs : ∀ arg ∈ Arg.args, TypedValue tagBuilder someArguments arg.asSSAValue := by
    intro arg _
    cases arg <;> exact ⟨_, rfl, trivial⟩
  refine ⟨_, rfl, fun d hd => ?_⟩
  refine ((lowering_preserves emptyHost tagBuilder_lowerable horder rfl (fun _ => 0) () rfl hargs).2
    d hd).1 _ ?_
  -- the two statements of the entry block, the branch, and the negation
  refine ⟨_, .head ⟨_, rfl⟩ (.head ⟨_, rfl⟩ (.head ⟨_, rfl⟩ (.head ⟨_, rfl⟩ .refl))), ?_⟩
  exact ⟨rfl, .inr ⟨9, rfl⟩⟩

end RapidArm.Clif
