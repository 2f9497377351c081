import RapidArm.Clif.Fresh

/-!
# The code of a block

What `lower_stmt` and `lower_terminator` add to the block at the cursor: the instructions of every
statement, each translated with the types there were (`CodeFrom`), and a Cranelift value for every
output.

Results:
* `lowerStmt_ok`, `lowerTerminator_ok`: what one statement and the terminator add.
* `lowerRest_ok`: the statements that are left and the terminator.
-/

namespace RapidArm.Clif

open RapidArm.Ir RapidArm.Jit RapidArm.Lib RapidArm.Backend RapidArm.HaltCheck

/-! ## The map of values -/

section Values

variable {C : Cranelift} {s s' : FunctionLowering C} {α : Type}

/-- The Cranelift values of values of the IR. -/
def Names (values : SSAValue → Option α) : List SSAValue → List α → Prop :=
  List.Forall₂ fun v c => values v = some c

/-- The second map has every entry of the first one. -/
def SubMap (values values' : SSAValue → Option α) : Prop :=
  ∀ v c, values v = some c → values' v = some c

theorem SubMap.trans {m₁ m₂ m₃ : SSAValue → Option α} (h : SubMap m₁ m₂) (h' : SubMap m₂ m₃) :
    SubMap m₁ m₃ := fun v c hv => h' v c (h v c hv)

theorem subMap_update {values : SSAValue → Option α} {v : SSAValue} {c : α} (h : values v = none) :
    SubMap values (Function.update values v (some c)) := by
  intro u d hu
  have hne : u ≠ v := by
    rintro rfl
    rw [h] at hu
    cases hu
  rw [Function.update_of_ne hne]
  exact hu

theorem Names.mono {values values' : SSAValue → Option α} (h : SubMap values values')
    {vs : List SSAValue}
    {cs : List α} (hn : Names values vs cs) : Names values' vs cs := List.Forall₂.imp h hn

theorem useValue_ok {v : SSAValue} {c : C.Value} (h : s.useValue v = .ok c) :
    s.values v = some c := by
  unfold FunctionLowering.useValue at h
  split at h
  · rename_i value hvalue
    obtain rfl := Except.ok.inj h
    exact hvalue
  · cases h

theorem mapM_useValue_ok {vs : List SSAValue} {cs : List C.Value}
    (h : vs.mapM s.useValue = .ok cs) :
    Names s.values vs cs := by
  induction vs generalizing cs with
  | nil =>
    obtain rfl := Except.ok.inj h
    exact List.Forall₂.nil
  | cons v vs ih =>
    rw [List.mapM_cons] at h
    obtain ⟨c, hc, h⟩ := bind_eq_ok.1 h
    obtain ⟨rest, hrest, h⟩ := bind_eq_ok.1 h
    obtain rfl := Except.ok.inj h
    exact List.Forall₂.cons (useValue_ok hc) (ih hrest)

theorem clifBlock_ok {block : Block} {cb : C.ClifBlock} (h : s.clifBlock block = .ok cb) :
    s.blocks block = some cb := by
  unfold FunctionLowering.clifBlock at h
  split at h
  · rename_i found hfound
    obtain rfl := Except.ok.inj h
    exact hfound
  · cases h

theorem get_ok {arena : List α} {handle : ℕ} {data : α}
    (h : FunctionLowering.get (C := C) arena handle = .ok data) : arena[handle]? = some data := by
  unfold FunctionLowering.get at h
  split at h
  · rename_i found hfound
    obtain rfl := Except.ok.inj h
    exact hfound
  · cases h

theorem mapError_ok {ε δ : Type} {f : ε → δ} {x : Except ε α} {a : α} (h : x.mapError f = .ok a) :
    x = .ok a := by
  cases x with
  | ok b => exact congrArg Except.ok (Except.ok.inj h)
  | error e => cases h

theorem map_ok {ε β δ : Type} {f : β → δ} {x : Except ε β} {b : δ} (h : x.map f = .ok b) :
    ∃ a, x = .ok a ∧ f a = b := by
  cases x with
  | ok a => exact ⟨a, rfl, Except.ok.inj h⟩
  | error e => cases h

theorem insertOutput_ok {p : C.Value × SSAValue} (h : s.insertOutput p = .ok s') :
    s.values p.2 = none ∧ s' = { s with values := Function.update s.values p.2 (some p.1) } := by
  obtain ⟨_, hnone, h⟩ := bind_eq_ok.1 h
  have hnone := require_eq_ok.1 hnone
  exact ⟨Option.isNone_iff_eq_none.1 hnone, (Except.ok.inj h).symm⟩

/-- The outputs of a statement are entered into the map, each for the first time. -/
theorem insertOutputs_ok {vs : List SSAValue} {cs : List C.Value}
    (h : (cs.zip vs).foldlM FunctionLowering.insertOutput s = .ok s')
    (hlen : vs.length = cs.length) :
    s'.builder = s.builder ∧ s'.blocks = s.blocks ∧ SubMap s.values s'.values ∧
      Names s'.values vs cs ∧
      ∀ v c, s'.values v = some c → s.values v = some c ∨ (c, v) ∈ cs.zip vs := by
  induction cs generalizing vs s with
  | nil =>
    obtain rfl := List.length_eq_zero_iff.1 hlen
    obtain rfl := Except.ok.inj h
    exact ⟨rfl, rfl, fun _ _ hv => hv, List.Forall₂.nil, fun v c hv => .inl hv⟩
  | cons c cs ih =>
    cases vs with
    | nil => cases hlen
    | cons v vs =>
      rw [List.zip_cons_cons, List.foldlM_cons] at h
      obtain ⟨s₁, hfirst, h⟩ := bind_eq_ok.1 h
      obtain ⟨hnone, rfl⟩ := insertOutput_ok hfirst
      obtain ⟨hbuilder, hblocks, hsub, hnames, hold⟩ := ih h (Nat.succ.inj hlen)
      have hself : Function.update s.values v (some c) v = some c := Function.update_self _ _ _
      refine ⟨hbuilder, hblocks, (subMap_update hnone).trans hsub,
        List.Forall₂.cons (hsub v c hself) hnames, fun u d hu => ?_⟩
      rcases hold u d hu with hupdate | hmem
      · by_cases huv : u = v
        · subst huv
          obtain rfl := Option.some.inj (hself.symm.trans hupdate)
          exact .inr List.mem_cons_self
        · exact .inl ((Function.update_of_ne huv _ _).symm.trans hupdate)
      · exact .inr (List.mem_cons_of_mem _ hmem)

/-- With different Cranelift values, the entries of a list of outputs are one to one. -/
theorem zip_fst_unique {β : Type} {cs : List α} {vs : List β} (hnodup : cs.Nodup) {c : α} {v v' : β}
    (h : (c, v) ∈ cs.zip vs) (h' : (c, v') ∈ cs.zip vs) : v = v' := by
  obtain ⟨i, hi⟩ := List.getElem?_of_mem h
  obtain ⟨j, hj⟩ := List.getElem?_of_mem h'
  obtain ⟨hci, hvi⟩ := List.getElem?_zip_eq_some.1 hi
  obtain ⟨hcj, hvj⟩ := List.getElem?_zip_eq_some.1 hj
  obtain ⟨hlt, -⟩ := List.getElem?_eq_some_iff.1 hci
  obtain rfl := (List.getElem?_inj hlt hnodup).1 (hci.trans hcj.symm)
  exact Option.some.inj (hvi.symm.trans hvj)

end Values

/-! ## The code of statements -/

section Code

variable (codeAddr : HostCallback → Address) (ir : ExecIrBuilder)
  (values : SSAValue → Option ClifValue) (blocks : Block → Option ClifBlock)

/-- What is available at a place of the function has been translated with these types. -/
def Bounded (b : Block) (k : ℕ) (types : List IntWidth) : Prop :=
  ∀ v, DefDominates ir v b k → ∃ c, values v = some c ∧ c < types.length

/-- The code of a statement. -/
inductive StmtCode (stmt : Stmt) (types types' : List IntWidth) (code : List ClifStmt) : Prop
  | mk {data : StmtData} {ops outs : List ClifValue} (get : ir.stmts[stmt]? = some data)
      (operands : Names values (FunctionLowering.rvalueUses data.rvalue) ops)
      (outputs : Names values data.outputs outs)
      (run : lowerRvalue codeAddr ir data.rvalue ops ⟨types, []⟩ = .ok (outs, ⟨types', code⟩))

/-- The code of a jump. -/
def JumpCode (jump : Jump) (dest : ClifBlock × List ClifValue) : Prop :=
  blocks jump.target = some dest.1 ∧ Names values jump.parameters dest.2

/-- The values and jumps that `lower_terminator` finds. -/
def TermUses : Terminator → List ClifValue → List (ClifBlock × List ClifValue) → Prop
  | .ret, vals, jumps => vals = [] ∧ jumps = []
  | .returnCode v, vals, jumps => ∃ c, values v = some c ∧ vals = [c] ∧ jumps = []
  | .br jump, vals, jumps => ∃ dest, JumpCode values blocks jump dest ∧ vals = [] ∧ jumps = [dest]
  | .brZ cond zero nonZero, vals, jumps =>
    ∃ c destZ destNz, values cond = some c ∧ JumpCode values blocks zero destZ ∧
      JumpCode values blocks nonZero destNz ∧ vals = [c] ∧ jumps = [destNz, destZ]

/-- The code of a terminator. -/
inductive TermCode (terminator : Terminator) (types types' : List IntWidth) (code : List ClifStmt)
    (term : ClifTerminator) : Prop
  | mk {vals : List ClifValue} {jumps : List (ClifBlock × List ClifValue)}
      (uses : TermUses values blocks terminator vals jumps)
      (run : lowerTerminator terminator vals jumps ⟨types, []⟩ = .ok (term, ⟨types', code⟩))

/-- The code of a block from its `k`-th statement on, translated where there were the values of
    `types`; all there are in the end is `limit`. -/
inductive CodeFrom (limit : List IntWidth) (b : Block) :
    ℕ → List IntWidth → List ClifStmt → ClifTerminator → Prop
  | stmt {k : ℕ} {s : Stmt} {types types' : List IntWidth} {code rest : List ClifStmt}
      {term : ClifTerminator} (get : (ir.blockD b).stmts[k]? = some s)
      (bounded : Bounded ir values b k types) (limited : types <+: limit)
        (limited' : types' <+: limit)
      (head : StmtCode codeAddr ir values s types types' code)
      (tail : CodeFrom limit b (k + 1) types' rest term) :
        CodeFrom limit b k types (code ++ rest) term
  | term {k : ℕ} {types types' : List IntWidth} {code : List ClifStmt} {term : ClifTerminator}
      (atEnd : (ir.blockD b).stmts.length ≤ k) (bounded : Bounded ir values b k types)
      (limited : types <+: limit) (limited' : types' <+: limit)
      (head : TermCode values blocks (ir.blockD b).terminator types types' code term) :
      CodeFrom limit b k types code term

end Code

section Mono

variable {codeAddr : HostCallback → Address} {ir : ExecIrBuilder}
  {values values' : SSAValue → Option ClifValue} {blocks : Block → Option ClifBlock}

theorem Bounded.mono (h : SubMap values values') {b : Block} {k : ℕ} {types : List IntWidth}
    (hb : Bounded ir values b k types) : Bounded ir values' b k types := by
  intro v hv
  obtain ⟨c, hc, hlt⟩ := hb v hv
  exact ⟨c, h v c hc, hlt⟩

theorem StmtCode.mono (h : SubMap values values') {stmt : Stmt} {types types' : List IntWidth}
    {code : List ClifStmt} (hs : StmtCode codeAddr ir values stmt types types' code) :
    StmtCode codeAddr ir values' stmt types types' code := by
  obtain ⟨get, operands, outputs, run⟩ := hs
  exact ⟨get, operands.mono h, outputs.mono h, run⟩

theorem JumpCode.mono (h : SubMap values values') {jump : Jump} {dest : ClifBlock × List ClifValue}
    (hj : JumpCode values blocks jump dest) : JumpCode values' blocks jump dest :=
  ⟨hj.1, hj.2.mono h⟩

theorem TermCode.mono (h : SubMap values values') {terminator : Terminator}
    {types types' : List IntWidth} {code : List ClifStmt} {term : ClifTerminator}
    (ht : TermCode values blocks terminator types types' code term) :
    TermCode values' blocks terminator types types' code term := by
  obtain ⟨uses, run⟩ := ht
  refine ⟨?_, run⟩
  cases terminator with
  | ret => exact uses
  | returnCode v =>
    obtain ⟨c, hc, huses⟩ := uses
    exact ⟨c, h v c hc, huses⟩
  | br jump =>
    obtain ⟨dest, hdest, huses⟩ := uses
    exact ⟨dest, hdest.mono h, huses⟩
  | brZ cond zero nonZero =>
    obtain ⟨c, destZ, destNz, hc, hz, hnz, huses⟩ := uses
    exact ⟨c, destZ, destNz, h cond c hc, hz.mono h, hnz.mono h, huses⟩

theorem CodeFrom.mono (h : SubMap values values') {limit limit' types : List IntWidth}
    (hl : limit <+: limit') {b : Block} {k : ℕ} {code : List ClifStmt} {term : ClifTerminator}
    (hc : CodeFrom codeAddr ir values blocks limit b k types code term) :
    CodeFrom codeAddr ir values' blocks limit' b k types code term := by
  induction hc with
  | stmt get bounded limited limited' head tail ih =>
    exact .stmt get (bounded.mono h) (limited.trans hl) (limited'.trans hl) (head.mono h) ih
  | term atEnd bounded limited limited' head =>
    exact .term atEnd (bounded.mono h) (limited.trans hl) (limited'.trans hl) (head.mono h)

end Mono

/-! ## What the steps of the lowering do -/

section Steps

variable {codeAddr : HostCallback → Address} {ir : ExecIrBuilder}
  {s s' : FunctionLowering (clif codeAddr)}

/-- The types of the values of the function that is built. -/
abbrev typesOf (s : FunctionLowering (clif codeAddr)) : List IntWidth :=
  ClifFunction.types (ClifBuilder.func s.builder)

/-- What is known of the values at any time. -/
structure ValuesInv (s : FunctionLowering (clif codeAddr)) : Prop where
  there : ∀ v (c : ClifValue), s.values v = some c → c < (typesOf s).length
  inj : ∀ v v' c, s.values v = some c → s.values v' = some c → v = v'

theorem clifJump_ok {jump : Jump} {dest : ClifBlock × List ClifValue}
    (h : s.clifJump jump = .ok dest) :
    JumpCode s.values s.blocks jump dest := by
  obtain ⟨block, hblock, h⟩ := bind_eq_ok.1 h
  obtain ⟨args, hargs, h⟩ := bind_eq_ok.1 h
  obtain rfl := Except.ok.inj h
  exact ⟨clifBlock_ok hblock, mapM_useValue_ok hargs⟩

/-- The builder after instructions were inserted at the cursor. -/
def inserted (b : ClifBuilder) (block : ClifBlock) (types : List IntWidth)
    (change : ClifBlockData → ClifBlockData) : ClifBuilder :=
  { func := { types, blocks := b.func.blocks.modify block change, layout := b.func.layout },
    current := b.current }

theorem insert_ok {α : Type} {b b' : ClifBuilder} {emitter : ClifM α} {a : α}
    {finish : α → ClifBlockData → ClifBlockData} (h : b.insert emitter finish = .ok (a, b')) :
    ∃ block t, b.current = some block ∧ emitter ⟨b.func.types, []⟩ = .ok (a, t) ∧
      b' = inserted b block t.types fun data =>
        finish a { data with insts := data.insts ++ t.insts } := by
  unfold ClifBuilder.insert at h
  split at h
  · cases h
  · rename_i block hblock
    obtain ⟨⟨a', t⟩, hrun, h⟩ := bind_eq_ok.1 h
    obtain ⟨rfl, rfl⟩ := Prod.mk.inj (Except.ok.inj h)
    exact ⟨block, t, hblock, hrun, rfl⟩

/-- From `s` to `s'`, the data of the current block `cb` was changed. -/
structure Grows (cb : ClifBlock) (change : ClifBlockData → ClifBlockData)
    (s s' : FunctionLowering (clif codeAddr)) : Prop where
  current : ClifBuilder.current s'.builder = some cb
  blocks : s'.blocks = s.blocks
  values : SubMap s.values s'.values
  types : typesOf s <+: typesOf s'
  func : (ClifBuilder.func s'.builder).blocks = (ClifBuilder.func s.builder).blocks.modify cb change
  layout : (ClifBuilder.func s'.builder).layout = (ClifBuilder.func s.builder).layout
  inv : ValuesInv s'

/-- Add instructions to a block. -/
def appendInsts (code : List ClifStmt) (data : ClifBlockData) : ClifBlockData :=
  { data with insts := data.insts ++ code }

/-- Add instructions to a block, and end it. -/
def endBlock (code : List ClifStmt) (term : ClifTerminator) (data : ClifBlockData) :
    ClifBlockData :=
  { data with insts := data.insts ++ code, terminator := some term }

theorem Grows.trans {cb : ClifBlock} {change change' : ClifBlockData → ClifBlockData}
    {s'' : FunctionLowering (clif codeAddr)} (h : Grows cb change s s')
    (h' : Grows cb change' s' s'') :
    Grows cb (change' ∘ change) s s'' where
  current := h'.current
  blocks := h'.blocks.trans h.blocks
  values := h.values.trans h'.values
  types := h.types.trans h'.types
  func := by rw [h'.func, h.func, List.modify_modify_eq]
  layout := h'.layout.trans h.layout
  inv := h'.inv

theorem lowerRvalue_ok {cb : ClifBlock} (hcurrent : ClifBuilder.current s.builder = some cb)
    {rvalue : StmtKind} {outs : List ClifValue} (h : s.lowerRvalue ir rvalue = .ok (outs, s')) :
    ∃ ops code, Names s.values (FunctionLowering.rvalueUses rvalue) ops ∧
      lowerRvalue codeAddr ir rvalue ops ⟨typesOf s, []⟩ = .ok (outs, ⟨typesOf s', code⟩) ∧
      s' = { s with builder := inserted s.builder cb (typesOf s') (appendInsts code) } := by
  obtain ⟨ops, hops, h⟩ := bind_eq_ok.1 h
  obtain ⟨⟨values, builder⟩, hins, h⟩ := bind_eq_ok.1 h
  obtain ⟨rfl, rfl⟩ := Prod.mk.inj (Except.ok.inj h)
  have hins :
      ClifBuilder.insert s.builder (lowerRvalue codeAddr ir rvalue ops) (fun _ data => data) =
      .ok (values, builder) := mapError_ok hins
  obtain ⟨block, t, hblock, hrun, rfl⟩ := insert_ok hins
  obtain rfl := Option.some.inj (hcurrent.symm.trans hblock)
  exact ⟨ops, t.insts, mapM_useValue_ok hops, hrun, rfl⟩

/-- A statement is translated, and its outputs are new values. -/
theorem lowerStmt_ok {cb : ClifBlock} (hcurrent : ClifBuilder.current s.builder = some cb)
    (hinv : ValuesInv s) {stmt : Stmt} (h : s.lowerStmt ir stmt = .ok s') :
    ∃ code, Grows cb (appendInsts code) s s' ∧
      StmtCode codeAddr ir s'.values stmt (typesOf s) (typesOf s') code := by
  obtain ⟨data, hget, h⟩ := bind_eq_ok.1 h
  obtain ⟨⟨outs, s₁⟩, hrvalue, h⟩ := bind_eq_ok.1 h
  obtain ⟨_, hlen, h⟩ := bind_eq_ok.1 h
  have hlen := require_eq_ok.1 hlen
  obtain ⟨ops, code, hops, hrun, hs₁⟩ := lowerRvalue_ok hcurrent hrvalue
  obtain ⟨hbuilder, hblocks, hsub, hnames, hold⟩ := insertOutputs_ok h hlen
  obtain ⟨hpre, hfresh⟩ := lowerRvalue_fresh _ _ _ hrun
  have hvalues : s₁.values = s.values := by rw [hs₁]
  have hbuilder₁ : s₁.builder = inserted s.builder cb (typesOf s₁) (appendInsts code) := by
    conv_lhs => rw [hs₁]
  have htypes : typesOf s' = typesOf s₁ := by
    show ClifFunction.types (ClifBuilder.func s'.builder) = _
    rw [hbuilder]
  rw [hvalues] at hsub hold
  refine ⟨code, ⟨?_, ?_, hsub, htypes ▸ hpre, ?_, ?_, ?_, ?_⟩, ?_⟩
  · rw [hbuilder, hbuilder₁]
    exact hcurrent
  · rw [hblocks, hs₁]
  · rw [hbuilder, hbuilder₁]
    rfl
  · rw [hbuilder, hbuilder₁]
    rfl
  · -- an old value is there, and so is a new one
    intro v c hv
    rw [htypes]
    rcases hold v c hv with hv | hmem
    · exact lt_of_lt_of_le (hinv.there v c hv) hpre.length_le
    · exact hfresh.there c (List.of_mem_zip hmem).1
  · -- a new value is no old one
    intro v v' c hv hv'
    have hnew : ∀ u u', s.values u = some c → (c, u') ∈ outs.zip data.outputs → u = u' := by
      intro u u' hu hmem
      have hlt := hinv.there u c hu
      have hge := hfresh.new c (List.of_mem_zip hmem).1
      exact absurd hlt (Nat.not_lt.2 hge)
    rcases hold v c hv with hv | hmem <;> rcases hold v' c hv' with hv' | hmem'
    · exact hinv.inj v v' c hv hv'
    · exact hnew v v' hv hmem'
    · exact (hnew v' v hv' hmem).symm
    · exact zip_fst_unique hfresh.nodup hmem hmem'
  · exact ⟨get_ok hget, hops.mono hsub, hnames, htypes ▸ hrun⟩

/-- The terminator is translated. -/
theorem lowerTerminator_ok {cb : ClifBlock} (hcurrent : ClifBuilder.current s.builder = some cb)
    (hinv : ValuesInv s) {terminator : Terminator} (h : s.lowerTerminator terminator = .ok s') :
    ∃ code term, Grows cb (endBlock code term) s s' ∧
      TermCode s'.values s'.blocks terminator (typesOf s) (typesOf s') code term := by
  obtain ⟨⟨vals, jumps⟩, huses, h⟩ := bind_eq_ok.1 h
  obtain ⟨builder, hins, h⟩ := bind_eq_ok.1 h
  obtain rfl := Except.ok.inj h
  have hins : (ClifBuilder.insert s.builder (lowerTerminator terminator vals jumps) fun term data =>
      { data with terminator := some term }).map Prod.snd = .ok builder := mapError_ok hins
  obtain ⟨⟨term, builder'⟩, hinsert, rfl⟩ := map_ok hins
  obtain ⟨block, t, hblock, hrun, rfl⟩ := insert_ok hinsert
  obtain rfl := Option.some.inj (hcurrent.symm.trans hblock)
  obtain ⟨hpre, -⟩ := lowerTerminator_fresh _ _ _ hrun
  refine ⟨t.insts, term, ⟨hcurrent, rfl, fun _ _ hv => hv, hpre, rfl, rfl, ?_, ?_⟩, ⟨?_, hrun⟩⟩
  · exact fun v c hv => lt_of_lt_of_le (hinv.there v c hv) hpre.length_le
  · exact hinv.inj
  · cases terminator with
    | ret => exact (Prod.mk.inj (Except.ok.inj huses)).imp Eq.symm Eq.symm
    | returnCode v =>
      obtain ⟨c, hc, huses⟩ := bind_eq_ok.1 huses
      obtain ⟨rfl, rfl⟩ := Prod.mk.inj (Except.ok.inj huses)
      exact ⟨c, useValue_ok hc, rfl, rfl⟩
    | br jump =>
      obtain ⟨dest, hdest, huses⟩ := bind_eq_ok.1 huses
      obtain ⟨rfl, rfl⟩ := Prod.mk.inj (Except.ok.inj huses)
      exact ⟨dest, clifJump_ok hdest, rfl, rfl⟩
    | brZ cond zero nonZero =>
      obtain ⟨c, hc, huses⟩ := bind_eq_ok.1 huses
      obtain ⟨destNz, hnz, huses⟩ := bind_eq_ok.1 huses
      obtain ⟨destZ, hz, huses⟩ := bind_eq_ok.1 huses
      obtain ⟨rfl, rfl⟩ := Prod.mk.inj (Except.ok.inj huses)
      exact ⟨c, destZ, destNz, useValue_ok hc, clifJump_ok hz, clifJump_ok hnz, rfl, rfl⟩

/-! ### Blocks -/

theorem Lowered.of_subMap (h : SubMap s.values s'.values) {v : SSAValue}
    (hv : FunctionLowering.Lowered s v) : FunctionLowering.Lowered s' v := by
  obtain ⟨c, hc⟩ := Option.isSome_iff_exists.1 hv
  exact Option.isSome_iff_exists.2 ⟨c, h v c hc⟩

theorem lowered_of_names {vs : List SSAValue} {cs : List ClifValue} (h : Names s.values vs cs) :
    ∀ v ∈ vs, FunctionLowering.Lowered s v := by
  intro v hv
  induction h with
  | nil => cases hv
  | cons hhead _ ih =>
    rcases List.mem_cons.1 hv with rfl | hv
    · exact Option.isSome_iff_exists.2 ⟨_, hhead⟩
    · exact ih hv

/-- The blocks before `b`, and its statements before the `k`-th one, have been lowered. -/
structure ReadyAt (ir : ExecIrBuilder) (order done : List Block) (b : Block) (k : ℕ)
    (s : FunctionLowering (clif codeAddr)) : Prop where
  ready : FunctionLowering.Ready ir order done s
  stmts : ∀ stmt ∈ (ir.blockD b).stmts.take k, ∀ v ∈ outputsOf ir stmt, FunctionLowering.Lowered s v

section Block

variable {order done after : List Block} {b : Block} {k : ℕ}

theorem ReadyAt.bounded (h : ReadyAt ir order done b k s) (horder : CompileOrder ir order)
    (hsplit : order = done ++ b :: after) (hinv : ValuesInv s) :
    Bounded ir s.values b k (typesOf s) := by
  intro v hv
  obtain ⟨c, hc⟩ := Option.isSome_iff_exists.1 (h.ready.use horder hsplit h.stmts hv)
  exact ⟨c, hc, hinv.there v c hc⟩

theorem ReadyAt.succ (h : ReadyAt ir order done b k s) {stmt : Stmt} {types types' : List IntWidth}
    {code : List ClifStmt} (hget : (ir.blockD b).stmts[k]? = some stmt)
    (hsub : SubMap s.values s'.values)
    (hcode : StmtCode codeAddr ir s'.values stmt types types' code) :
    ReadyAt ir order done b (k + 1) s' := by
  refine ⟨h.ready.mono fun v hv => Lowered.of_subMap hsub hv, fun stmt' hmem v hv => ?_⟩
  rw [List.take_add_one, hget, List.mem_append] at hmem
  rcases hmem with hmem | hmem
  · exact Lowered.of_subMap hsub (h.stmts stmt' hmem v hv)
  · obtain rfl := List.mem_singleton.1 hmem
    obtain ⟨get, -, outputs, -⟩ := hcode
    unfold outputsOf at hv
    rw [get] at hv
    exact lowered_of_names outputs v hv

/-- The statements from the `k`-th on and the terminator are translated. -/
theorem lowerRest_ok {cb : ClifBlock} (horder : CompileOrder ir order)
    (hsplit : order = done ++ b :: after) {rest : List Stmt}
    (hrest : (ir.blockD b).stmts.drop k = rest) (hcurrent : ClifBuilder.current s.builder = some cb)
    (hinv : ValuesInv s) (hready : ReadyAt ir order done b k s)
    (hrun : (do
      let s ← rest.foldlM (FunctionLowering.lowerStmt ir) s
      s.lowerTerminator (ir.blockD b).terminator) = .ok s') :
    ∃ code term, Grows cb (endBlock code term) s s' ∧
      CodeFrom codeAddr ir s'.values s'.blocks (typesOf s') b k (typesOf s) code term := by
  have hbounded := hready.bounded horder hsplit hinv
  induction rest generalizing k s with
  | nil =>
    obtain ⟨code, term, hgrows, hcode⟩ := lowerTerminator_ok hcurrent hinv hrun
    refine ⟨code, term, hgrows, .term (List.drop_eq_nil_iff.1 hrest) (hbounded.mono hgrows.values)
      hgrows.types (List.prefix_refl _) hcode⟩
  | cons stmt rest ih =>
    rw [List.foldlM_cons, bind_assoc] at hrun
    obtain ⟨s₁, hstmt, hrun⟩ := bind_eq_ok.1 hrun
    obtain ⟨code, hgrows, hcode⟩ := lowerStmt_ok hcurrent hinv hstmt
    have hget : (ir.blockD b).stmts[k]? = some stmt := by
      rw [← List.head?_drop, hrest]
      rfl
    have hready₁ := hready.succ hget hgrows.values hcode
    have hdrop : (ir.blockD b).stmts.drop (k + 1) = rest := by
      rw [← List.tail_drop, hrest]
      rfl
    obtain ⟨code', term, hgrows', hcode'⟩ := ih hdrop hgrows.current hgrows.inv hready₁ hrun
      (hready₁.bounded horder hsplit hgrows.inv)
    refine ⟨code ++ code', term, ?_, .stmt hget (hbounded.mono (hgrows.values.trans hgrows'.values))
      (hgrows.types.trans hgrows'.types) hgrows'.types (hcode.mono hgrows'.values) hcode'⟩
    have htwo : endBlock (code ++ code') term = endBlock code' term ∘ appendInsts code := by
      funext data
      simp [endBlock, appendInsts]
    rw [htwo]
    exact hgrows.trans hgrows'

end Block

end Steps

end RapidArm.Clif
