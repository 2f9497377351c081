import RapidArm.Clif.Blocks
import RapidArm.Clif.Statements

/-!
# The values of the two functions

What the lowering relies on (`Lowerable`), and how the values of a run of the IR agree with
those of a run of its Cranelift function: whatever is available at a place of the function is
held by its Cranelift value (`Agrees`).

Results:
* `rvalue_emits`: the instructions of a statement compute what it yields.
* `Agrees.stmt`, `Agrees.jump`: statements and jumps keep the agreement.
-/

namespace RapidArm.Clif

open RapidArm.Ir RapidArm.Jit RapidArm.Lib RapidArm.Backend RapidArm.HaltCheck RapidArm.Mmu

/-! ## What the lowering relies on -/

/-- The value is the result of a `HasTag`. -/
def isTag (ir : ExecIrBuilder) (v : SSAValue) : Bool :=
  ir.stmts.any fun data => isHasTag data.rvalue && data.outputs.contains v

/-- Every value is defined once. -/
def SingleDefs (ir : ExecIrBuilder) : Prop :=
  (ir.blocks.flatMap BlockData.parameters ++ ir.stmts.flatMap StmtData.outputs).Nodup

instance (ir : ExecIrBuilder) : Decidable (SingleDefs ir) :=
  inferInstanceAs (Decidable (List.Nodup _))

/-- The values of a statement have the types it yields and are used at types it is defined for. -/
structure StmtTyped (ir : ExecIrBuilder) (data : StmtData) : Prop where
  outputs : ∃ tys, ir.typeOf data.rvalue = .ok tys ∧
    List.Forall₂ (fun v ty => ir.ssaValues[v]? = some ty) data.outputs tys
  select : ∀ cond ifTrue ifFalse, data.rvalue = .select cond ifTrue ifFalse →
    ir.ssaValues[ifTrue]? = ir.ssaValues[ifFalse]?
  /-- The complement of a byte that is 0 or 1 is not such a byte. -/
  bitNot : ∀ v, data.rvalue = .bitNot v → ir.ssaValues[v]? ≠ some .bool
  /-- A tag is only tested. -/
  tags : ∀ v ∈ valueOperands data.rvalue, isTag ir v = false

/-- A jump passes values of the types of the parameters. -/
structure JumpTyped (ir : ExecIrBuilder) (jump : Jump) : Prop where
  types : ∀ data, ir.blocks[jump.target]? = some data →
    List.Forall₂ (fun p v => ir.ssaValues[p]? = ir.ssaValues[v]?) data.parameters jump.parameters
  tags : ∀ v ∈ jump.parameters, isTag ir v = false

/-- What the lowering relies on. -/
structure Lowerable (ir : ExecIrBuilder) : Prop where
  targets : TargetsExist ir
  entry : ∀ u, Block.ENTRYPOINT ∉ ir.succs u
  single : SingleDefs ir
  uses : UsesDominated ir
  stmts : ∀ data ∈ ir.stmts, StmtTyped ir data
  jumps : ∀ jump ∈ jumps ir, JumpTyped ir jump

section Static

variable {ir : ExecIrBuilder}

theorem SingleDefs.uniqueParameters (h : SingleDefs ir) : UniqueParameters ir :=
  (List.nodup_append.1 h).1

theorem SingleDefs.isTag_output (h : SingleDefs ir) {data : StmtData} (hdata : data ∈ ir.stmts)
    {v : SSAValue} (hv : v ∈ data.outputs) : isTag ir v = isHasTag data.rvalue := by
  have hpairwise := List.pairwise_iff_getElem.1 (List.nodup_flatMap.1 (List.nodup_append.1 h).2.1).2
  obtain ⟨i, hi, rfl⟩ := List.getElem_of_mem hdata
  refine Bool.eq_iff_iff.2 ⟨fun htag => ?_, fun htag => ?_⟩
  · obtain ⟨data', hdata', hhas⟩ := List.any_eq_true.1 htag
    rw [Bool.and_eq_true, List.contains_iff_mem] at hhas
    obtain ⟨j, hj, rfl⟩ := List.getElem_of_mem hdata'
    rcases Nat.lt_trichotomy i j with hij | rfl | hij
    · exact absurd hhas.2 (hpairwise i j hi hj hij hv)
    · exact hhas.1
    · exact absurd hv (hpairwise j i hj hi hij hhas.2)
  · refine List.any_eq_true.2 ⟨_, hdata, ?_⟩
    rw [Bool.and_eq_true, List.contains_iff_mem]
    exact ⟨htag, hv⟩

theorem SingleDefs.isTag_parameter (h : SingleDefs ir) {b : Block} {p : SSAValue}
    (hp : p ∈ (ir.blockD b).parameters) : isTag ir p = false := by
  obtain ⟨data, hget, hp⟩ := blockD_parameters hp
  refine Bool.eq_false_iff.2 fun htag => ?_
  obtain ⟨data', hdata', hhas⟩ := List.any_eq_true.1 htag
  rw [Bool.and_eq_true, List.contains_iff_mem] at hhas
  have hparam := List.mem_flatMap.2 ⟨data, List.mem_of_getElem? hget, hp⟩
  have hout := List.mem_flatMap.2 ⟨data', hdata', hhas.2⟩
  exact (List.nodup_append.1 h).2.2 p hparam p hout rfl

/-- What is available at the start of a block is one of its parameters, or available at the end
    of every block that jumps to it. -/
theorem defDominates_of_edge {u b : Block} {k : ℕ} {v : SSAValue} (hu : Reachable ir u)
    (hedge : b ∈ ir.succs u) (hk : (ir.blockD u).stmts.length ≤ k) (h : DefDominates ir v b 0) :
    v ∈ (ir.blockD b).parameters ∨ DefDominates ir v u k := by
  have hdom : ∀ d, d ≠ b → Dominates ir d b → Dominates ir d u := by
    intro d hne hd path hpath hlast
    have hmem := hd (path ++ [b]) (IsPath.snoc hpath hlast hedge) (by simp)
    rcases List.mem_append.1 hmem with hmem | hmem
    · exact hmem
    · exact absurd (List.mem_singleton.1 hmem) hne
  rcases h with ⟨d, hv, hd⟩ | ⟨d, i, s, hs, hv, ⟨-, hlt⟩ | ⟨hne, hd⟩⟩
  · by_cases hdb : d = b
    · exact .inl (hdb ▸ hv)
    · exact .inr (.inl ⟨d, hv, hdom d hdb hd⟩)
  · exact absurd hlt (Nat.not_lt_zero i)
  · refine .inr (.inr ⟨d, i, s, hs, hv, ?_⟩)
    by_cases hdu : d = u
    · subst hdu
      exact .inl ⟨rfl, lt_of_lt_of_le (getElem?_eq_some_lt hs) hk⟩
    · exact .inr ⟨hdu, hdom d hne hd⟩

/-- A statement makes its outputs available. -/
theorem defDominates_of_succ {b : Block} {k : ℕ} {v : SSAValue} {s : Stmt}
    (hs : (ir.blockD b).stmts[k]? = some s) (h : DefDominates ir v b (k + 1)) :
    v ∈ outputsOf ir s ∨ DefDominates ir v b k := by
  rcases h with hparam | ⟨d, i, s', hs', hv, ⟨rfl, hlt⟩ | hother⟩
  · exact .inr (.inl hparam)
  · rcases Nat.lt_succ_iff_lt_or_eq.1 hlt with hlt | rfl
    · exact .inr (.inr ⟨d, i, s', hs', hv, .inl ⟨rfl, hlt⟩⟩)
    · obtain rfl := Option.some.inj (hs.symm.trans hs')
      exact .inl hv
  · exact .inr (.inr ⟨d, i, s', hs', hv, .inr hother⟩)

end Static

/-! ## Bindings -/

/-- Values that are bound to different names. -/
theorem bind_names {κ α : Type*} [DecidableEq κ] {names : List κ} {vals : List α}
    (hlen : names.length = vals.length) (hnodup : names.Nodup) (ρ : κ → α) :
    List.Forall₂ (fun n x => (names.zip vals).foldl (fun ρ p => Function.update ρ p.1 p.2) ρ n =
      x) names vals ∧
      ∀ n ∉ names, (names.zip vals).foldl (fun ρ p => Function.update ρ p.1 p.2) ρ n = ρ n := by
  induction names generalizing vals ρ with
  | nil =>
    obtain rfl := List.length_eq_zero_iff.1 hlen.symm
    exact ⟨List.Forall₂.nil, fun _ _ => rfl⟩
  | cons m names ih =>
    cases vals with
    | nil => cases hlen
    | cons x vals =>
      obtain ⟨hnot, hnodup⟩ := List.nodup_cons.1 hnodup
      obtain ⟨hbound, hkept⟩ := ih (Nat.succ.inj hlen) hnodup (Function.update ρ m x)
      rw [List.zip_cons_cons, List.foldl_cons]
      refine ⟨List.Forall₂.cons ?_ hbound, fun n hn => ?_⟩
      · rw [hkept m hnot, Function.update_self]
      · rw [List.mem_cons, not_or] at hn
        rw [hkept n hn.2, Function.update_of_ne hn.1]

/-! ## Statements -/

section Values

variable {W : Type} {host : FlatHost W} {halts : ℕ → BitVec 32} {ir : ExecIrBuilder}
  {values : SSAValue → Option ClifValue} {env : SSAValue → Val Address}
  {types types' limit : List IntWidth} {b : Block} {k : ℕ} {s s' : ClifState W}

/-- What is available at a place of the function has its type, and its Cranelift value holds it. -/
def Agrees (ir : ExecIrBuilder) (values : SSAValue → Option ClifValue)
    (limit : List IntWidth) (b : Block)
    (k : ℕ) (env : SSAValue → Val Address) (s : ClifState W) : Prop :=
  ∀ v, DefDominates ir v b k → TypedValue ir env v ∧
    ∃ cv, values v = some cv ∧ Shows (isTag ir) env limit s v cv

theorem isInteger_useOrder {α : Type} {rvalue : StmtKind} (h : isInteger rvalue = true)
    (args : List α) :
    useOrder rvalue args = args := by
  cases rvalue <;> first | rfl | cases h

/-- The instructions of a statement compute what it yields, from the Cranelift values that hold
    its operands. -/
theorem rvalue_emits {c : Config (flatMachine host)} {outputs : List SSAValue} {rvalue : StmtKind}
    (htyped : StmtTyped ir ⟨outputs, rvalue⟩)
    (hsingle : SingleDefs ir)
    (hparam : Arg.haltReasonPtr.asSSAValue ∈ (ir.blockD Block.ENTRYPOINT).parameters)
    (hptr : c.env Arg.haltReasonPtr.asSSAValue = .ptr host.haltReasonPtr) {ops : List ClifValue}
    (hops : List.Forall₂ (Shows (isTag ir) c.env types s) (FunctionLowering.rvalueUses rvalue) ops)
    (hvalues : ∀ v ∈ rvalue.operands, TypedValue ir c.env v) (hworld : s.world = c.world)
    (hreads : s.reads = c.reads) {vals : List (Val Address)} {world : W} {reads : ℕ}
    (heval : (flatMachine host).evalStmt halts c rvalue = some (vals, world, reads)) :
    ∃ words, List.Forall₂ (Represents (isHasTag rvalue)) vals words ∧
      Emits host halts types s (lowerRvalue host.codeAddr ir rvalue ops)
        (Many world reads words) := by
  -- the cell of the halt reason is in an argument
  have hcell :
      ∀ {ops}, List.Forall₂ (Shows (isTag ir) c.env types s) [Arg.haltReasonPtr.asSSAValue] ops →
      ∃ cell, ops = [cell] ∧ Holds types s cell ⟨.w64, host.haltReasonPtr⟩ := by
    intro ops hops
    obtain ⟨cell, rest, hshows, hrest, rfl⟩ := List.forall₂_cons_left_iff.1 hops
    obtain rfl := List.forall₂_nil_left_iff.1 hrest
    have hword := hshows.word (hsingle.isTag_parameter hparam)
    rw [hptr] at hword
    exact ⟨cell, rfl, hword⟩
  by_cases hload : rvalue = .loadHaltReason
  · subst hload
    obtain ⟨rfl, hrest⟩ := Prod.mk.inj (Option.some.inj heval)
    obtain ⟨rfl, rfl⟩ := Prod.mk.inj hrest
    obtain ⟨cell, rfl, hcell⟩ := hcell hops
    refine ⟨[⟨.w32, halts c.reads⟩], List.Forall₂.cons (represents_word _) List.Forall₂.nil, ?_⟩
    rw [← hworld, ← hreads]
    exact lowerLoadHaltReason_emits hcell
  have hmap : (flatMachine host).evalStmt halts c rvalue =
      ((flatMachine host).eval rvalue (rvalue.operands.map c.env) c.world).map
        fun r => (r.1, r.2, c.reads) := by
    unfold Machine.evalStmt
    split
    · contradiction
    · rfl
  have hsome : (flatMachine host).eval rvalue (rvalue.operands.map c.env) s.world =
      some (vals, world) ∧
      reads = s.reads := by
    rw [hmap] at heval
    obtain ⟨r, hr, hresult⟩ := Option.map_eq_some_iff.1 heval
    obtain ⟨rfl, hrest⟩ := Prod.mk.inj hresult
    obtain ⟨rfl, rfl⟩ := Prod.mk.inj hrest
    rw [hworld, hreads]
    exact ⟨hr, rfl⟩
  clear heval hmap
  obtain ⟨heval, rfl⟩ := hsome
  by_cases htake : rvalue = .takeHaltReason
  · subst htake
    obtain ⟨rfl, rfl⟩ := Prod.mk.inj (Option.some.inj heval)
    obtain ⟨cell, rfl, hcell⟩ := hcell hops
    exact lowerTakeHaltReason_computed hcell
  have huses := @map_rvalueUses (Val Address) rvalue c.env hload htake
  by_cases hselect : ∃ cond ifTrue ifFalse, rvalue = .select cond ifTrue ifFalse
  · obtain ⟨cond, ifTrue, ifFalse, rfl⟩ := hselect
    have hwidth : (toWord (c.env ifTrue)).width = (toWord (c.env ifFalse)).width := by
      obtain ⟨ty, hty, htrue⟩ := hvalues ifTrue (by simp [StmtKind.operands])
      obtain ⟨ty', hty', hfalse⟩ := hvalues ifFalse (by simp [StmtKind.operands])
      rw [htyped.select cond ifTrue ifFalse rfl, hty'] at hty
      obtain rfl := Option.some.inj hty
      rw [toWord_width htrue, toWord_width hfalse]
    obtain ⟨vals', hinteger, hvals⟩ := Option.map_eq_some_iff.1 heval
    obtain ⟨rfl, rfl⟩ := Prod.mk.inj hvals
    exact lowerSelect_computed hops (htyped.tags ifTrue (by simp [valueOperands]))
      (htyped.tags ifFalse (by simp [valueOperands])) hwidth hinteger
  have hvalueOperands : valueOperands rvalue = FunctionLowering.rvalueUses rvalue := by
    unfold valueOperands
    split
    · exact absurd ⟨_, _, _, rfl⟩ hselect
    · rfl
  have hargs := holdAll_of_shows hops fun v hv => htyped.tags v (hvalueOperands ▸ hv)
  rw [huses] at hargs
  simp only [flatMachine] at heval
  split_ifs at heval with hint
  · obtain ⟨vals', hinteger, hvals⟩ := Option.map_eq_some_iff.1 heval
    obtain ⟨rfl, rfl⟩ := Prod.mk.inj hvals
    rw [isInteger_useOrder hint] at hargs
    refine lowerInteger_computed (fun cond t f h => hselect ⟨cond, t, f, h⟩) hargs ?_ hinteger
    rintro v x rfl hbool
    obtain ⟨ty, hty, hv⟩ := hvalues v (by simp [StmtKind.operands])
    have hx : c.env v = .bool x := (List.cons.inj hbool).1
    rw [hx, hasType_bool] at hv
    exact htyped.bitNot v rfl (hv ▸ hty)
  · exact lowerFlat_computed htake hargs heval

/-! ### Moving to other places -/

theorem Shows.grow (h : types <+: limit) {v : SSAValue} {cv : ClifValue}
    (hv : Shows (isTag ir) env types s v cv) : Shows (isTag ir) env limit s v cv := by
  obtain ⟨word, hword, hrep⟩ := hv
  exact ⟨word, ⟨getElem?_of_isPrefix h hword.1, hword.2⟩, hrep⟩

theorem Shows.shrink (h : types <+: limit) {v : SSAValue} {cv : ClifValue} (hlt : cv < types.length)
    (hv : Shows (isTag ir) env limit s v cv) : Shows (isTag ir) env types s v cv := by
  obtain ⟨word, hword, hrep⟩ := hv
  have hget := getElem?_of_isPrefix h (List.getElem?_eq_getElem hlt)
  exact ⟨word, ⟨(List.getElem?_eq_getElem hlt).trans (hget.symm.trans hword.1), hword.2⟩, hrep⟩

/-- What is used at a place is shown by the Cranelift values that the lowering found for it. -/
theorem Agrees.uses (h : Agrees ir values limit b k env s) (htypes : types <+: limit)
    (hbounded : Bounded ir values b k types) {vs : List SSAValue}
    (hvs : ∀ v ∈ vs, DefDominates ir v b k) {cs : List ClifValue} (hnames : Names values vs cs) :
    List.Forall₂ (Shows (isTag ir) env types s) vs cs := by
  induction hnames with
  | nil => exact List.Forall₂.nil
  | @cons v c vs cs hc _ ih =>
    refine List.Forall₂.cons ?_ (ih fun u hu => hvs u (List.mem_cons_of_mem _ hu))
    have hv := hvs v List.mem_cons_self
    obtain ⟨-, cv, hcv, hshows⟩ := h v hv
    obtain rfl := Option.some.inj (hc.symm.trans hcv)
    obtain ⟨cv, hcv, hlt⟩ := hbounded v hv
    obtain rfl := Option.some.inj (hc.symm.trans hcv)
    exact hshows.shrink htypes hlt

/-- The instructions of a place keep what is available there. -/
theorem Agrees.extends (h : Agrees ir values limit b k env s)
    (hbounded : Bounded ir values b k types) (hext : Extends types s types' s') :
    Agrees ir values limit b k env s' := by
  intro v hv
  obtain ⟨htyped, cv, hcv, word, ⟨hty, hword⟩, hrep⟩ := h v hv
  obtain ⟨cv', hcv', hlt⟩ := hbounded v hv
  obtain rfl := Option.some.inj (hcv.symm.trans hcv')
  exact ⟨htyped, cv, hcv, word, ⟨hty, (hext.keeps cv hlt).trans hword⟩, hrep⟩

/-- Values that are bound to the outputs of a statement. -/
theorem agrees_outputs {tag : Bool} {outputs : List SSAValue} {vals : List (Val Address)}
    {tys : List TypeFull} {outs : List ClifValue} {words : List Word}
    (hbound : List.Forall₂ (fun v x => env v = x) outputs vals)
    (htys : List.Forall₂ (fun v ty => ir.ssaValues[v]? = some ty) outputs tys)
    (htypes : List.Forall₂ HasType vals tys) (hnames : Names values outputs outs)
    (hheld : List.Forall₂ (Holds types s) outs words)
    (hrep : List.Forall₂ (Represents tag) vals words) (htag : ∀ v ∈ outputs, isTag ir v = tag) :
    ∀ v ∈ outputs, TypedValue ir env v ∧ ∃ cv, values v = some cv ∧
      Shows (isTag ir) env types s v cv := by
  induction hbound generalizing tys outs words with
  | nil => simp
  | @cons u x outputs vals hx _ ih =>
    obtain ⟨ty, tys, hty, htys', rfl⟩ := List.forall₂_cons_left_iff.1 htys
    obtain ⟨hxty, htypes'⟩ := List.forall₂_cons.1 htypes
    obtain ⟨cv, outs, hcv, hnames', rfl⟩ := List.forall₂_cons_left_iff.1 hnames
    obtain ⟨word, words, hword, hheld', rfl⟩ := List.forall₂_cons_left_iff.1 hheld
    obtain ⟨hxword, hrep'⟩ := List.forall₂_cons.1 hrep
    intro v hv
    rcases List.mem_cons.1 hv with rfl | hv
    · refine ⟨⟨ty, hty, hx ▸ hxty⟩, cv, hcv, word, hword, ?_⟩
      rw [htag v List.mem_cons_self, hx]
      exact hxword
    · exact ih htys' htypes' hnames' hheld' hrep' (fun v hv =>
        htag v (List.mem_cons_of_mem _ hv)) v hv

/-- After a statement. -/
theorem Agrees.stmt (h : Agrees ir values limit b k env s) (hsingle : SingleDefs ir) {stmt : Stmt}
    {data : StmtData} (hstmt : (ir.blockD b).stmts[k]? = some stmt)
    (hget : ir.stmts[stmt]? = some data) (htypes' : types' <+: limit)
    (hbounded : Bounded ir values b k types) (hext : Extends types s types' s')
    {vals : List (Val Address)} {tys : List TypeFull} {outs : List ClifValue} {words : List Word}
    (htys : List.Forall₂ (fun v ty => ir.ssaValues[v]? = some ty) data.outputs tys)
    (hvals : List.Forall₂ HasType vals tys) (hnames : Names values data.outputs outs)
    (hheld : List.Forall₂ (Holds types' s') outs words)
    (hrep : List.Forall₂ (Represents (isHasTag data.rvalue)) vals words) :
    Agrees ir values limit b (k + 1) ((flatMachine host).define env data.outputs vals) s' := by
  have hdata := List.mem_of_getElem? hget
  have hnodup : data.outputs.Nodup :=
    (List.nodup_flatMap.1 (List.nodup_append.1 hsingle).2.1).1 data hdata
  have hlen : data.outputs.length = vals.length := htys.length_eq.trans hvals.length_eq.symm
  obtain ⟨hbound, hkept⟩ := bind_names hlen hnodup env
  have hnew := agrees_outputs hbound htys hvals hnames hheld hrep
    fun v hv => hsingle.isTag_output hdata hv
  intro v hv
  by_cases hmem : v ∈ data.outputs
  · obtain ⟨htyped, cv, hcv, hshows⟩ := hnew v hmem
    exact ⟨htyped, cv, hcv, hshows.grow htypes'⟩
  · have hold : DefDominates ir v b k := by
      rcases defDominates_of_succ hstmt hv with hout | hv
      · unfold outputsOf at hout
        rw [hget] at hout
        exact absurd hout hmem
      · exact hv
    obtain ⟨⟨ty, hty, htyped⟩, cv, hcv, word, hword, hrep⟩ :=
      h.extends hbounded hext v hold
    have henv : (flatMachine host).define env data.outputs vals v = env v := hkept v hmem
    refine ⟨⟨ty, hty, ?_⟩, cv, hcv, word, hword, ?_⟩
    · rw [henv]
      exact htyped
    · rw [henv]
      exact hrep

/-! ## Jumps -/

theorem Names.exists_of_mem {vs : List SSAValue} {cs : List ClifValue} (h : Names values vs cs)
    {c : ClifValue} (hc : c ∈ cs) : ∃ v ∈ vs, values v = some c := by
  induction h with
  | nil => cases hc
  | @cons v d vs cs hv _ ih =>
    rcases List.mem_cons.1 hc with rfl | hc
    · exact ⟨v, List.mem_cons_self, hv⟩
    · obtain ⟨u, hu, hvalue⟩ := ih hc
      exact ⟨u, List.mem_cons_of_mem _ hu, hvalue⟩

theorem Names.nodup (hinj : ∀ v v' c, values v = some c → values v' = some c → v = v')
    {vs : List SSAValue}
    {cs : List ClifValue} (h : Names values vs cs) (hvs : vs.Nodup) : cs.Nodup := by
  induction h with
  | nil => exact List.nodup_nil
  | @cons v c vs cs hv hrest ih =>
    obtain ⟨hnot, hvs⟩ := List.nodup_cons.1 hvs
    refine List.nodup_cons.2 ⟨fun hc => ?_, ih hvs⟩
    obtain ⟨u, hu, hvalue⟩ := Names.exists_of_mem hrest hc
    exact hnot (hinj v u c hv hvalue ▸ hu)

/-- Values that are passed to the parameters of a block. -/
theorem agrees_parameters {ps : List SSAValue} {cps : List ClifValue} {xs : List (Val Address)}
    (hparams : List.Forall₂ (Param ir values limit) ps cps)
    (hbound : List.Forall₂ (fun p x => env p = x) ps xs)
    (hbound' : List.Forall₂ (fun cp word => s.env cp = word) cps (xs.map toWord))
    (htyped : List.Forall₂ (fun p x => ∃ ty, ir.ssaValues[p]? = some ty ∧ HasType x ty) ps xs)
    (htag : ∀ p ∈ ps, isTag ir p = false) :
    (∀ p ∈ ps, TypedValue ir env p ∧ ∃ cv, values p = some cv ∧ Shows (isTag ir) env limit s p cv) ∧
    (xs.map toWord).map (fun word => some word.width) = cps.map (limit[·]?) := by
  induction hparams generalizing xs with
  | nil =>
    obtain rfl := List.forall₂_nil_left_iff.1 hbound
    exact ⟨by simp, rfl⟩
  | @cons p cp ps cps hparam _ ih =>
    obtain ⟨x, xs, henv, hbounds, rfl⟩ := List.forall₂_cons_left_iff.1 hbound
    obtain ⟨hcp, hbounds'⟩ := List.forall₂_cons.1 hbound'
    obtain ⟨⟨ty, hty, hx⟩, htypeds⟩ := List.forall₂_cons.1 htyped
    obtain ⟨hrest, hwidths⟩ :=
      ih hbounds hbounds' htypeds fun p hp => htag p (List.mem_cons_of_mem _ hp)
    obtain ⟨hvalue, ty', hty', hlimit⟩ := hparam
    obtain rfl : ty = ty' := Option.some.inj (hty.symm.trans hty')
    have hwidth := toWord_width hx
    refine ⟨fun q hq => ?_, ?_⟩
    · rcases List.mem_cons.1 hq with rfl | hq
      · refine ⟨⟨ty, hty, henv ▸ hx⟩, cp, hvalue, toWord x, ⟨?_, hcp⟩, ?_⟩
        · rw [hlimit, hwidth]
        · rw [htag q List.mem_cons_self, henv]
          exact represents_word _
      · exact hrest q hq
    · rw [List.map_cons, List.map_cons, List.map_cons, hwidths, hlimit, hwidth]

/-- After a jump. -/
theorem Agrees.jump (h : Agrees ir values limit b k env s)
    (hinj : ∀ v v' c, values v = some c → values v' = some c → v = v') (hsingle : SingleDefs ir)
    (hreach : Reachable ir b) (hend : (ir.blockD b).stmts.length ≤ k) {jump : Jump}
    (hedge : jump.target ∈ ir.succs b) (huses : ∀ v ∈ jump.parameters, DefDominates ir v b k)
    (htyped : JumpTyped ir jump) {data : BlockData} (hdata : ir.blocks[jump.target]? = some data)
    {cps cvs : List ClifValue} (hparams : List.Forall₂ (Param ir values limit) data.parameters cps)
    (hargs : Names values jump.parameters cvs) :
    (cvs.map s.env).map (fun x => some x.width) = cps.map (limit[·]?) ∧
      Agrees ir values limit jump.target 0 (clifCopy _ (data.parameters.zip jump.parameters) env)
        { s with env := bindValues s.env cps (cvs.map s.env) } := by
  have hblockD := blockD_eq hdata
  have htypes := htyped.types data hdata
  have hnames : Names values data.parameters cps := List.Forall₂.imp (fun _ _ hp => hp.1) hparams
  have hnodup : data.parameters.Nodup := hblockD ▸ hsingle.uniqueParameters.nodup jump.target
  have hlen : cps.length = (cvs.map s.env).length := by
    rw [List.length_map, ← hparams.length_eq, htypes.length_eq, hargs.length_eq]
  have hzip : ((data.parameters.zip jump.parameters).map Prod.fst).Nodup := by
    rw [List.map_fst_zip htypes.length_eq.le]
    exact hnodup
  -- the copies of the IR, and those of Cranelift
  obtain ⟨hbound', hkept'⟩ := bind_names hlen (hnames.nodup hinj hnodup) s.env
  have hcopy : List.Forall₂
      (fun p v => clifCopy _ (data.parameters.zip jump.parameters) env p = env v)
      data.parameters jump.parameters :=
    List.forall₂_iff_zip.2 ⟨htypes.length_eq, fun hmem => parAssign_of_mem hzip hmem env⟩
  have hshows : List.Forall₂ (Shows (isTag ir) env limit s) jump.parameters cvs := by
    refine List.forall₂_iff_zip.2 ⟨hargs.length_eq, fun {v c} hmem => ?_⟩
    obtain ⟨-, cv, hcv, hshows⟩ := h v (huses v (List.of_mem_zip hmem).1)
    obtain rfl := Option.some.inj ((List.forall₂_iff_zip.1 hargs).2 hmem |>.symm.trans hcv)
    exact hshows
  have hpassed : List.Forall₂ (fun p x => ∃ ty, ir.ssaValues[p]? = some ty ∧ HasType x ty)
      data.parameters (jump.parameters.map env) := by
    refine List.forall₂_map_right_iff.2 (List.forall₂_iff_zip.2 ⟨htypes.length_eq,
      fun {p v} hmem => ?_⟩)
    obtain ⟨⟨ty, hty, hv⟩, -⟩ := h v (huses v (List.of_mem_zip hmem).2)
    exact ⟨ty, ((List.forall₂_iff_zip.1 htypes).2 hmem).trans hty, hv⟩
  have hwords := HoldAll.map_env (holdAll_of_shows hshows htyped.tags)
  rw [hwords] at hbound' hkept' ⊢
  have hbound' : List.Forall₂ (fun cp x => ClifState.env
      { s with env := bindValues s.env cps ((jump.parameters.map env).map toWord) } cp = x)
      cps ((jump.parameters.map env).map toWord) := hbound'
  obtain ⟨hnew, hwidths⟩ := agrees_parameters hparams (List.forall₂_map_right_iff.2 hcopy) hbound'
    hpassed fun p hp => hsingle.isTag_parameter (hblockD ▸ hp)
  refine ⟨hwidths, fun v hv => ?_⟩
  by_cases hmem : v ∈ data.parameters
  · exact hnew v hmem
  · have hold : DefDominates ir v b k := by
      rcases defDominates_of_edge hreach hedge hend hv with hparam | hv
      · exact absurd (hblockD ▸ hparam) hmem
      · exact hv
    obtain ⟨⟨ty, hty, htypedv⟩, cv, hcv, word, ⟨hlimit, hword⟩, hrep⟩ := h v hold
    have henv : clifCopy _ (data.parameters.zip jump.parameters) env v = env v := by
      refine parAssign_of_notMem hzip ?_ env
      rw [List.map_fst_zip htypes.length_eq.le]
      exact hmem
    have hcv' : cv ∉ cps := by
      intro hin
      obtain ⟨p, hp, hvalue⟩ := hnames.exists_of_mem hin
      exact hmem (hinj v p cv hcv hvalue ▸ hp)
    refine ⟨⟨ty, hty, henv ▸ htypedv⟩, cv, hcv, word, ⟨hlimit, (hkept' cv hcv').trans hword⟩, ?_⟩
    rw [henv]
    exact hrep

end Values

end RapidArm.Clif
