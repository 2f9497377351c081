import RapidArm.HaltCheck.Correct
import RapidArm.HaltCheck.Simulation

/-!
# The pass preserves meaning

Values are defined by the parameters of blocks and by the outputs of statements. A value
that was defined on every path to its uses still is: a continuation is only reached through
the parts of the block before it.

Results:
* `usesDefined_of_refines`: the uses of a value stay defined on every path.
* `insertHaltChecks_preserves`: the function with halt checks runs like the original one
  while its halt checks read zero, stops right after a safepoint when one does not, and
  keeps the uses of its values defined.
-/

namespace RapidArm.HaltCheck

open RapidArm.Ir RapidArm.Lib RapidArm.Backend

/-! ## Definitions and uses -/

/-- The values a statement defines. -/
def outputsOf (ir : ExecIrBuilder) (s : Stmt) : List SSAValue :=
  match ir.stmts[s]? with
  | some data => data.outputs
  | none => []

/-- The values a statement reads. -/
def operandsOf (ir : ExecIrBuilder) (s : Stmt) : List SSAValue :=
  match ir.stmts[s]? with
  | some data => data.rvalue.operands
  | none => []

/-- The values defined in a block before its `k`-th statement. -/
def definedBefore (ir : ExecIrBuilder) (b : Block) (k : ℕ) : List SSAValue :=
  (ir.blockD b).parameters ++ ((ir.blockD b).stmts.take k).flatMap (outputsOf ir)

/-- The values a block defines. -/
def definitions (ir : ExecIrBuilder) (b : Block) : List SSAValue :=
  (ir.blockD b).parameters ++ (ir.blockD b).stmts.flatMap (outputsOf ir)

/-- The values used by the `k`-th statement of a block or, past the last one, by its
    terminator. -/
def usesAt (ir : ExecIrBuilder) (b : Block) (k : ℕ) : List SSAValue :=
  match (ir.blockD b).stmts[k]? with
  | some s => operandsOf ir s
  | none => (ir.blockD b).terminator.operands

/-- The value is defined on every path from the entry to the `k`-th statement of a block. -/
def DefinedOnEveryPath (ir : ExecIrBuilder) (b : Block) (k : ℕ) (v : SSAValue) : Prop :=
  ∀ defs, PathIn ir (definitions ir) b defs → v ∈ defs ++ definedBefore ir b k

/-- Every use of the value is defined on every path to it. -/
def UsesDefined (ir : ExecIrBuilder) (v : SSAValue) : Prop :=
  ∀ b k, v ∈ usesAt ir b k → DefinedOnEveryPath ir b k v

section Defined

variable {ir ir' : ExecIrBuilder} {marked : Finset Stmt} {last : Block → Block}

/-- The statements of the original function define and read what they did. -/
theorem Refines.stmt_eq (href : Refines ir ir' marked last) {s : Stmt} (hs : s < ir.stmts.length) :
    outputsOf ir' s = outputsOf ir s ∧ operandsOf ir' s = operandsOf ir s := by
  have hget := List.getElem?_eq_getElem hs
  simp only [outputsOf, operandsOf, hget, getElem?_of_isPrefix href.stmts hget, and_self]

theorem Refines.flatMap_outputs (href : Refines ir ir' marked last) {l : List Stmt}
    (hl : ∀ s ∈ l, s < ir.stmts.length) : l.flatMap (outputsOf ir') = l.flatMap (outputsOf ir) :=
  List.flatMap_congr fun s hs => (href.stmt_eq (hl s hs)).1

theorem stmts_lt_of_wf (hwf : WF ir) {u : Block} (hu : u < ir.blocks.length) :
    ∀ s ∈ (ir.blockD u).stmts, s < ir.stmts.length := by
  have hget := List.getElem?_eq_getElem hu
  rw [blockD_eq hget]
  exact (hwf.blocks _ (List.mem_of_getElem? hget)).stmts_lt

/-- Where a path of the result has come to, after defining `defs`: the part `b` of an
    original block `u`, or the block to leave by. A path of the original function to the same
    statement defines no more. -/
inductive Located (ir ir' : ExecIrBuilder) (marked : Finset Stmt) (last : Block → Block)
    (defs : List SSAValue) (b : Block) : Prop
  | part {u : Block} {defs₀ : List SSAValue} (before : List Stmt)
    {rest : List Stmt} (lt : u < ir.blocks.length)
      (path : PathIn ir (definitions ir) u defs₀) (split : (ir.blockD u).stmts = before ++ rest)
      (covers : Covers ir ir' marked b rest (last u))
      (sub : defs₀ ++ ((ir.blockD u).parameters ++ before.flatMap (outputsOf ir)) ⊆
        defs ++ (ir'.blockD b).parameters)
  | leave (leave : ir'.leaveAndTakeHalt = some b)

theorem Located.enter (href : Refines ir ir' marked last) {u : Block} (hu : u < ir.blocks.length)
    {defs₀ defs : List SSAValue} (hpath : PathIn ir (definitions ir) u defs₀)
    (hsub : defs₀ ⊆ defs) :
    Located ir ir' marked last defs u := by
  refine .part [] hu hpath rfl (href.covers u hu) ?_
  rw [href.parameters u hu]
  intro v hv
  simp only [List.flatMap_nil, List.append_nil, List.mem_append] at hv ⊢
  exact hv.imp_left fun h => hsub h

/-- One block further on a path. -/
theorem Located.step (hwf : WF ir) (href : Refines ir ir' marked last) {defs : List SSAValue}
    {b w : Block} (h : Located ir ir' marked last defs b) (hedge : w ∈ ir'.succs b) :
    Located ir ir' marked last (defs ++ definitions ir' b) w := by
  cases h with
  | @part u defs₀ before rest hu hpath hsplit hcov hsub =>
    have hlt := stmts_lt_of_wf hwf hu
    cases hcov with
    | @last _ data _ get stmts unmarked =>
      -- the end of the original block
      have hsuccs : ir'.succs (last u) = ir.succs u := by
        unfold ExecIrBuilder.succs
        rw [href.terminator u hu]
      rw [hsuccs] at hedge
      refine .enter href (succs_lt hwf hedge).2.2
        (.inr ⟨u, hedge, path_cases.2 ⟨defs₀, hpath, rfl⟩⟩) ?_
      unfold definitions
      rw [hsplit] at hlt ⊢
      rw [blockD_eq get] at hsub ⊢
      rw [stmts, href.flatMap_outputs fun s hs => hlt s (List.mem_append_right _ hs),
        List.flatMap_append]
      intro v hv
      have := @hsub v
      simp only [List.mem_append] at hv this ⊢
      tauto
    | @check _ c leave _ data next seg rest' _ s load reason get stmts unmarked mark
      load_new load_data
        reason_new terminator leave_eq next_get parameters covers hrest =>
      have hcases : w = c ∨ w = leave := by
        unfold ExecIrBuilder.succs at hedge
        rw [blockD_eq get, terminator, Terminator.mem_blockTargets] at hedge
        simpa [Terminator.targets, eq_comm] using hedge
      rcases hcases with rfl | rfl
      · refine .part (before ++ (seg ++ [s])) hu hpath (by rw [hsplit, hrest]; simp) covers ?_
        unfold definitions
        rw [blockD_eq get] at hsub ⊢
        rw [hsplit, hrest] at hlt
        have hseg : ∀ x ∈ seg ++ [s], x < ir.stmts.length := by
          intro x hx
          refine hlt x ?_
          simp only [List.mem_append, List.mem_cons] at hx ⊢
          tauto
        have hout : (seg ++ [s, load]).flatMap (outputsOf ir') =
            (seg ++ [s]).flatMap (outputsOf ir) ++ outputsOf ir' load := by
          rw [← href.flatMap_outputs hseg]
          simp
        rw [stmts, hout, List.flatMap_append]
        intro v hv
        have := @hsub v
        simp only [List.mem_append] at hv this ⊢
        tauto
      · exact .leave leave_eq
  | leave hleave =>
    obtain ⟨-, -, take, code, ⟨⟨data, hdata, -, -, hterm⟩, -⟩, -⟩ := href.leave b hleave
    unfold ExecIrBuilder.succs at hedge
    rw [blockD_eq hdata, hterm] at hedge
    cases hedge

/-- Every path of the result is located. -/
theorem Located.of_path (hwf : WF ir) (href : Refines ir ir' marked last)
    {defs : List SSAValue} {b : Block}
    (h : PathIn ir' (definitions ir') b defs) : Located ir ir' marked last defs b := by
  have hentry : Located ir ir' marked last [] Block.ENTRYPOINT :=
    .enter href hwf.entry (.inl ⟨rfl, rfl⟩) (List.Subset.refl _)
  have hpath : ∀ {u l}, Path ir' (definitions ir') u l →
      ∃ l₀, Located ir ir' marked last l₀ u ∧ l = l₀ ++ definitions ir' u := by
    intro u l hpath
    induction hpath with
    | entry => exact ⟨[], hentry, rfl⟩
    | step _ hedge ih =>
      obtain ⟨l₀, hloc, rfl⟩ := ih
      exact ⟨_, hloc.step hwf href hedge, rfl⟩
  obtain ⟨rfl, rfl⟩ | ⟨u, hedge, hu⟩ := h
  · exact hentry
  · obtain ⟨l₀, hloc, rfl⟩ := hpath hu
    exact hloc.step hwf href hedge

/-- A value defined at a place of an original block is defined at the same place of its
    part. -/
theorem defined_part (hwf : WF ir) (href : Refines ir ir' marked last) {u b : Block} {k : ℕ}
    {v : SSAValue} {defs₀ defs : List SSAValue} {before rest : List Stmt}
    (hu : u < ir.blocks.length) (hsplit : (ir.blockD u).stmts = before ++ rest)
    (hsub : defs₀ ++ ((ir.blockD u).parameters ++ before.flatMap (outputsOf ir)) ⊆
      defs ++ (ir'.blockD b).parameters)
    (htake : (ir'.blockD b).stmts.take k = rest.take k)
    (hv : v ∈ defs₀ ++ definedBefore ir u (before.length + k)) :
    v ∈ defs ++ definedBefore ir' b k := by
  have hlt := stmts_lt_of_wf hwf hu
  unfold definedBefore at hv ⊢
  rw [hsplit] at hlt hv
  rw [htake, href.flatMap_outputs fun s hs =>
    hlt s (List.mem_append_right _ (List.mem_of_mem_take hs))]
  rw [List.take_length_add_append, List.flatMap_append] at hv
  have := @hsub v
  simp only [List.mem_append] at hv this ⊢
  tauto

/-- The `k`-th statement of a part is the statement of the original block, and it uses what
    it did. -/
theorem usesAt_part (hwf : WF ir) (href : Refines ir ir' marked last) {u b : Block} {k : ℕ}
    {before rest : List Stmt} (hu : u < ir.blocks.length)
    (hsplit : (ir.blockD u).stmts = before ++ rest)
    {s : Stmt} (hs : (ir'.blockD b).stmts[k]? = some s) (hrest : rest[k]? = some s) :
    usesAt ir' b k = usesAt ir u (before.length + k) := by
  have hget : (ir.blockD u).stmts[before.length + k]? = some s := by
    rw [hsplit, List.getElem?_append_right (Nat.le_add_right _ _), Nat.add_sub_cancel_left]
    exact hrest
  simp only [usesAt, hs, hget]
  exact (href.stmt_eq (stmts_lt_of_wf hwf hu s (List.mem_of_getElem? hget))).2

/-- In the block to leave by, only the taken halt reason is used. -/
theorem defined_leave {l : Block} {take : Stmt} {code : SSAValue}
    (h : LeaveBlock ir' l take code) {k : ℕ}
    {v : SSAValue} (hv : v ∈ usesAt ir' l k) : v ∈ definedBefore ir' l k := by
  obtain ⟨data, hdata, -, hstmts, hterm⟩ := h.block
  unfold usesAt at hv
  unfold definedBefore
  rw [blockD_eq hdata, hstmts] at hv ⊢
  cases k with
  | zero =>
    simp only [List.getElem?_cons_zero, operandsOf, h.take] at hv
    cases hv
  | succ k =>
    simp only [List.getElem?_cons_succ, List.getElem?_nil, hterm] at hv
    simp only [List.take_succ_cons, List.take_nil, List.flatMap_cons, List.flatMap_nil,
      outputsOf, h.take]
    exact List.mem_append_right _ (by simpa [Terminator.operands] using hv)

/-- The uses of a value stay defined on every path. -/
theorem usesDefined_of_refines (hwf : WF ir) (href : Refines ir ir' marked last) {v : SSAValue}
    (h : UsesDefined ir v) : UsesDefined ir' v := by
  intro b k huse defs hpath
  obtain @⟨u, defs₀, before, rest, hu, hpath₀, hsplit, hcov, hsub⟩ | hleave :=
    Located.of_path hwf href hpath
  · -- a use of the original block is defined as it was
    have hold : (ir'.blockD b).stmts.take k = rest.take k →
        usesAt ir' b k = usesAt ir u (before.length + k) → v ∈ defs ++ definedBefore ir' b k := by
      intro htake heq
      rw [heq] at huse
      exact defined_part hwf href hu hsplit hsub htake (h u _ huse defs₀ hpath₀)
    cases hcov with
    | @last _ data _ get stmts unmarked =>
      refine hold (by rw [blockD_eq get, stmts]) ?_
      by_cases hk : k < rest.length
      · have hs := List.getElem?_eq_getElem hk
        exact usesAt_part hwf href hu hsplit (by rw [blockD_eq get, stmts]; exact hs) hs
      · have hterm := href.terminator u hu
        have hge := Nat.le_of_not_lt hk
        unfold usesAt
        rw [hterm, blockD_eq get, stmts, hsplit, List.getElem?_eq_none hge,
          List.getElem?_eq_none (by rw [List.length_append]; omega)]
    | @check _ c leave _ data next seg rest' _ s load reason get stmts unmarked mark
      load_new load_data
        reason_new terminator leave_eq next_get parameters covers hrest =>
      subst hrest
      have hstmts : data.stmts = (seg ++ [s]) ++ [load] := by rw [stmts]; simp
      have hrest' : seg ++ s :: rest' = (seg ++ [s]) ++ rest' := by simp
      rcases Nat.lt_trichotomy k (seg ++ [s]).length with hk | hk | hk
      · refine hold ?_ ?_
        · rw [blockD_eq get, hstmts, hrest', List.take_append_of_le_length (Nat.le_of_lt hk),
            List.take_append_of_le_length (Nat.le_of_lt hk)]
        · have hs := List.getElem?_eq_getElem hk
          refine usesAt_part hwf href hu hsplit (s := (seg ++ [s])[k]) ?_ ?_
          · rw [blockD_eq get, hstmts, List.getElem?_append_left hk, hs]
          · rw [hrest', List.getElem?_append_left hk, hs]
      · -- the load of the halt reason uses nothing
        unfold usesAt at huse
        rw [blockD_eq get, hstmts, hk, List.getElem?_concat_length] at huse
        simp only [operandsOf, load_data] at huse
        cases huse
      · -- the branch uses what the load defined
        have hlen : data.stmts.length ≤ k := by
          rw [hstmts, List.length_append]
          exact hk
        unfold usesAt at huse
        rw [blockD_eq get, List.getElem?_eq_none hlen, terminator] at huse
        unfold definedBefore
        rw [blockD_eq get, List.take_of_length_le hlen, hstmts, List.flatMap_append]
        have hreason : v ∈ outputsOf ir' load := by
          simpa [outputsOf, load_data, Terminator.operands] using huse
        simp [hreason]
  · obtain ⟨-, -, take, code, hblock, -⟩ := href.leave b hleave
    exact List.mem_append_right _ (defined_leave hblock huse)

end Defined

/-! ## The pass -/

/-- The first `n` steps of a call of the function, as a backend compiles it, from any values
    and any world. -/
def HaltMachine.call (M : HaltMachine) (backend : JitBackend) (ir : ExecIrBuilder)
    (halts : ℕ → BitVec 32) (env : SSAValue → M.Val) (world : M.World) (n : ℕ) :
    List (Event M.toMachine) × Machine.Outcome M.toMachine :=
  M.run ir (backend.copy M.Val) halts n (M.start env world)

theorem accepted_refines {ir ir' : ExecIrBuilder} (hwf : WF ir)
    {order : Block → Finset Block → List Block} (horder : Enumerates order)
    (hrun : insertHaltChecks order ir = .ok ir') : ∃ marked last, Refines ir ir' marked last := by
  obtain ⟨g, hg, -⟩ := bind_eq_ok.1 hrun
  have hcycles := (SccGraph.sccGraph_spec hwf).1 g hg
  obtain ⟨result, marked, last, hresult, href, -⟩ := insertHaltChecksWith_spec
    (fun _ _ => rfl) horder hwf hcycles
  obtain rfl : result = ir' := Except.ok.inj (hresult.symm.trans hrun)
  exact ⟨marked, last, href⟩

/-- The pass preserves meaning. A call of the result does what a call of the original
    function does, and the other way round, as long as every inserted load reads zero; if one
    does not, the call is one of the original function up to a safepoint, and only takes and
    returns the halt reason after it. And the uses of every value stay defined on every path. -/
theorem insertHaltChecks_preserves {ir ir' : ExecIrBuilder} (hbuilt : Built ir)
    {order : Block → Finset Block → List Block} (horder : Enumerates order)
    (hrun : insertHaltChecks order ir = .ok ir') :
    (∀ (M : HaltMachine) (backend : JitBackend) (halts : ℕ → BitVec 32) (env : SSAValue → M.Val)
        (world : M.World),
      (∀ n, ReadsZero ir' halts (M.call backend ir' halts env world n).1 →
        ∃ m ≤ n, SameRun ir (M.call backend ir halts env world m)
          (M.call backend ir' halts env world n)) ∧
      (∀ m, ∃ n ≥ m, ReadsZero ir' halts (M.call backend ir' halts env world n).1 →
        SameRun ir (M.call backend ir halts env world m) (M.call backend ir' halts env world n)) ∧
      (∀ n, ¬ ReadsZero ir' halts (M.call backend ir' halts env world n).1 →
        ∃ m events, HaltedRun ir ir' halts (M.call backend ir halts env world m) events ∧
          ∀ k ≥ events.length, M.call backend ir' halts env world k = (events, .returned))) ∧
    ∀ v, UsesDefined ir v → UsesDefined ir' v := by
  have hwf := hbuilt.wf
  obtain ⟨marked, last, href⟩ := accepted_refines hwf horder hrun
  refine ⟨fun M backend halts env world => ?_, fun v hv => usesDefined_of_refines hwf href hv⟩
  have hstart : Related ir ir' marked last (M.start env world) (M.start env world) :=
    Related.enter href hwf.entry (Set.eqOn_refl _ _) 0 0
  refine ⟨fun n hz => ?_, fun m => ?_, fun n hz => ?_⟩
  · refine run_same backend halts hwf href n hstart ?_
    rw [show (M.start env world).reads = 0 from rfl, later_zero]
    exact hz
  · have hreach := run_reaches backend halts hwf href m hstart
    rw [show (M.start env world).reads = 0 from rfl, later_zero] at hreach
    exact hreach
  · have hhalted := run_halted backend halts hwf href n hstart
    rw [show (M.start env world).reads = 0 from rfl, later_zero] at hhalted
    exact hhalted hz

/-- A machine of 32-bit words that only knows safepoints and the taking of the halt reason. -/
def wordMachine : HaltMachine where
  Val := BitVec 32
  World := Unit
  eval rvalue _ w :=
    match rvalue with
    | .safepoint => some ([], w)
    | .takeHaltReason => some ([1], w)
    | _ => none
  isZero v := v == 0
  haltReason r := r
  isZero_haltReason _ := beq_iff_eq
  take_haltReason w := ⟨1, w, rfl⟩

theorem insertHaltChecks_preserves_loop :
    ∃ ir', insertHaltChecks (fun _ set => set.toList) loopBuilder = .ok ir' ∧
      ∀ n, ∃ m ≤ n, SameRun loopBuilder
        (wordMachine.call .cranelift loopBuilder (fun _ => 0) (fun _ => (0 : BitVec 32)) () m)
        (wordMachine.call .cranelift ir' (fun _ => 0) (fun _ => (0 : BitVec 32)) () n) := by
  obtain ⟨ir', -, -, hrun, -⟩ := insertHaltChecksWith_spec (fun _ _ => rfl) enumerates_toList
    loopBuilder_built.wf loopBuilder_cycles
  refine ⟨ir', hrun, fun n => ?_⟩
  exact ((insertHaltChecks_preserves loopBuilder_built enumerates_toList hrun).1 wordMachine
    .cranelift (fun _ => 0) (fun _ => (0 : BitVec 32)) ()).1 n fun _ _ => rfl

end RapidArm.HaltCheck
