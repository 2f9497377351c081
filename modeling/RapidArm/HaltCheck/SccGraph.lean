import RapidArm.HaltCheck.Tarjan
import Mathlib.Data.Finset.Max
import Mathlib.Data.List.Chain

/-!
# The graph of components

The model of `component_is_cyclic`, `block_has_safepoint`,
`assert_cycles_have_safepoints` and `SccGraph` of
`jit-compiler-core/src/ir/halt_check_pass.rs` (lines 703–832): the components of the
control-flow graph in topological order.

Results:
* `assertCycles_iff`: the assertion holds exactly if every directed cycle has a block
  with a `Safepoint`.
* `topoLoop_spec`: the queue of components without unprocessed predecessors yields all
  components in topological order.
* `sccGraph_spec`: `SccGraph::new` succeeds exactly on such builders, and its graph is
  valid.
-/

namespace RapidArm.HaltCheck

open RapidArm.Ir RapidArm.Lib Relation

/-! ## Cycles and safepoints -/

/-- `component_is_cyclic` (lines 703–718). -/
def componentIsCyclic (ir : ExecIrBuilder) (component : List Block) : Except Panic Bool :=
  match component with
  | [] => .ok false
  | [oneBlock] => do
    let succs ← ir.successors oneBlock
    return succs.any fun succ => succ = oneBlock
  | _ :: _ :: _ => .ok true

/-- Whether a statement is a `Safepoint`; an invalid handle panics. -/
def stmtIsSafepoint (ir : ExecIrBuilder) (stmt : Stmt) : Except Panic Bool := do
  let data ← arenaGet ir.stmts stmt
  return data.rvalue == .safepoint

/-- `block_has_safepoint` (lines 720–725). -/
def blockHasSafepoint (ir : ExecIrBuilder) (block : Block) : Except Panic Bool := do
  let data ← arenaGet ir.blocks block
  data.stmts.anyM (stmtIsSafepoint ir)

/-- `assert_cycles_have_safepoints` (lines 727–751). -/
def assertCyclesHaveSafepoints (ir : ExecIrBuilder) : Except Panic Unit := do
  let allowed ← (List.range ir.blocks.length).filterM fun block => do
    return !(← blockHasSafepoint ir block)
  let components ← stronglyConnectedComponents ir fun block => block ∈ allowed
  components.forM fun component => do
    require ((← componentIsCyclic ir component) = false) .cycleWithoutSafepoint

/-- A directed cycle of the control-flow graph. -/
def IsCycle (ir : ExecIrBuilder) (cycle : List Block) : Prop :=
  cycle.IsChain (fun u v => v ∈ ir.succs u) ∧
    ∃ first last, cycle.head? = some first ∧ cycle.getLast? = some last ∧ first ∈ ir.succs last

/-- The block holds a `Safepoint`. -/
def hasSafepoint (ir : ExecIrBuilder) (block : Block) : Bool :=
  (ir.blockD block).stmts.any ir.isSafepoint

/-- Every directed cycle contains a block holding a `Safepoint`. -/
def CyclesHaveSafepoints (ir : ExecIrBuilder) : Prop :=
  ∀ cycle, IsCycle ir cycle → ∃ block ∈ cycle, hasSafepoint ir block = true

/-- The blocks without a `Safepoint`. -/
def safepointFree (ir : ExecIrBuilder) (block : Block) : Bool :=
  decide (block < ir.blocks.length) && !hasSafepoint ir block

section Assertion

variable {ir : ExecIrBuilder}

theorem stmtIsSafepoint_eq {stmt : Stmt} (h : stmt < ir.stmts.length) :
    stmtIsSafepoint ir stmt = .ok (ir.isSafepoint stmt) := by
  unfold stmtIsSafepoint ExecIrBuilder.isSafepoint arenaGet
  rw [List.getElem?_eq_getElem h]
  rfl

theorem stmts_lt (hwf : WF ir) (block : Block) :
    ∀ stmt ∈ (ir.blockD block).stmts, stmt < ir.stmts.length := by
  intro stmt hstmt
  by_cases hlt : block < ir.blocks.length
  · rw [blockD_eq (List.getElem?_eq_getElem hlt)] at hstmt
    exact (hwf.blocks _ (List.getElem_mem hlt)).stmts_lt stmt hstmt
  · simp [ExecIrBuilder.blockD, List.getD_eq_getElem?_getD,
      List.getElem?_eq_none (Nat.le_of_not_lt hlt), BlockData.empty] at hstmt

theorem blockHasSafepoint_eq (hwf : WF ir) {block : Block} (h : block < ir.blocks.length) :
    blockHasSafepoint ir block = .ok (hasSafepoint ir block) := by
  have hget := List.getElem?_eq_getElem h
  refine bind_eq_ok.2 ⟨_, arenaGet_eq_ok.2 hget, ?_⟩
  unfold hasSafepoint
  rw [← blockD_eq hget]
  exact anyM_ok fun stmt hstmt => stmtIsSafepoint_eq (stmts_lt hwf block stmt hstmt)

theorem componentIsCyclic_eq {component : List Block} (h : ∀ b ∈ component, b < ir.blocks.length) :
    ∃ cyclic, componentIsCyclic ir component = .ok cyclic ∧
      (cyclic = false → component = [] ∨ ∃ b, component = [b] ∧ b ∉ ir.succs b) ∧
      (cyclic = true → (∃ b, component = [b] ∧ b ∈ ir.succs b) ∨
        ∃ a b rest, component = a :: b :: rest) := by
  match component with
  | [] => exact ⟨false, rfl, fun _ => .inl rfl, fun hc => (by cases hc)⟩
  | [b] =>
    refine ⟨(ir.succs b).any fun succ => succ = b, ?_, fun hc => .inr ⟨b, rfl, ?_⟩,
      fun hc => .inl ⟨b, rfl, ?_⟩⟩
    · exact bind_eq_ok.2 ⟨_, successors_eq (h b List.mem_cons_self), rfl⟩
    · intro hmem
      rw [List.any_eq_false] at hc
      exact hc b hmem (decide_eq_true rfl)
    · simpa using hc
  | a :: b :: rest => exact ⟨true, rfl, fun hc => (by cases hc), fun _ => .inr ⟨a, b, rest, rfl⟩⟩

/-- A component is cyclic if one of its blocks is on a cycle of allowed blocks. -/
theorem IsComponents.cyclic_iff {allowed : Block → Bool} {components : List (List Block)}
    (h : IsComponents ir allowed components) {c : List Block} (hc : c ∈ components) :
    componentIsCyclic ir c = .ok false ↔ ∀ x ∈ c, ¬ TransGen (Edge ir allowed) x x := by
  have hmem : ∀ b ∈ c, b < ir.blocks.length ∧ allowed b = true :=
    fun b hb => (h.mem b).1 (List.mem_flatten.2 ⟨c, hc, hb⟩)
  have hnodup : c.Nodup := (List.nodup_flatten.1 h.nodup).1 c hc
  obtain ⟨cyclic, hrun, hfalse, htrue⟩ := componentIsCyclic_eq fun b hb => (hmem b hb).1
  rw [hrun, Except.ok.injEq]
  constructor
  · intro hcyclic x hx hcycle
    rcases hfalse hcyclic with rfl | ⟨b, rfl, hb⟩
    · cases hx
    · obtain rfl := List.mem_singleton.1 hx
      -- the next block on the cycle is in the component, so it is the block itself
      obtain ⟨z, hedge, hback⟩ := TransGen.head'_iff.1 hcycle
      have hz := h.maximal [x] hc x hx z (ReflTransGen.single hedge) hback
      rw [List.mem_singleton] at hz
      exact hb (hz ▸ hedge.2.1)
  · intro hnone
    cases hcyc : cyclic with
    | false => rfl
    | true =>
      exfalso
      rcases htrue hcyc with ⟨b, rfl, hb⟩ | ⟨a, b, rest, rfl⟩
      · have ha := (hmem b List.mem_cons_self).2
        exact hnone b List.mem_cons_self (TransGen.single ⟨ha, hb, ha⟩)
      · have hne : a ≠ b := by
          rintro rfl
          simp at hnodup
        have hab := h.linked _ hc a (by simp) b (by simp)
        have hba := h.linked _ hc b (by simp) a (by simp)
        rcases reflTransGen_iff_eq_or_transGen.1 hab with heq | htrans
        · exact hne heq.symm
        · exact hnone a List.mem_cons_self (htrans.trans_left hba)

/-- Cycles of blocks without a safepoint, as lists and as paths back to a block. -/
theorem cyclesHaveSafepoints_iff (hwf : WF ir) :
    CyclesHaveSafepoints ir ↔ ∀ x, ¬ TransGen (Edge ir (safepointFree ir)) x x := by
  constructor
  · intro hcycles x hx
    obtain ⟨z, hedge, hback⟩ := TransGen.head'_iff.1 hx
    obtain ⟨l, hchain, hlast⟩ := List.exists_isChain_cons_of_relationReflTransGen hback
    have hcycle : IsCycle ir (z :: l) := by
      refine ⟨hchain.imp fun u v huv => huv.2.1, z, x, rfl, ?_, hedge.2.1⟩
      rw [List.getLast?_eq_some_getLast (List.cons_ne_nil _ _), hlast]
    obtain ⟨b, hb, hsafe⟩ := hcycles _ hcycle
    have hfree : safepointFree ir b = true := by
      refine hchain.induction (fun b => safepointFree ir b = true) _ (fun u v huv _ => huv.2.2)
        (fun _ => hedge.2.2) b hb
    simp [safepointFree, hsafe] at hfree
  · intro hnone cycle ⟨hchain, first, last, hfirst, hlast, hedge⟩
    by_contra hno
    have hfree : ∀ b ∈ cycle, b < ir.blocks.length → safepointFree ir b = true := by
      intro b hb hlt
      have : hasSafepoint ir b = false := by
        cases hs : hasSafepoint ir b with
        | false => rfl
        | true => exact (hno ⟨b, hb, hs⟩).elim
      simp [safepointFree, hlt, this]
    have hne : cycle ≠ [] := by
      rintro rfl
      cases hfirst
    have hhead : cycle.head hne = first := by
      rw [List.head?_eq_some_head hne] at hfirst
      exact Option.some.inj hfirst
    have hgetLast : cycle.getLast hne = last := by
      rw [List.getLast?_eq_some_getLast hne] at hlast
      exact Option.some.inj hlast
    have hedges : cycle.IsChain (Edge ir (safepointFree ir)) :=
      hchain.imp_of_mem_imp fun u v hu hv huv => ⟨hfree u hu (succs_lt hwf huv).2.1, huv,
        hfree v hv (succs_lt hwf huv).2.2⟩
    have hreach := List.relationReflTransGen_of_exists_isChain cycle hedges hne
    rw [hhead, hgetLast] at hreach
    have hlast' : last ∈ cycle := hgetLast ▸ List.getLast_mem hne
    have hfirst' : first ∈ cycle := hhead ▸ List.head_mem hne
    have hback : Edge ir (safepointFree ir) last first :=
      ⟨hfree last hlast' (succs_lt hwf hedge).2.1, hedge,
        hfree first hfirst' (succs_lt hwf hedge).2.2⟩
    exact hnone first (TransGen.tail' hreach hback)

/-- The assertion looks at the components of the blocks without a safepoint. -/
theorem assertCycles_eq (hwf : WF ir) :
    ∃ components, stronglyConnectedComponents ir (safepointFree ir) = .ok components ∧
      IsComponents ir (safepointFree ir) components ∧
      assertCyclesHaveSafepoints ir = components.forM (fun component =>
        componentIsCyclic ir component >>= fun cyclic =>
          require (cyclic = false) .cycleWithoutSafepoint) := by
  obtain ⟨components, hrun, hcomp⟩ := components_spec hwf (safepointFree ir)
  have hfilter : ((List.range ir.blocks.length).filterM fun block => do
      return !(← blockHasSafepoint ir block)) =
      .ok ((List.range ir.blocks.length).filter fun b => !hasSafepoint ir b) := by
    refine filterM_ok fun b hb => ?_
    exact bind_eq_ok.2 ⟨_, blockHasSafepoint_eq hwf (List.mem_range.1 hb), rfl⟩
  have hallowed : (fun block => decide (block ∈ (List.range ir.blocks.length).filter fun b =>
      !hasSafepoint ir b)) = safepointFree ir := by
    funext b
    simp [safepointFree]
  refine ⟨components, hrun, hcomp, ?_⟩
  unfold assertCyclesHaveSafepoints
  rw [hfilter, ok_bind, hallowed, hrun, ok_bind]

/-- The assertion holds exactly on the graphs whose cycles have safepoints. -/
theorem assertCycles_iff (hwf : WF ir) :
    assertCyclesHaveSafepoints ir = .ok () ↔ CyclesHaveSafepoints ir := by
  obtain ⟨components, -, hcomp, hrun⟩ := assertCycles_eq hwf
  have hassert : assertCyclesHaveSafepoints ir = .ok () ↔
      ∀ c ∈ components, componentIsCyclic ir c = .ok false := by
    rw [hrun, forM_eq_ok]
    refine forall₂_congr fun c hc => ?_
    rw [bind_eq_ok]
    simp only [require_eq_ok]
    constructor
    · rintro ⟨cyclic, hcyclic, rfl⟩
      exact hcyclic
    · exact fun h => ⟨false, h, rfl⟩
  rw [hassert, cyclesHaveSafepoints_iff hwf]
  constructor
  · intro h x hx
    obtain ⟨z, hedge, -⟩ := TransGen.head'_iff.1 hx
    have hxmem : x ∈ components.flatten :=
      (hcomp.mem x).2 ⟨(succs_lt hwf hedge.2.1).2.1, hedge.1⟩
    obtain ⟨c, hc, hxc⟩ := List.mem_flatten.1 hxmem
    exact (hcomp.cyclic_iff hc).1 (h c hc) x hxc hx
  · exact fun h c hc => (hcomp.cyclic_iff hc).2 fun x _ => h x

end Assertion

/-! ## The graph -/

/-- `SccGraph` (lines 753–758). -/
structure SccGraph where
  components : List (List Block)
  componentOf : Block → Option ℕ
  topoOrder : List ℕ
  isCyclic : ℕ → Bool

namespace SccGraph

/-- `ArenaMap::insert_unique` of the component of a block. -/
def insertUnique (id : ℕ) (m : Block → Option ℕ) (block : Block) :
    Except Panic (Block → Option ℕ) := do
  require (m block = none) .keyNotUnique
  return Function.update m block (some id)

/-- The loop that fills `component_of` (lines 767–771). -/
def fillComponentOf (components : List (List Block)) : Except Panic (Block → Option ℕ) :=
  components.zipIdx.foldlM (fun m p => p.1.foldlM (insertUnique p.2) m) fun _ => none

/-- The edges between components and the number of edges into each one. -/
structure Degrees where
  edges : ℕ → ℕ → Bool
  indegree : ℕ → ℕ

/-- The body of the loop over the edges (lines 779–789); `len` is the length of the
    vectors. -/
def addSuccessor (len : ℕ) (componentOf : Block → Option ℕ) (fromComponent : ℕ) (d : Degrees)
    (succ : Block) : Except Panic Degrees := do
  let toComponent ← mapGet componentOf succ
  if fromComponent = toComponent then return d
  else do
    require (fromComponent < len) .invalidHandle
    if d.edges fromComponent toComponent then return d
    else do
      require (toComponent < len) .invalidHandle
      return {
        edges := Function.update d.edges fromComponent
          (Function.update (d.edges fromComponent) toComponent true)
        indegree := Function.update d.indegree toComponent (d.indegree toComponent + 1) }

/-- The loop over the blocks and their components (lines 778–790). -/
def countEdges (ir : ExecIrBuilder) (len : ℕ) (componentOf : Block → Option ℕ) :
    Except Panic Degrees :=
  (List.range ir.blocks.length).foldlM (fun d block =>
    match componentOf block with
    | none => .ok d
    | some fromComponent => do
      let succs ← ir.successors block
      succs.foldlM (addSuccessor len componentOf fromComponent) d)
    { edges := fun _ _ => false, indegree := fun _ => 0 }

/-- The body of the inner loop of the topological sort (lines 804–810). -/
def relax (len : ℕ) (s : (ℕ → ℕ) × List ℕ) (succComponent : ℕ) :
    Except Panic ((ℕ → ℕ) × List ℕ) := do
  require (succComponent < len) .invalidHandle
  require (0 < s.1 succComponent) .strictArithmetic
  let indegree := Function.update s.1 succComponent (s.1 succComponent - 1)
  return (indegree, if indegree succComponent = 0 then s.2 ++ [succComponent] else s.2)

/-- The components that `component` has an edge to, in ascending order. -/
def succsOf (len : ℕ) (edges : ℕ → ℕ → Bool) (component : ℕ) : List ℕ :=
  (List.range len).filter (edges component)

/-- The loop of the topological sort (lines 801–811): `ready` is the queue. -/
def topoLoop (len : ℕ) (edges : ℕ → ℕ → Bool) : ℕ → (ℕ → ℕ) → List ℕ → List ℕ →
    Except Panic (List ℕ)
  | _, _, [], topoOrder => .ok topoOrder
  | 0, _, _ :: _, _ => .error .outOfFuel
  | fuel + 1, indegree, componentId :: ready, topoOrder => do
    require (componentId < len) .invalidHandle
    let (indegree, ready) ← (succsOf len edges componentId).foldlM (relax len) (indegree, ready)
    topoLoop len edges fuel indegree ready (topoOrder ++ [componentId])

/-- `SccGraph::new` (lines 761–827). -/
def new (ir : ExecIrBuilder) : Except Panic SccGraph := do
  assertCyclesHaveSafepoints ir
  let components ← stronglyConnectedComponents ir fun _ => true
  let componentOf ← fillComponentOf components
  let len := components.length
  let d ← countEdges ir len componentOf
  let ready := (List.range len).filter fun id => d.indegree id = 0
  let topoOrder ← topoLoop len d.edges len d.indegree ready []
  require (topoOrder.length = len) .topoOrderIncomplete
  let cyclic ← components.mapM (componentIsCyclic ir)
  return { components, componentOf, topoOrder, isCyclic := fun id => cyclic.getD id false }

/-- `SccGraph::component_is_cyclic`. -/
def componentIsCyclic (g : SccGraph) (component : ℕ) : Bool := g.isCyclic component

/-- The blocks of a component. -/
def blocksOf (g : SccGraph) (id : ℕ) : List Block := g.components.getD id []

/-! ### The components of blocks -/

theorem fillComponentOf_spec {components : List (List Block)} (hnodup : components.flatten.Nodup) :
    ∃ m, fillComponentOf components = .ok m ∧
      ∀ b id, m b = some id ↔ ∃ c, components[id]? = some c ∧ b ∈ c := by
  have houter : ∃ m, fillComponentOf components = .ok m ∧
      ∀ b id, m b = some id ↔ ∃ c, (c, id) ∈ components.zipIdx ∧ b ∈ c := by
    refine foldlM_spec (fun done (m : Block → Option ℕ) =>
      ∀ b id, m b = some id ↔ ∃ c, (c, id) ∈ done ∧ b ∈ c) (by simp) ?_
    rintro done ⟨c, id⟩ rest hl m hm
    -- no block of this component has been seen
    have hsplit : components = done.map Prod.fst ++ c :: rest.map Prod.fst := by
      have := congrArg (List.map Prod.fst) hl
      simpa using this
    have hfresh : ∀ b ∈ c, ∀ d i, (d, i) ∈ done → b ∉ d := by
      intro b hb d i hd hbd
      rw [hsplit, List.flatten_append, List.nodup_append] at hnodup
      refine hnodup.2.2 b (List.mem_flatten.2 ⟨d, List.mem_map.2 ⟨(d, i), hd, rfl⟩, hbd⟩) b ?_ rfl
      rw [List.flatten_cons]
      exact List.mem_append_left _ hb
    have hc : c.Nodup := by
      rw [hsplit, List.flatten_append, List.nodup_append, List.flatten_cons,
        List.nodup_append] at hnodup
      exact hnodup.2.1.1
    obtain ⟨m', hrun, hm'⟩ := foldlM_spec (l := c) (f := insertUnique id) (b := m)
      (fun seen (m' : Block → Option ℕ) =>
        ∀ b i, m' b = some i ↔ (∃ d, (d, i) ∈ done ∧ b ∈ d) ∨ (i = id ∧ b ∈ seen))
      (by simpa using hm) (by
        intro seen b rest' hc' m' hm'
        have hnone : m' b = none := by
          by_contra hsome
          obtain ⟨i, hi⟩ := Option.ne_none_iff_exists'.1 hsome
          rcases (hm' b i).1 hi with ⟨d, hd, hbd⟩ | ⟨-, hseen⟩
          · exact hfresh b (by rw [hc']; simp) d i hd hbd
          · rw [hc', List.nodup_append] at hc
            exact hc.2.2 b hseen b List.mem_cons_self rfl
        refine ⟨Function.update m' b (some id), bind_eq_ok.2 ⟨(), require_eq_ok.2 hnone, rfl⟩, ?_⟩
        intro b' i
        by_cases hb' : b' = b
        · subst hb'
          rw [Function.update_self]
          constructor
          · intro h
            exact .inr ⟨(Option.some.inj h).symm, by simp⟩
          · rintro (⟨d, hd, hbd⟩ | ⟨rfl, -⟩)
            · exact (hfresh b' (by rw [hc']; simp) d i hd hbd).elim
            · rfl
        · rw [Function.update_of_ne hb', hm']
          simp [hb'])
    refine ⟨m', hrun, fun b i => ?_⟩
    rw [hm']
    simp only [List.mem_append, List.mem_singleton, Prod.mk.injEq]
    constructor
    · rintro (⟨d, hd, hbd⟩ | ⟨rfl, hbc⟩)
      · exact ⟨d, .inl hd, hbd⟩
      · exact ⟨c, .inr ⟨rfl, rfl⟩, hbc⟩
    · rintro ⟨d, hd | ⟨rfl, rfl⟩, hbd⟩
      · exact .inl ⟨d, hd, hbd⟩
      · exact .inr ⟨rfl, hbd⟩
  obtain ⟨m, hrun, hm⟩ := houter
  refine ⟨m, hrun, fun b id => ?_⟩
  rw [hm]
  simp only [List.mem_zipIdx_iff_getElem?]

/-! ### The edges between components -/

/-- The indegree counts the components with an edge here. -/
def Degrees.Counts (len : ℕ) (d : Degrees) : Prop :=
  ∀ b, d.indegree b = ((Finset.range len).filter fun a => d.edges a b = true).card

theorem addSuccessor_spec {len : ℕ} {componentOf : Block → Option ℕ} {a b : ℕ} {d : Degrees}
    {succ : Block} (hd : d.Counts len) (hsucc : componentOf succ = some b) (ha : a < len)
    (hb : b < len) :
    ∃ d', addSuccessor len componentOf a d succ = .ok d' ∧ d'.Counts len ∧
      ∀ x y, d'.edges x y = true ↔ d.edges x y = true ∨ (a ≠ b ∧ x = a ∧ y = b) := by
  unfold addSuccessor
  rw [mapGet_eq hsucc, ok_bind]
  by_cases hab : a = b
  · rw [if_pos hab]
    exact ⟨d, rfl, hd, by simp [hab]⟩
  · rw [if_neg hab]
    by_cases hedge : d.edges a b = true
    · refine ⟨d, ?_, hd, fun x y => ⟨.inl, ?_⟩⟩
      · refine bind_eq_ok.2 ⟨(), require_eq_ok.2 ha, ?_⟩
        rw [if_pos hedge]
        rfl
      · rintro (h | ⟨-, rfl, rfl⟩)
        · exact h
        · exact hedge
    · have hedges : ∀ x y, Function.update d.edges a (Function.update (d.edges a) b true) x y =
          true ↔
          d.edges x y = true ∨ (a ≠ b ∧ x = a ∧ y = b) := by
        intro x y
        by_cases hx : x = a
        · subst hx
          rw [Function.update_self]
          by_cases hy : y = b
          · subst hy
            simp [hab]
          · simp [hy]
        · simp [hx]
      refine ⟨{
        edges := Function.update d.edges a (Function.update (d.edges a) b true)
        indegree := Function.update d.indegree b (d.indegree b + 1) }, ?_, ?_, hedges⟩
      · refine bind_eq_ok.2 ⟨(), require_eq_ok.2 ha, ?_⟩
        rw [if_neg hedge]
        exact bind_eq_ok.2 ⟨(), require_eq_ok.2 hb, rfl⟩
      · intro y
        simp only [hedges]
        by_cases hy : y = b
        · -- one more component has an edge here
          subst hy
          rw [Function.update_self, hd y]
          have hset : (Finset.range len).filter (fun x => d.edges x y = true ∨
              (a ≠ y ∧ x = a ∧ y = y)) =
              insert a ((Finset.range len).filter fun x => d.edges x y = true) := by
            ext x
            simp only [Finset.mem_filter, Finset.mem_range, Finset.mem_insert, hab, ne_eq,
              not_false_eq_true, true_and, and_true]
            constructor
            · rintro ⟨hx, h | h⟩
              · exact .inr ⟨hx, h⟩
              · exact .inl h
            · rintro (rfl | ⟨hx, h⟩)
              · exact ⟨ha, .inr rfl⟩
              · exact ⟨hx, .inl h⟩
          rw [hset, Finset.card_insert_of_notMem]
          simp [hedge]
        · rw [Function.update_of_ne hy, hd y]
          simp [hy]

/-- The edges counted are those between blocks of different components. -/
theorem countEdges_spec {ir : ExecIrBuilder} (hwf : WF ir) {len : ℕ}
    {componentOf : Block → Option ℕ}
    (hsome : ∀ b < ir.blocks.length, ∃ id < len, componentOf b = some id)
    (hlt : ∀ b id, componentOf b = some id → b < ir.blocks.length ∧ id < len) :
    ∃ d, countEdges ir len componentOf = .ok d ∧ d.Counts len ∧
      ∀ x y, d.edges x y = true ↔ x ≠ y ∧ ∃ u v, componentOf u = some x ∧ v ∈ ir.succs u ∧
        componentOf v = some y := by
  have houter : ∃ d, countEdges ir len componentOf = .ok d ∧ d.Counts len ∧
      ∀ x y, d.edges x y = true ↔ x ≠ y ∧ ∃ u ∈ List.range ir.blocks.length, ∃ v,
        componentOf u = some x ∧ v ∈ ir.succs u ∧ componentOf v = some y := by
    refine foldlM_spec (fun done (d : Degrees) => d.Counts len ∧
      ∀ x y, d.edges x y = true ↔ x ≠ y ∧ ∃ u ∈ done, ∃ v,
        componentOf u = some x ∧ v ∈ ir.succs u ∧ componentOf v = some y) ?_ ?_
    · exact ⟨fun b => by simp, by simp⟩
    · rintro done u rest hl d ⟨hcounts, hedges⟩
      have hu : u < ir.blocks.length := by
        rw [← List.mem_range, hl]
        simp
      obtain ⟨a, ha, hua⟩ := hsome u hu
      obtain ⟨d', hrun, hcounts', hedges'⟩ := foldlM_spec (l := ir.succs u)
        (f := addSuccessor len componentOf a) (b := d) (fun seen (d' : Degrees) => d'.Counts len ∧
          ∀ x y, d'.edges x y = true ↔ d.edges x y = true ∨
            (x ≠ y ∧ x = a ∧ ∃ v ∈ seen, componentOf v = some y))
        ⟨hcounts, by simp⟩ (by
          rintro seen v rest' hsuccs d' ⟨hcounts', hedges'⟩
          have hv : v ∈ ir.succs u := by
            rw [hsuccs]
            simp
          obtain ⟨b, hb, hvb⟩ := hsome v (succs_lt hwf hv).2.2
          obtain ⟨d'', hrun, hcounts'', hedges''⟩ := addSuccessor_spec hcounts' hvb ha hb
          refine ⟨d'', hrun, hcounts'', fun x y => ?_⟩
          rw [hedges'', hedges', or_assoc]
          refine or_congr_right ?_
          constructor
          · rintro (⟨hxy, hxa, v', hv', hy⟩ | ⟨hab, rfl, rfl⟩)
            · exact ⟨hxy, hxa, v', List.mem_append_left _ hv', hy⟩
            · exact ⟨hab, rfl, v, by simp, hvb⟩
          · rintro ⟨hxy, rfl, v', hv', hy⟩
            rcases List.mem_append.1 hv' with hv' | hv'
            · exact .inl ⟨hxy, rfl, v', hv', hy⟩
            · rw [List.mem_singleton] at hv'
              subst hv'
              obtain rfl := Option.some.inj (hvb.symm.trans hy)
              exact .inr ⟨hxy, rfl, rfl⟩)
      refine ⟨d', ?_, hcounts', fun x y => ?_⟩
      · simp only [hua]
        exact bind_eq_ok.2 ⟨_, successors_eq hu, hrun⟩
      · rw [hedges', hedges]
        constructor
        · rintro (⟨hxy, u', hu', v, hrest⟩ | ⟨hxy, rfl, v, hv, hy⟩)
          · exact ⟨hxy, u', List.mem_append_left _ hu', v, hrest⟩
          · exact ⟨hxy, u, by simp, v, hua, hv, hy⟩
        · rintro ⟨hxy, u', hu', v, hux, hv, hy⟩
          rcases List.mem_append.1 hu' with hu' | hu'
          · exact .inl ⟨hxy, u', hu', v, hux, hv, hy⟩
          · rw [List.mem_singleton] at hu'
            subst hu'
            exact .inr ⟨hxy, Option.some.inj (hux.symm.trans hua), v, hv, hy⟩
  obtain ⟨d, hrun, hcounts, hedges⟩ := houter
  refine ⟨d, hrun, hcounts, fun x y => ?_⟩
  rw [hedges]
  refine and_congr_right fun _ => ⟨?_, ?_⟩
  · rintro ⟨u, -, v, hrest⟩
    exact ⟨u, v, hrest⟩
  · rintro ⟨u, v, hux, hrest⟩
    exact ⟨u, List.mem_range.2 (hlt u x hux).1, v, hux, hrest⟩

/-! ### The topological sort -/

section Topo

variable {len : ℕ} {edges : ℕ → ℕ → Bool}

/-- The components with an edge to `c` that are not sorted yet. -/
def pending (len : ℕ) (edges : ℕ → ℕ → Bool) (topoOrder : List ℕ) (c : ℕ) : Finset ℕ :=
  (Finset.range len).filter fun a => a ∉ topoOrder ∧ edges a c = true

/-- The invariant of the loop: the queue holds the components that have no predecessor
    left to sort. -/
structure TopoInv (len : ℕ) (edges : ℕ → ℕ → Bool) (indegree : ℕ → ℕ)
    (ready topoOrder : List ℕ) : Prop where
  nodup : (topoOrder ++ ready).Nodup
  lt : ∀ c ∈ topoOrder ++ ready, c < len
  degree : ∀ c, indegree c = (pending len edges topoOrder c).card
  zero : ∀ c < len, c ∈ topoOrder ++ ready ↔ indegree c = 0
  sorted : ∀ before c after, topoOrder = before ++ c :: after → ∀ a, edges a c = true → a ∈ before

theorem relax_spec (succs : List ℕ) (hnodup : succs.Nodup) (indegree : ℕ → ℕ) (ready : List ℕ)
    (hsuccs : ∀ c ∈ succs, c < len ∧ 0 < indegree c) :
    ∃ indegree', succs.foldlM (relax len) (indegree, ready) =
        .ok (indegree', ready ++ succs.filter fun c => indegree c = 1) ∧
      ∀ c, indegree' c = if c ∈ succs then indegree c - 1 else indegree c := by
  induction succs generalizing indegree ready with
  | nil => exact ⟨indegree, by simp [pure, Except.pure], by simp⟩
  | cons x succs ih =>
    obtain ⟨hx, hpos⟩ := hsuccs x List.mem_cons_self
    rw [List.nodup_cons] at hnodup
    have hne : ∀ c ∈ succs, c ≠ x := fun c hc heq => hnodup.1 (heq ▸ hc)
    have hold : ∀ c ∈ succs, Function.update indegree x (indegree x - 1) c = indegree c :=
      fun c hc => Function.update_of_ne (hne c hc) ..
    obtain ⟨indegree', hrun, hdeg⟩ := ih hnodup.2 (Function.update indegree x (indegree x - 1))
      (if indegree x = 1 then ready ++ [x] else ready) (fun c hc => by
        rw [hold c hc]
        exact hsuccs c (List.mem_cons_of_mem _ hc))
    refine ⟨indegree', ?_, fun c => ?_⟩
    · have hstep : relax len (indegree, ready) x = .ok (Function.update indegree x (indegree x - 1),
          if indegree x = 1 then ready ++ [x] else ready) := by
        refine bind_eq_ok.2 ⟨(), require_eq_ok.2 hx, bind_eq_ok.2 ⟨(), require_eq_ok.2 hpos, ?_⟩⟩
        simp only [Function.update_self]
        have hiff : indegree x - 1 = 0 ↔ indegree x = 1 := by omega
        simp only [hiff]
        rfl
      have hfilter : (succs.filter fun c => Function.update indegree x (indegree x - 1) c = 1) =
          succs.filter fun c => indegree c = 1 :=
        List.filter_congr fun c hc => by rw [hold c hc]
      rw [List.foldlM_cons, hstep, ok_bind, hrun, hfilter]
      by_cases hone : indegree x = 1
      · simp [hone]
      · simp [hone]
    · rw [hdeg]
      by_cases hc : c ∈ succs
      · rw [if_pos hc, if_pos (List.mem_cons_of_mem _ hc), hold c hc]
      · rw [if_neg hc]
        by_cases hcx : c = x
        · subst hcx
          simp
        · simp [hcx, hc]

theorem mem_succsOf {c b : ℕ} : b ∈ succsOf len edges c ↔ b < len ∧ edges c b = true := by
  simp [succsOf]

/-- Sorting the first component of the queue. -/
theorem TopoInv.step {indegree : ℕ → ℕ} {c : ℕ} {ready topoOrder : List ℕ}
    (h : TopoInv len edges indegree (c :: ready) topoOrder)
    (hedges : ∀ a b, edges a b = true → a < len ∧ b < len) :
    ∃ indegree' ready', (succsOf len edges c).foldlM (relax len) (indegree, ready) =
        .ok (indegree', ready') ∧ TopoInv len edges indegree' ready' (topoOrder ++ [c]) := by
  have hc : c < len := h.lt c (by simp)
  have hcnot : c ∉ topoOrder := by
    have := h.nodup
    rw [List.nodup_append] at this
    exact fun hmem => this.2.2 c hmem c List.mem_cons_self rfl
  -- the pending predecessors without `c`
  have herase : ∀ b, pending len edges (topoOrder ++ [c]) b =
      (pending len edges topoOrder b).erase c := by
    intro b
    ext a
    simp only [pending, Finset.mem_filter, Finset.mem_range, Finset.mem_erase, List.mem_append,
      List.mem_singleton, not_or]
    tauto
  have hcard : ∀ b, (pending len edges (topoOrder ++ [c]) b).card =
      if edges c b = true then indegree b - 1 else indegree b := by
    intro b
    rw [herase, h.degree]
    by_cases hcb : edges c b = true
    · rw [if_pos hcb, Finset.card_erase_of_mem]
      simp [pending, hc, hcnot, hcb]
    · rw [if_neg hcb, Finset.erase_eq_of_notMem]
      simp [pending, hcb]
  have hpos : ∀ b ∈ succsOf len edges c, b < len ∧ 0 < indegree b := by
    intro b hb
    obtain ⟨hlt, hcb⟩ := mem_succsOf.1 hb
    refine ⟨hlt, ?_⟩
    rw [h.degree]
    exact Finset.card_pos.2 ⟨c, by simp [pending, hc, hcnot, hcb]⟩
  obtain ⟨indegree', hrun, hdeg⟩ := relax_spec (succsOf len edges c)
    (List.Nodup.filter _ List.nodup_range) indegree ready hpos
  refine ⟨indegree', _, hrun, ?_, ?_, ?_, ?_, ?_⟩
  · -- a component enters the queue when its last predecessor is sorted
    have hnodup := h.nodup
    rw [List.append_cons] at hnodup
    rw [← List.append_assoc, List.nodup_append]
    refine ⟨hnodup, List.Nodup.filter _ (List.Nodup.filter _ List.nodup_range), ?_⟩
    rintro b hb b' hb' rfl
    rw [List.mem_filter] at hb'
    have hone : indegree b = 1 := of_decide_eq_true hb'.2
    have hzero := (h.zero b (hpos b hb'.1).1).1 (by rw [List.append_cons]; exact hb)
    omega
  · intro b hb
    rw [← List.append_assoc, List.mem_append] at hb
    rcases hb with hb | hb
    · exact h.lt b (by rw [List.append_cons]; exact hb)
    · exact (hpos b (List.mem_filter.1 hb).1).1
  · intro b
    rw [hdeg, hcard]
    by_cases hcb : edges c b = true
    · rw [if_pos hcb, if_pos (mem_succsOf.2 ⟨(hedges c b hcb).2, hcb⟩)]
    · rw [if_neg hcb, if_neg (fun hmem => hcb (mem_succsOf.1 hmem).2)]
  · intro b hb
    have hzero := h.zero b hb
    rw [List.append_cons] at hzero
    rw [← List.append_assoc, List.mem_append, hzero, List.mem_filter, hdeg, decide_eq_true_eq]
    by_cases hcb : b ∈ succsOf len edges c
    · have := (hpos b hcb).2
      rw [if_pos hcb]
      simp only [hcb, true_and]
      omega
    · rw [if_neg hcb]
      simp only [hcb, false_and, or_false]
  · intro before x after hsplit a hax
    rcases List.append_eq_append_iff.1 hsplit with ⟨mid, hmid, hsuf⟩ | ⟨mid, hmid, hsuf⟩
    · -- `x` is the component sorted now: it had no predecessor left
      cases mid with
      | nil =>
        rw [List.append_nil] at hmid
        rw [List.nil_append] at hsuf
        obtain ⟨rfl, -⟩ := List.cons.inj hsuf
        by_contra hnot
        have hzero := (h.zero c hc).1 (by simp)
        rw [h.degree, Finset.card_eq_zero] at hzero
        have hmem : a ∈ pending len edges topoOrder c := by
          simp [pending, (hedges a c hax).1, hax, ← hmid, hnot]
        rw [hzero] at hmem
        cases hmem
      | cons y mid =>
        have hlen := congrArg List.length hsuf
        simp at hlen
    · cases mid with
      | nil =>
        rw [List.append_nil] at hmid
        rw [List.nil_append] at hsuf
        obtain ⟨rfl, -⟩ := List.cons.inj hsuf
        by_contra hnot
        have hzero := (h.zero x hc).1 (by simp)
        rw [h.degree, Finset.card_eq_zero] at hzero
        have hmem : a ∈ pending len edges topoOrder x := by
          simp [pending, (hedges a x hax).1, hax, hmid, hnot]
        rw [hzero] at hmem
        cases hmem
      | cons y mid =>
        obtain ⟨rfl, hafter⟩ := List.cons.inj hsuf
        exact h.sorted before x mid hmid a hax

/-- All components are sorted, each after its predecessors. -/
structure IsTopoOrder (len : ℕ) (edges : ℕ → ℕ → Bool) (topoOrder : List ℕ) : Prop where
  perm : topoOrder.Perm (List.range len)
  sorted : ∀ before c after, topoOrder = before ++ c :: after → ∀ a, edges a c = true → a ∈ before

/-- The loop sorts all components of a graph whose edges go down. -/
theorem topoLoop_spec (hedges : ∀ a b, edges a b = true → a < len ∧ b < a) (fuel : ℕ)
    (indegree : ℕ → ℕ) (ready topoOrder : List ℕ) (h : TopoInv len edges indegree ready topoOrder)
    (hfuel : len ≤ topoOrder.length + fuel) :
    ∃ order, topoLoop len edges fuel indegree ready topoOrder = .ok order ∧
      IsTopoOrder len edges order := by
  have hlt : ∀ a b, edges a b = true → a < len ∧ b < len :=
    fun a b hab => ⟨(hedges a b hab).1, (hedges a b hab).2.trans (hedges a b hab).1⟩
  have hlen : (topoOrder ++ ready).length ≤ len := length_le_of_nodup h.nodup h.lt
  induction fuel generalizing indegree ready topoOrder with
  | zero =>
    cases ready with
    | cons c ready =>
      simp only [List.length_append, List.length_cons] at hlen
      omega
    | nil =>
      refine ⟨topoOrder, by simp [topoLoop], ?_, h.sorted⟩
      refine (List.subperm_of_subset ?_ fun c hc => ?_).perm_of_length_le ?_
      · simpa using h.nodup
      · exact List.mem_range.2 (h.lt c (List.mem_append_left _ hc))
      · rw [List.length_range]
        omega
  | succ fuel ih =>
    cases ready with
    | cons c ready =>
      obtain ⟨indegree', ready', hrun, hinv⟩ := h.step hlt
      have hlen' : (topoOrder ++ [c] ++ ready').length ≤ len := by
        have hsub := (List.subperm_of_subset hinv.nodup
          fun x hx => List.mem_range.2 (hinv.lt x hx)).length_le
        rwa [List.length_range] at hsub
      obtain ⟨order, horder, htopo⟩ := ih indegree' ready' (topoOrder ++ [c]) hinv
        (by simp only [List.length_append, List.length_singleton]; omega) hlen'
      refine ⟨order, ?_, htopo⟩
      unfold topoLoop
      exact bind_eq_ok.2 ⟨(), require_eq_ok.2 (h.lt c (by simp)), bind_eq_ok.2 ⟨_, hrun, horder⟩⟩
    | nil =>
      refine ⟨topoOrder, by simp [topoLoop], ?_, h.sorted⟩
      -- the largest component that is not sorted has no predecessor left
      have hall : ∀ c < len, c ∈ topoOrder := by
        by_contra hnot
        push Not at hnot
        obtain ⟨c₀, hc₀⟩ := hnot
        let rest := (Finset.range len).filter fun c => c ∉ topoOrder
        have hne : rest.Nonempty := ⟨c₀, by simp [rest, hc₀.1, hc₀.2]⟩
        obtain ⟨hmax, hmaxnot⟩ := Finset.mem_filter.1 (rest.max'_mem hne)
        rw [Finset.mem_range] at hmax
        have hdeg : indegree (rest.max' hne) ≠ 0 := fun hzero =>
          hmaxnot (by simpa using (h.zero _ hmax).2 hzero)
        rw [h.degree, ← Nat.pos_iff_ne_zero, Finset.card_pos] at hdeg
        obtain ⟨a, ha⟩ := hdeg
        obtain ⟨halt, hanot, hedge⟩ := Finset.mem_filter.1 ha
        have hle := rest.le_max' a (Finset.mem_filter.2 ⟨halt, hanot⟩)
        exact absurd (hedges a _ hedge).2 (Nat.not_lt.2 hle)
      refine (List.perm_ext_iff_of_nodup (by simpa using h.nodup) List.nodup_range).2 fun c => ?_
      rw [List.mem_range]
      exact ⟨fun hc => h.lt c (List.mem_append_left _ hc), hall c⟩

theorem topoInv_init {d : Degrees} (hd : d.Counts len) :
    TopoInv len d.edges d.indegree ((List.range len).filter fun id => d.indegree id = 0) [] where
  nodup := List.Nodup.filter _ List.nodup_range
  lt c hc := List.mem_range.1 (List.mem_filter.1 hc).1
  degree c := by simp [hd c, pending]
  zero c hc := by simp [hc]
  sorted before c after hsplit := by simp at hsplit

end Topo

/-! ### The graph of a builder -/

/-- The components are a partition of the blocks, in an order in which every edge between
    two of them goes forward; one that is not cyclic is a block without a self loop. -/
structure Valid (ir : ExecIrBuilder) (g : SccGraph) : Prop where
  perm : (g.topoOrder.flatMap g.blocksOf).Perm (List.range ir.blocks.length)
  ids : ∀ id ∈ g.topoOrder, id < g.components.length
  componentOf : ∀ b id, g.componentOf b = some id ↔ b ∈ g.blocksOf id
  topo : ∀ before id after, g.topoOrder = before ++ id :: after → ∀ u v, v ∈ g.blocksOf id →
    v ∈ ir.succs u → u ∈ g.blocksOf id ∨ u ∈ before.flatMap g.blocksOf
  acyclic : ∀ id ∈ g.topoOrder, g.isCyclic id = false →
    ∃ b, g.blocksOf id = [b] ∧ b ∉ ir.succs b

theorem flatMap_getD_range (components : List (List Block)) :
    ((List.range components.length).flatMap fun id => components.getD id []) =
      components.flatten := by
  induction components using List.reverseRecOn with
  | nil => rfl
  | append_singleton components c ih =>
    rw [List.length_append, List.length_singleton, List.range_succ, List.flatMap_append,
      List.flatten_append]
    congr 1
    · rw [← ih]
      refine List.flatMap_congr fun id hid => ?_
      simp [List.getD_eq_getElem?_getD, List.getElem?_append_left (List.mem_range.1 hid)]
    · simp [List.getD_eq_getElem?_getD]

/-- An edge leads to a component that was completed before. -/
theorem IsComponents.edge_le {ir : ExecIrBuilder} {components : List (List Block)}
    (h : IsComponents ir (fun _ => true) components) {i j : ℕ} {c d : List Block}
    (hc : components[i]? = some c) (hd : components[j]? = some d) {u v : Block} (hu : u ∈ c)
    (hv : v ∈ d) (huv : v ∈ ir.succs u) : j ≤ i := by
  have hi : i < components.length := (List.getElem?_eq_some_iff.1 hc).1
  have hclosed := h.closed (components.take (i + 1)) (List.take_prefix _ _)
  have hu' : u ∈ (components.take (i + 1)).flatten := by
    refine List.mem_flatten.2 ⟨c, ?_, hu⟩
    exact List.mem_of_getElem? (by rw [List.getElem?_take_of_lt (Nat.lt_succ_self i)]; exact hc)
  have hv' := hclosed u hu' v ⟨rfl, huv, rfl⟩
  -- the block `v` is in one component only
  by_contra hlt
  have hnodup := h.nodup
  rw [← List.take_append_drop (i + 1) components, List.flatten_append, List.nodup_append] at hnodup
  refine hnodup.2.2 v hv' v (List.mem_flatten.2 ⟨d, ?_, hv⟩) rfl
  refine List.mem_of_getElem? (i := j - (i + 1)) ?_
  rw [List.getElem?_drop, show i + 1 + (j - (i + 1)) = j by lia]
  exact hd

/-- The order lists the components of the whole graph, and the marks are those of
    `component_is_cyclic`. -/
structure Sorted (ir : ExecIrBuilder) (g : SccGraph) : Prop where
  components : IsComponents ir (fun _ => true) g.components
  perm : g.topoOrder.Perm (List.range g.components.length)
  cyclic : ∀ id c, g.components[id]? = some c →
    HaltCheck.componentIsCyclic ir c = .ok (g.isCyclic id)

theorem new_spec {ir : ExecIrBuilder} (hwf : WF ir) (hcycles : CyclesHaveSafepoints ir) :
    ∃ g, new ir = .ok g ∧ g.Valid ir ∧ g.Sorted ir := by
  obtain ⟨components, hcomp, hspec⟩ := components_spec hwf fun _ => true
  obtain ⟨componentOf, hfill, hof⟩ := fillComponentOf_spec hspec.nodup
  have hmem : ∀ c ∈ components, ∀ b ∈ c, b < ir.blocks.length := fun c hc b hb =>
    ((hspec.mem b).1 (List.mem_flatten.2 ⟨c, hc, hb⟩)).1
  have hlt : ∀ b id, componentOf b = some id → b < ir.blocks.length ∧ id < components.length := by
    intro b id hb
    obtain ⟨c, hc, hbc⟩ := (hof b id).1 hb
    exact ⟨hmem c (List.mem_of_getElem? hc) b hbc, (List.getElem?_eq_some_iff.1 hc).1⟩
  obtain ⟨d, hdeg, hcounts, hedges⟩ := countEdges_spec hwf (by
      intro b hb
      obtain ⟨c, hc, hbc⟩ := List.mem_flatten.1 ((hspec.mem b).2 ⟨hb, rfl⟩)
      obtain ⟨id, hid, rfl⟩ := List.getElem_of_mem hc
      exact ⟨id, hid, (hof b id).2 ⟨_, List.getElem?_eq_getElem hid, hbc⟩⟩) hlt
  -- edges between components go down
  have hdown : ∀ a b, d.edges a b = true → a < components.length ∧ b < a := by
    intro a b hab
    obtain ⟨hne, u, v, hu, huv, hv⟩ := (hedges a b).1 hab
    obtain ⟨cu, hcu, hucu⟩ := (hof u a).1 hu
    obtain ⟨cv, hcv, hvcv⟩ := (hof v b).1 hv
    have hle := IsComponents.edge_le hspec hcu hcv hucu hvcv huv
    exact ⟨(hlt u a hu).2, lt_of_le_of_ne hle (Ne.symm hne)⟩
  obtain ⟨order, hrun, horder⟩ := topoLoop_spec hdown components.length d.indegree _ []
    (topoInv_init hcounts) (by simp)
  have hlen : order.length = components.length := by
    rw [horder.perm.length_eq, List.length_range]
  have hcyclic : ∀ c ∈ components, ∃ cyclic, HaltCheck.componentIsCyclic ir c = .ok cyclic :=
    fun c hc => let ⟨cyclic, hrun, _⟩ := componentIsCyclic_eq (hmem c hc); ⟨cyclic, hrun⟩
  choose! cyclic hcyc using hcyclic
  refine ⟨{ components, componentOf, topoOrder := order,
            isCyclic := fun id => (components.map cyclic).getD id false }, ?_, ?_, ?_⟩
  · refine bind_eq_ok.2 ⟨(), (assertCycles_iff hwf).2 hcycles, ?_⟩
    refine bind_eq_ok.2 ⟨_, hcomp, bind_eq_ok.2 ⟨_, hfill, bind_eq_ok.2 ⟨_, hdeg, ?_⟩⟩⟩
    refine bind_eq_ok.2 ⟨_, hrun, bind_eq_ok.2 ⟨(), require_eq_ok.2 hlen, ?_⟩⟩
    exact bind_eq_ok.2 ⟨_, mapM_ok hcyc, rfl⟩
  · have hids : ∀ id ∈ order, id < components.length :=
      fun id hid => List.mem_range.1 (horder.perm.mem_iff.1 hid)
    have hblocks : ∀ b id, componentOf b = some id ↔ b ∈ components.getD id [] := by
      intro b id
      rw [hof, List.getD_eq_getElem?_getD]
      cases components[id]? with
      | none => simp
      | some c => simp
    refine ⟨?_, hids, hblocks, ?_, ?_⟩
    · refine (horder.perm.flatMap_right _).trans ?_
      show ((List.range components.length).flatMap fun id => components.getD id []).Perm _
      rw [flatMap_getD_range]
      refine (List.perm_ext_iff_of_nodup hspec.nodup List.nodup_range).2 fun b => ?_
      rw [hspec.mem, List.mem_range]
      simp
    · intro before id after hsplit u v hv huv
      have hvid := (hblocks v id).2 hv
      obtain ⟨c, hc, huc⟩ := List.mem_flatten.1 ((hspec.mem u).2 ⟨(succs_lt hwf huv).2.1, rfl⟩)
      obtain ⟨a, ha, rfl⟩ := List.getElem_of_mem hc
      have hua : componentOf u = some a := (hof u a).2 ⟨_, List.getElem?_eq_getElem ha, huc⟩
      by_cases haid : a = id
      · subst haid
        exact .inl ((hblocks u a).1 hua)
      · have hbefore := horder.sorted before id after hsplit a
          ((hedges a id).2 ⟨haid, u, v, hua, huv, hvid⟩)
        exact .inr (List.mem_flatMap.2 ⟨a, hbefore, (hblocks u a).1 hua⟩)
    · intro id hid hfalse
      have hlt := hids id hid
      have hget := List.getElem?_eq_getElem hlt
      have hc := List.getElem_mem hlt
      have hcomponent : HaltCheck.componentIsCyclic ir components[id] = .ok false := by
        rw [hcyc _ hc]
        simpa [List.getD_eq_getElem?_getD, hget] using hfalse
      obtain ⟨cyc, hcyc', hno, -⟩ := componentIsCyclic_eq (hmem _ hc)
      rw [hcomponent, Except.ok.injEq] at hcyc'
      show ∃ b, components.getD id [] = [b] ∧ _
      rw [List.getD_eq_getElem?_getD, hget]
      rcases hno hcyc'.symm with hnil | hone
      · exact (hspec.nonempty (hnil ▸ hc)).elim
      · exact hone
  · refine ⟨hspec, horder.perm, fun id c hc => ?_⟩
    rw [hcyc c (List.mem_of_getElem? hc)]
    simp [List.getD_eq_getElem?_getD, hc]

/-- `SccGraph::new` succeeds exactly on the builders whose cycles have safepoints. -/
theorem sccGraph_spec {ir : ExecIrBuilder} (hwf : WF ir) :
    (∀ g, new ir = .ok g → CyclesHaveSafepoints ir) ∧
      (CyclesHaveSafepoints ir → ∃ g, new ir = .ok g ∧ g.Valid ir) := by
  constructor
  · intro g hg
    obtain ⟨_, hassert, _⟩ := bind_eq_ok.1 hg
    exact (assertCycles_iff hwf).1 hassert
  · intro hcycles
    obtain ⟨g, hg, hvalid, -⟩ := new_spec hwf hcycles
    exact ⟨g, hg, hvalid⟩

end SccGraph

end RapidArm.HaltCheck
