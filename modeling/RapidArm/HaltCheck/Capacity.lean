import RapidArm.Arena.ArenaSet
import RapidArm.HaltCheck.Validation
import Mathlib.Algebra.BigOperators.Group.List.Basic

/-!
# The halt-check pass over `ArenaSet`

The sets of `Tarjan` and `SccGraph` (`jit-compiler-core/src/ir/halt_check_pass.rs`, lines 586–832)
are `ArenaSet`s created without a capacity, or collected from filters, whose lower size hint is
zero. They have room for 64 handles. Here the code runs with these sets instead of the functions
of `RapidArm.HaltCheck.Tarjan` and `RapidArm.HaltCheck.SccGraph`.

Results:
* `components_capacity`: Tarjan's algorithm panics on a set exactly if it visits a block from the
  65th on.
* `new_set_panics_iff`: exactly when `SccGraph::new` panics because of a set.
* `arenaSet_finite_iff`: for which calls the set is a finite set.
-/

namespace RapidArm.HaltCheck

open RapidArm.Ir RapidArm.Lib RapidArm.Arena

/-- A panic of a set, or another one of the pass. -/
inductive PassPanic
  | set (e : SetPanic)
  | pass (e : Panic)
  deriving DecidableEq, Repr

namespace WithSets

/-! ## Tarjan's algorithm -/

/-- `Tarjan` with its set of blocks on the stack. -/
structure Tarjan where
  nextIndex : ℕ
  index : Block → Option ℕ
  lowLink : Block → Option ℕ
  stack : List Block
  onStack : ArenaSet
  components : List (List Block)

namespace Tarjan

/-- The state before the first visit (lines 686–698). -/
def init : Tarjan where
  nextIndex := 0
  index := fun _ => none
  lowLink := fun _ => none
  stack := []
  onStack := ArenaSet.new
  components := []

/-- The start of `strong_connect_inner` (lines 622–627). -/
def visit (s : Tarjan) (block : Block) : Except PassPanic Tarjan := do
  let (onStack, _) ← (s.onStack.insert block).mapError .set
  return { s with
    index := Function.update s.index block (some s.nextIndex)
    lowLink := Function.update s.lowLink block (some s.nextIndex)
    nextIndex := s.nextIndex + 1
    stack := block :: s.stack
    onStack }

/-- A new low link. -/
def setLowLink (s : Tarjan) (block : Block) (low : ℕ) : Tarjan :=
  { s with lowLink := Function.update s.lowLink block (some low) }

/-- The loop that pops a component (lines 653–661). -/
def popComponent (block : Block) : List Block → ArenaSet → List Block →
    Except PassPanic (List Block × ArenaSet × List Block)
  | [], _, _ => .error (.pass .emptyStack)
  | member :: stack, onStack, component =>
    let onStack := (onStack.remove member).1
    if member = block then .ok (stack, onStack, component ++ [member])
    else popComponent block stack onStack (component ++ [member])

/-- The end of `strong_connect_inner` (lines 650–664). -/
def finish (block : Block) (s : Tarjan) : Except PassPanic Tarjan := do
  let low ← (mapGet s.lowLink block).mapError .pass
  let index ← (mapGet s.index block).mapError .pass
  if low = index then do
    let (stack, onStack, component) ← popComponent block s.stack s.onStack []
    return { s with stack, onStack, components := s.components ++ [component] }
  else return s

section Search

variable (ir : ExecIrBuilder) (allowed : Option ArenaSet)

/-- `Tarjan::block_is_allowed` (lines 616–619). -/
def blockIsAllowed (block : Block) : Bool :=
  match allowed with
  | none => true
  | some allowed => allowed.contains block

/-- The body of the loop over the successors (lines 629–648). -/
def scanSucc (strongConnect : Block → Tarjan → Except PassPanic Tarjan) (block : Block) (s : Tarjan)
    (succ : Block) : Except PassPanic Tarjan :=
  if blockIsAllowed allowed succ = false then .ok s
  else
    match s.index succ with
    | none => do
      let s ← strongConnect succ s
      let blockLowLink ← (mapGet s.lowLink block).mapError .pass
      let succLowLink ← (mapGet s.lowLink succ).mapError .pass
      return s.setLowLink block (min blockLowLink succLowLink)
    | some succIndex =>
      if s.onStack.contains succ then do
        let blockLowLink ← (mapGet s.lowLink block).mapError .pass
        return s.setLowLink block (min blockLowLink succIndex)
      else .ok s

/-- `Tarjan::strong_connect` (lines 610–665). -/
def strongConnect : ℕ → Block → Tarjan → Except PassPanic Tarjan
  | 0, _, _ => .error (.pass .outOfFuel)
  | depth + 1, block, s => do
    let s ← s.visit block
    let succs ← (ir.successors block).mapError .pass
    let s ← succs.foldlM (scanSucc allowed (strongConnect depth) block) s
    finish block s

/-- The body of the loop of `Tarjan::run`. -/
def runBlock (s : Tarjan) (block : Block) : Except PassPanic Tarjan :=
  if blockIsAllowed allowed block = false then .ok s
  else
    match s.index block with
    | none => strongConnect ir allowed ir.blocks.length block s
    | some _ => .ok s

end Search

end Tarjan

/-- `strongly_connected_components` (lines 682–701). -/
def stronglyConnectedComponents (ir : ExecIrBuilder) (allowed : Option ArenaSet) :
    Except PassPanic (List (List Block)) := do
  let s ← (List.range ir.blocks.length).foldlM (Tarjan.runBlock ir allowed) Tarjan.init
  return s.components

/-! ## Cycle validation and the graph of components -/

/-- `assert_cycles_have_safepoints` (lines 737–751). A filter has the lower size hint zero. -/
def assertCyclesHaveSafepoints (ir : ExecIrBuilder) : Except PassPanic Unit := do
  let free ← ((List.range ir.blocks.length).filterM fun block => do
    return !(← blockHasSafepoint ir block)).mapError .pass
  let allowed ← (ArenaSet.fromIter 0 free).mapError .set
  let components ← stronglyConnectedComponents ir (some allowed)
  (components.forM fun component => do
    require ((← componentIsCyclic ir component) = false) .cycleWithoutSafepoint).mapError .pass

/-- `SccGraph` (lines 753–758). -/
structure SccGraph where
  components : List (List Block)
  componentOf : Block → Option ℕ
  topoOrder : List ℕ
  isCyclic : ArenaSet

namespace SccGraph

/-- The edges between components and the number of edges into each one. -/
structure Degrees where
  edges : ℕ → ArenaSet
  indegree : ℕ → ℕ

/-- The body of the loop over the edges (lines 779–789). -/
def addSuccessor (len : ℕ) (componentOf : Block → Option ℕ) (fromComponent : ℕ) (d : Degrees)
    (succ : Block) : Except PassPanic Degrees := do
  let toComponent ← (mapGet componentOf succ).mapError .pass
  if fromComponent = toComponent then return d
  else do
    (require (fromComponent < len) .invalidHandle).mapError .pass
    let (targets, isNew) ← ((d.edges fromComponent).insert toComponent).mapError .set
    if isNew = false then return { d with edges := Function.update d.edges fromComponent targets }
    else do
      (require (toComponent < len) .invalidHandle).mapError .pass
      return {
        edges := Function.update d.edges fromComponent targets
        indegree := Function.update d.indegree toComponent (d.indegree toComponent + 1) }

/-- The loop over the blocks and their components (lines 778–790). -/
def countEdges (ir : ExecIrBuilder) (len : ℕ) (componentOf : Block → Option ℕ) :
    Except PassPanic Degrees :=
  (List.range ir.blocks.length).foldlM (fun d block =>
    match componentOf block with
    | none => .ok d
    | some fromComponent => do
      let succs ← (ir.successors block).mapError .pass
      succs.foldlM (addSuccessor len componentOf fromComponent) d)
    { edges := fun _ => ArenaSet.new, indegree := fun _ => 0 }

/-- The loop of the topological sort (lines 801–811): `ready` is the queue. -/
def topoLoop (len : ℕ) (edges : ℕ → ArenaSet) : ℕ → (ℕ → ℕ) → List ℕ → List ℕ →
    Except PassPanic (List ℕ)
  | _, _, [], topoOrder => .ok topoOrder
  | 0, _, _ :: _, _ => .error (.pass .outOfFuel)
  | fuel + 1, indegree, componentId :: ready, topoOrder => do
    (require (componentId < len) .invalidHandle).mapError .pass
    let succs ← (edges componentId).iter.mapError .set
    let (indegree, ready) ←
      ((succs.map Fin.val).foldlM (HaltCheck.SccGraph.relax len) (indegree, ready)).mapError .pass
    topoLoop len edges fuel indegree ready (topoOrder ++ [componentId])

/-- The components that are cyclic (lines 815–819). -/
def cyclicIds (ir : ExecIrBuilder) (components : List (List Block)) : Except Panic (List ℕ) := do
  let cyclic ← components.zipIdx.filterM fun p => componentIsCyclic ir p.1
  return cyclic.map Prod.snd

/-- `SccGraph::new` (lines 761–827). -/
def new (ir : ExecIrBuilder) : Except PassPanic SccGraph := do
  assertCyclesHaveSafepoints ir
  let components ← stronglyConnectedComponents ir none
  let componentOf ← (HaltCheck.SccGraph.fillComponentOf components).mapError .pass
  let len := components.length
  let d ← countEdges ir len componentOf
  let ready := (List.range len).filter fun id => d.indegree id = 0
  let topoOrder ← topoLoop len d.edges len d.indegree ready []
  (require (topoOrder.length = len) .topoOrderIncomplete).mapError .pass
  let cyclic ← (cyclicIds ir components).mapError .pass
  let isCyclic ← (ArenaSet.fromIter 0 cyclic).mapError .set
  return { components, componentOf, topoOrder, isCyclic }

end SccGraph

/-! ## Tarjan's algorithm with and without sets -/

/-- Like `EndsLike` for the panic of a full set. -/
abbrev Like {α β : Type} (why : Prop) (R : α → β → Prop) (x : Except PassPanic α)
   
    (y : Except Panic β) : Prop :=
  EndsLike why (.set .indexOutOfBounds) PassPanic.pass R x y

/-- The set stands for the predicate and has only room for its first word. -/
structure Holds (s : ArenaSet) (p : ℕ → Bool) : Prop where
  contains : ∀ k, s.contains k = p k
  room : s.words.length ≤ 1

theorem holds_new : Holds ArenaSet.new fun _ => false where
  contains k := ArenaSet.withCapacity_contains 0 k
  room := by
    show (ArenaSet.withCapacity 0).words.length ≤ 1
    rw [ArenaSet.withCapacity_length]
    omega

/-- An insertion panics on a handle from the 65th on. -/
theorem Holds.insert {s : ArenaSet} {p : ℕ → Bool} (h : Holds s p) (key : ℕ) :
    (key < 64 ∧ ∃ s', s.insert key = .ok (s', !p key) ∧ Holds s' (Function.update p key true)) ∨
      (64 ≤ key ∧ s.insert key = .error .indexOutOfBounds) := by
  have hroom := h.room
  by_cases hkey : key < 64
  · obtain ⟨s', hrun, hlen, hcontains⟩ := @ArenaSet.insert_ok s key (by omega)
    refine .inl ⟨hkey, s', by rw [hrun, h.contains], fun k => ?_, by omega⟩
    rw [hcontains, h.contains]
    by_cases hk : k = key
    · simp [hk]
    · simp [hk]
  · exact .inr ⟨Nat.le_of_not_lt hkey, ArenaSet.insert_error (by omega)⟩

theorem Holds.remove {s : ArenaSet} {p : ℕ → Bool} (h : Holds s p) (key : ℕ) :
    Holds (s.remove key).1 (Function.update p key false) where
  contains k := by
    rw [ArenaSet.contains_remove, h.contains]
    by_cases hk : k = key
    · simp [hk]
    · simp [hk]
  room := by rw [ArenaSet.remove_length]; exact h.room

namespace Tarjan

/-- The same search, which has visited none but the first 64 blocks. -/
structure Same (s : Tarjan) (t : HaltCheck.Tarjan) : Prop where
  nextIndex : s.nextIndex = t.nextIndex
  index : s.index = t.index
  lowLink : s.lowLink = t.lowLink
  stack : s.stack = t.stack
  onStack : Holds s.onStack t.onStack
  components : s.components = t.components
  visited : ∀ b, t.Visited b → b < 64

theorem same_init : Same Tarjan.init HaltCheck.Tarjan.init where
  nextIndex := rfl
  index := rfl
  lowLink := rfl
  stack := rfl
  onStack := holds_new
  components := rfl
  visited b h := by cases h

variable {ir : ExecIrBuilder} {allowed : Option ArenaSet}

/-- A block that does not fit into the sets. -/
def Beyond (ir : ExecIrBuilder) (allowed : Option ArenaSet) : Prop :=
  ∃ b, 64 ≤ b ∧ b < ir.blocks.length ∧ blockIsAllowed allowed b = true

theorem visit_like {s : Tarjan} {t : HaltCheck.Tarjan} (h : Same s t) {block : Block}
    (hlt : block < ir.blocks.length) (hallowed : blockIsAllowed allowed block = true) :
    Like (Beyond ir allowed) Same (s.visit block) (.ok (t.visit block)) := by
  rcases h.onStack.insert block with ⟨hkey, onStack, hrun, hholds⟩ | ⟨hkey, hrun⟩
  · unfold visit
    rw [hrun]
    refine EndsLike.ok ⟨?_, ?_, ?_, ?_, hholds, h.components, ?_⟩
    · exact congrArg (· + 1) h.nextIndex
    · show Function.update s.index block (some s.nextIndex) = _
      rw [h.index, h.nextIndex]
      rfl
    · show Function.update s.lowLink block (some s.nextIndex) = _
      rw [h.lowLink, h.nextIndex]
      rfl
    · exact congrArg (block :: ·) h.stack
    · intro b hb
      rcases HaltCheck.Tarjan.visit_visited.1 hb with rfl | hb
      · exact hkey
      · exact h.visited b hb
  · unfold visit
    rw [hrun]
    exact .inl ⟨⟨block, hkey, hlt, hallowed⟩, rfl⟩

theorem Same.setLowLink {s : Tarjan} {t : HaltCheck.Tarjan} (h : Same s t)
    (block : Block) (low : ℕ) :
    Same (s.setLowLink block low) (t.setLowLink block low) where
  nextIndex := h.nextIndex
  index := h.index
  lowLink := by
    show Function.update s.lowLink block (some low) = _
    rw [h.lowLink]
    rfl
  stack := h.stack
  onStack := h.onStack
  components := h.components
  visited := h.visited

theorem popComponent_like {why : Prop} (block : Block) (stack : List Block) {onStack : ArenaSet}
    {p : Block → Bool} (h : Holds onStack p) (component : List Block) :
    Like why (fun r q => r.1 = q.1 ∧ Holds r.2.1 q.2.1 ∧ r.2.2 = q.2.2)
      (popComponent block stack onStack component)
      (HaltCheck.Tarjan.popComponent block stack p component) := by
  induction stack generalizing onStack p component with
  | nil => exact .inr (.inr ⟨_, rfl, rfl⟩)
  | cons member stack ih =>
    unfold popComponent HaltCheck.Tarjan.popComponent
    dsimp only
    split_ifs with hmember
    · exact EndsLike.ok ⟨rfl, h.remove member, rfl⟩
    · exact ih (h.remove member) _

theorem finish_like {why : Prop} {s : Tarjan} {t : HaltCheck.Tarjan} (h : Same s t)
    (block : Block) :
    Like why Same (s.finish block) (t.finish block) := by
  unfold finish HaltCheck.Tarjan.finish
  rw [h.lowLink, h.index, h.stack]
  refine (EndsLike.mapError _).bind fun low _ hlow =>
    (EndsLike.mapError _).bind fun index _ hindex => ?_
  subst hlow hindex
  split_ifs with hroot
  · refine (popComponent_like block t.stack h.onStack []).bind ?_
    rintro ⟨stack, onStack, component⟩ ⟨stack', onStack', component'⟩ ⟨rfl, hholds, rfl⟩
    exact EndsLike.ok ⟨h.nextIndex, rfl, rfl, rfl, hholds,
      congrArg (· ++ [component]) h.components, h.visited⟩
  · exact EndsLike.ok h

theorem scanSucc_like {connect : Block → Tarjan → Except PassPanic Tarjan}
    {connect' : Block → HaltCheck.Tarjan → Except Panic HaltCheck.Tarjan}
    (hconnect : ∀ block, block < ir.blocks.length → blockIsAllowed allowed block = true →
      ∀ s t, Same s t → Like (Beyond ir allowed) Same (connect block s) (connect' block t))
    {s : Tarjan} {t : HaltCheck.Tarjan} (h : Same s t) (block : Block) {succ : Block}
    (hsucc : succ < ir.blocks.length) :
    Like (Beyond ir allowed) Same (scanSucc allowed connect block s succ)
      (HaltCheck.Tarjan.scanSucc (blockIsAllowed allowed) connect' block t succ) := by
  unfold scanSucc HaltCheck.Tarjan.scanSucc
  by_cases hallowed : blockIsAllowed allowed succ = false
  · rw [if_pos hallowed, if_pos hallowed]
    exact EndsLike.ok h
  · rw [if_neg hallowed, if_neg hallowed, h.index]
    cases hindex : t.index succ with
    | none =>
      refine (hconnect succ hsucc (by simpa using hallowed) s t h).bind fun s' t' h' => ?_
      rw [h'.lowLink]
      refine (EndsLike.mapError _).bind fun low _ hlow =>
        (EndsLike.mapError _).bind fun low' _ hlow' => ?_
      subst hlow hlow'
      exact EndsLike.ok (h'.setLowLink block _)
    | some succIndex =>
      dsimp only
      rw [h.onStack.contains, h.lowLink]
      split_ifs with hon
      · refine (EndsLike.mapError _).bind fun low _ hlow => ?_
        subst hlow
        exact EndsLike.ok (h.setLowLink block _)
      · exact EndsLike.ok h

theorem strongConnect_like (hwf : WF ir) (depth : ℕ) : ∀ block, block < ir.blocks.length →
    blockIsAllowed allowed block = true → ∀ s t, Same s t →
      Like (Beyond ir allowed) Same (strongConnect ir allowed depth block s)
        (HaltCheck.Tarjan.strongConnect ir (blockIsAllowed allowed) depth block t) := by
  induction depth with
  | zero => exact fun _ _ _ _ _ _ => .inr (.inr ⟨_, rfl, rfl⟩)
  | succ depth ih =>
    intro block hlt hallowed s t h
    unfold strongConnect HaltCheck.Tarjan.strongConnect
    rw [successors_eq hlt, ok_bind]
    refine EndsLike.bind (y := .ok (t.visit block)) (g := fun t' => (ir.succs block).foldlM
      (HaltCheck.Tarjan.scanSucc (blockIsAllowed allowed) (HaltCheck.Tarjan.strongConnect ir
        (blockIsAllowed allowed) depth) block) t' >>= HaltCheck.Tarjan.finish block)
      (visit_like h hlt hallowed) fun s' t' h' => ?_
    rw [show (Except.ok (ir.succs block)).mapError PassPanic.pass = .ok (ir.succs block) from rfl,
      ok_bind]
    refine EndsLike.bind (EndsLike.foldlM (fun succ hsucc s t hst => ?_) h') fun s'' t'' h'' => ?_
    · exact scanSucc_like ih hst block (succs_lt hwf hsucc).2.2
    · exact finish_like h'' block

theorem runBlock_like (hwf : WF ir) {s : Tarjan} {t : HaltCheck.Tarjan} (h : Same s t)
    {block : Block} (hlt : block < ir.blocks.length) :
    Like (Beyond ir allowed) Same (runBlock ir allowed s block)
      (HaltCheck.Tarjan.runBlock ir (blockIsAllowed allowed) t block) := by
  unfold runBlock HaltCheck.Tarjan.runBlock
  split_ifs with hallowed
  · exact EndsLike.ok h
  · rw [h.index]
    cases hindex : t.index block with
    | none => exact strongConnect_like hwf _ block hlt (by simpa using hallowed) s t h
    | some _ => exact EndsLike.ok h

end Tarjan

section Components

variable {ir : ExecIrBuilder} {allowed : Option ArenaSet}

/-- The search panics on a set exactly if one of its blocks does not fit. -/
theorem components_capacity (hwf : WF ir) {components : List (List Block)}
    (hcomp : HaltCheck.stronglyConnectedComponents ir (Tarjan.blockIsAllowed allowed) =
      .ok components) :
    (Tarjan.Beyond ir allowed →
        stronglyConnectedComponents ir allowed = .error (.set .indexOutOfBounds)) ∧
      (¬ Tarjan.Beyond ir allowed → stronglyConnectedComponents ir allowed = .ok components) := by
  have hstep : ∀ block ∈ List.range ir.blocks.length, ∀ s t, Tarjan.Same s t →
      Like (Tarjan.Beyond ir allowed) Tarjan.Same (Tarjan.runBlock ir allowed s block)
        (HaltCheck.Tarjan.runBlock ir (Tarjan.blockIsAllowed allowed) t block) :=
    fun block hblock s t h => Tarjan.runBlock_like hwf h (List.mem_range.1 hblock)
  have hlike := EndsLike.foldlM hstep Tarjan.same_init
  obtain ⟨t, ht, -, -, -, hvisited⟩ := @HaltCheck.Tarjan.run_spec ir (Tarjan.blockIsAllowed allowed)
    hwf (List.range ir.blocks.length) (fun v hv => List.mem_range.1 hv)
      _ HaltCheck.Tarjan.inv_init rfl
  have hok : HaltCheck.stronglyConnectedComponents ir (Tarjan.blockIsAllowed allowed) =
      .ok t.components := bind_eq_ok.2 ⟨t, ht, rfl⟩
  obtain rfl := Except.ok.inj (hok.symm.trans hcomp)
  unfold stronglyConnectedComponents
  constructor
  · rintro ⟨b, hge, hlt, hallowed⟩
    rcases hlike with ⟨-, hrun⟩ | ⟨s, t', -, ht', hsame⟩ | ⟨e, -, he⟩
    · rw [hrun]
      rfl
    · -- the search has visited the block, but only the first 64 blocks fit
      obtain rfl := Except.ok.inj (ht.symm.trans ht')
      exact absurd (hsame.visited b (hvisited b (List.mem_range.2 hlt) hallowed)) (Nat.not_lt.2 hge)
    · rw [ht] at he
      cases he
  · intro hnot
    obtain ⟨s, hrun, hsame⟩ := hlike.result hnot ht
    rw [hrun]
    exact congrArg Except.ok hsame.components

end Components

/-! ## Sets collected from filters -/

theorem Holds.insertAll {s : ArenaSet} {p : ℕ → Bool} (h : Holds s p) (keys : List ℕ) :
    ((∀ k ∈ keys, k < 64) ∧ ∃ s', keys.foldlM (fun s key => do
        let (s, _) ← s.insert key
        return s) s = .ok s' ∧ Holds s' fun k => decide (k ∈ keys) || p k) ∨
      ((∃ k ∈ keys, 64 ≤ k) ∧ keys.foldlM (fun s key => do
        let (s, _) ← s.insert key
        return s) s = .error SetPanic.indexOutOfBounds) := by
  induction keys generalizing s p with
  | nil => exact .inl ⟨by simp, s, rfl, by simpa using h⟩
  | cons key keys ih =>
    rw [List.foldlM_cons]
    rcases h.insert key with ⟨hkey, s₁, hrun, h₁⟩ | ⟨hkey, hrun⟩
    · rw [hrun, ok_bind]
      have hpred : (fun k => decide (k ∈ keys) || Function.update p key true k) =
          fun k => decide (k ∈ key :: keys) || p k := by
        funext k
        by_cases hk : k = key
        · simp [hk]
        · simp [hk]
      rcases ih h₁ with ⟨hall, s', hrest, h'⟩ | ⟨⟨k, hk, hge⟩, hrest⟩
      · exact .inl ⟨List.forall_mem_cons.2 ⟨hkey, hall⟩, s', hrest, hpred ▸ h'⟩
      · exact .inr ⟨⟨k, List.mem_cons_of_mem _ hk, hge⟩, hrest⟩
    · rw [hrun]
      exact .inr ⟨⟨key, List.mem_cons_self, hkey⟩, rfl⟩

theorem fromIter_zero (keys : List ℕ) :
    ((∀ k ∈ keys, k < 64) ∧ ∃ s, ArenaSet.fromIter 0 keys = .ok s ∧
      Holds s fun k => decide (k ∈ keys)) ∨
      ((∃ k ∈ keys, 64 ≤ k) ∧ ArenaSet.fromIter 0 keys = .error .indexOutOfBounds) := by
  refine (holds_new.insertAll keys).imp_left fun ⟨hall, s, hrun, h⟩ => ⟨hall, s, hrun, ?_⟩
  simpa using h

/-! ## Cycle validation -/

section Assertion

variable {ir : ExecIrBuilder}

/-- A block without a safepoint that does not fit into the set of such blocks. -/
def FreeBeyond (ir : ExecIrBuilder) : Prop :=
  ∃ b, 64 ≤ b ∧ b < ir.blocks.length ∧ hasSafepoint ir b = false

theorem assertCycles_capacity (hwf : WF ir) :
    (FreeBeyond ir → assertCyclesHaveSafepoints ir = .error (.set .indexOutOfBounds)) ∧
      (¬ FreeBeyond ir → assertCyclesHaveSafepoints ir =
        (HaltCheck.assertCyclesHaveSafepoints ir).mapError .pass) := by
  have hfilter : ((List.range ir.blocks.length).filterM fun block => do
      return !(← blockHasSafepoint ir block)) =
      .ok ((List.range ir.blocks.length).filter fun b => !hasSafepoint ir b) := by
    refine filterM_ok fun b hb => ?_
    exact bind_eq_ok.2 ⟨_, blockHasSafepoint_eq hwf (List.mem_range.1 hb), rfl⟩
  have hmem : ∀ b, b ∈ (List.range ir.blocks.length).filter (fun b => !hasSafepoint ir b) ↔
      b < ir.blocks.length ∧ hasSafepoint ir b = false := by
    intro b
    simp
  unfold assertCyclesHaveSafepoints
  rw [hfilter, show (Except.ok ((List.range ir.blocks.length).filter fun b =>
    !hasSafepoint ir b)).mapError
    PassPanic.pass = .ok ((List.range ir.blocks.length).filter fun b => !hasSafepoint ir b) from
      rfl, ok_bind]
  rcases fromIter_zero ((List.range ir.blocks.length).filter fun b => !hasSafepoint ir b) with
    ⟨hall, allowed, hrun, hholds⟩ | ⟨⟨b, hb, hge⟩, hrun⟩
  · have hnot : ¬ FreeBeyond ir := by
      rintro ⟨b, hge, hlt, hfree⟩
      exact absurd (hall b ((hmem b).2 ⟨hlt, hfree⟩)) (Nat.not_lt.2 hge)
    refine ⟨fun hbeyond => (hnot hbeyond).elim, fun _ => ?_⟩
    have hallowed : Tarjan.blockIsAllowed (some allowed) = safepointFree ir := by
      funext b
      show allowed.contains b = _
      rw [hholds.contains, Bool.eq_iff_iff, decide_eq_true_iff, hmem]
      simp [safepointFree]
    obtain ⟨components, hcomp, -, hassert⟩ := assertCycles_eq hwf
    have hfits : ¬ Tarjan.Beyond ir (some allowed) := by
      rintro ⟨b, hge, hlt, hb⟩
      rw [hallowed] at hb
      exact hnot ⟨b, hge, hlt, by simpa [safepointFree, hlt] using hb⟩
    have hcomponents :=
      (@components_capacity ir (some allowed) hwf components (hallowed ▸ hcomp)).2 hfits
    rw [hrun, show (Except.ok allowed).mapError PassPanic.set = .ok allowed from rfl, ok_bind,
      hcomponents, ok_bind, hassert]
  · obtain ⟨hlt, hfree⟩ := (hmem b).1 hb
    refine ⟨fun _ => by rw [hrun]; rfl, fun hnot => (hnot ⟨b, hge, hlt, hfree⟩).elim⟩

end Assertion

/-! ## The graph -/

namespace SccGraph

/-- The same edges, and the numbers of edges into each component. -/
structure SameDegrees (d : Degrees) (d' : HaltCheck.SccGraph.Degrees) : Prop where
  edges : ∀ a, Holds (d.edges a) (d'.edges a)
  indegree : d.indegree = d'.indegree

theorem addSuccessor_like {len : ℕ} {componentOf : Block → Option ℕ}
    (hof : ∀ b id, componentOf b = some id → id < 64) (fromComponent : ℕ) {d : Degrees}
    {d' : HaltCheck.SccGraph.Degrees} (h : SameDegrees d d') (succ : Block) :
    Like False SameDegrees (addSuccessor len componentOf fromComponent d succ)
      (HaltCheck.SccGraph.addSuccessor len componentOf fromComponent d' succ) := by
  unfold addSuccessor HaltCheck.SccGraph.addSuccessor
  cases hto : componentOf succ with
  | none =>
    refine .inr (.inr ⟨.keyNotFound, ?_, ?_⟩)
    · unfold mapGet
      rw [hto]
      rfl
    · unfold mapGet
      rw [hto]
      rfl
  | some target =>
    rw [mapGet_eq hto, ok_bind,
      show (Except.ok target).mapError PassPanic.pass = .ok target from rfl, ok_bind]
    by_cases heq : fromComponent = target
    · rw [if_pos heq, if_pos heq]
      exact EndsLike.ok h
    · rw [if_neg heq, if_neg heq]
      refine (EndsLike.mapError _).bind fun _ _ _ => ?_
      rcases (h.edges fromComponent).insert target with ⟨-, targets, hrun, hholds⟩ | ⟨hge, -⟩
      · rw [hrun, show (Except.ok (targets, !d'.edges fromComponent target)).mapError
          PassPanic.set =
          .ok (targets, !d'.edges fromComponent target) from rfl, ok_bind]
        have hedges : ∀ a, Holds (Function.update d.edges fromComponent targets a)
            (Function.update d'.edges fromComponent
              (Function.update (d'.edges fromComponent) target true) a) := by
          intro a
          by_cases ha : a = fromComponent
          · subst ha
            rw [Function.update_self, Function.update_self]
            exact hholds
          · rw [Function.update_of_ne ha, Function.update_of_ne ha]
            exact h.edges a
        cases hedge : d'.edges fromComponent target with
        | true =>
          -- the edge was there: the set stays the same
          refine EndsLike.ok ⟨fun a => ?_, h.indegree⟩
          have hsame := hedges a
          rwa [← hedge, Function.update_eq_self, Function.update_eq_self] at hsame
        | false =>
          refine (EndsLike.mapError _).bind fun _ _ _ => EndsLike.ok ⟨hedges, ?_⟩
          show Function.update d.indegree target (d.indegree target + 1) = _
          rw [h.indegree]
      · exact absurd (hof succ target hto) (Nat.not_lt.2 hge)

theorem countEdges_like {ir : ExecIrBuilder} {len : ℕ} {componentOf : Block → Option ℕ}
    (hof : ∀ b id, componentOf b = some id → id < 64) :
    Like False SameDegrees (countEdges ir len componentOf)
      (HaltCheck.SccGraph.countEdges ir len componentOf) := by
  refine EndsLike.foldlM (fun block _ d d' h => ?_) ⟨fun _ => holds_new, rfl⟩
  cases componentOf block with
  | none => exact EndsLike.ok h
  | some fromComponent =>
    refine (EndsLike.mapError _).bind fun succs _ hsuccs => ?_
    subst hsuccs
    exact EndsLike.foldlM (fun succ _ d d' h => addSuccessor_like hof fromComponent h succ) h

/-- The handles of a set below `len`, as numbers. -/
theorem Holds.iter {s : ArenaSet} {p : ℕ → Bool} (h : Holds s p) {len : ℕ}
    (hlt : ∀ k, p k = true → k < len) :
    ∃ handles, s.iter = .ok handles ∧ handles.map Fin.val = (List.range len).filter p := by
  let set : Finset RawHandle := Finset.univ.filter fun handle => p handle.val = true
  have hmem : ∀ k, s.contains k = true ↔ ∃ handle ∈ set, handle.val = k := by
    intro k
    constructor
    · intro hk
      have hsmall : k < 2 ^ 32 - 1 := by
        by_contra hge
        have hroom := h.room
        rw [ArenaSet.contains_none (by omega)] at hk
        cases hk
      rw [h.contains] at hk
      exact ⟨⟨k, hsmall⟩, Finset.mem_filter.2 ⟨Finset.mem_univ _, hk⟩, rfl⟩
    · rintro ⟨handle, hhandle, rfl⟩
      rw [h.contains]
      exact (Finset.mem_filter.1 hhandle).2
  refine ⟨_, ArenaSet.iter_eq hmem, ?_⟩
  refine List.Pairwise.eq_of_mem_iff (r := (· < ·)) ?_ ?_ fun k => ?_
  · exact List.pairwise_map.2 set.sortedLT_sort.pairwise
  · exact List.pairwise_lt_range.filter _
  · rw [List.mem_map, List.mem_filter, List.mem_range]
    simp only [Finset.mem_sort]
    rw [← hmem, h.contains]
    exact (and_iff_right_of_imp (hlt k)).symm

theorem topoLoop_like {len : ℕ} {edges : ℕ → ArenaSet} {edges' : ℕ → ℕ → Bool}
    (h : ∀ a, Holds (edges a) (edges' a)) (hlt : ∀ a b, edges' a b = true → b < len) (fuel : ℕ)
    (indegree : ℕ → ℕ) (ready topoOrder : List ℕ) :
    Like False (· = ·) (topoLoop len edges fuel indegree ready topoOrder)
      (HaltCheck.SccGraph.topoLoop len edges' fuel indegree ready topoOrder) := by
  induction fuel generalizing indegree ready topoOrder with
  | zero =>
    cases ready with
    | nil => exact EndsLike.ok rfl
    | cons id ready => exact .inr (.inr ⟨_, rfl, rfl⟩)
  | succ fuel ih =>
    cases ready with
    | nil => exact EndsLike.ok rfl
    | cons id ready =>
      unfold topoLoop HaltCheck.SccGraph.topoLoop
      refine (EndsLike.mapError _).bind fun _ _ _ => ?_
      obtain ⟨handles, hrun, hmap⟩ := Holds.iter (h id) (hlt id)
      rw [hrun, show (Except.ok handles).mapError PassPanic.set = .ok handles from rfl,
        ok_bind, hmap]
      refine EndsLike.bind (R := (· = ·)) (EndsLike.mapError _) fun r _ hr => ?_
      subst hr
      exact ih _ _ _

/-- The cyclic components are found without a panic, and are components. -/
theorem cyclicIds_spec {ir : ExecIrBuilder} {components : List (List Block)}
    (hlt : ∀ c ∈ components, ∀ b ∈ c, b < ir.blocks.length) :
    ∃ ids, cyclicIds ir components = .ok ids ∧ ∀ id ∈ ids, id < components.length := by
  have hcyclic : ∀ c ∈ components, ∃ cyclic, componentIsCyclic ir c = .ok cyclic :=
    fun c hc => let ⟨cyclic, hrun, _⟩ := componentIsCyclic_eq (hlt c hc); ⟨cyclic, hrun⟩
  choose! cyclic hcyc using hcyclic
  have hfilter : (components.zipIdx.filterM fun p => componentIsCyclic ir p.1) =
      .ok (components.zipIdx.filter fun p => cyclic p.1) :=
    filterM_ok fun p hp => hcyc p.1 (List.mem_of_getElem? (List.mem_zipIdx_iff_getElem?.1 hp))
  refine ⟨_, bind_eq_ok.2 ⟨_, hfilter, rfl⟩, fun id hid => ?_⟩
  obtain ⟨p, hp, rfl⟩ := List.mem_map.1 hid
  exact (List.getElem?_eq_some_iff.1 (List.mem_zipIdx_iff_getElem?.1 (List.mem_filter.1 hp).1)).1

/-- Components of at most 64 blocks are at most 64. -/
theorem components_length_le {ir : ExecIrBuilder} {components : List (List Block)}
    (h : IsComponents ir (fun _ => true) components) :
    components.length ≤ ir.blocks.length := by
  have hflatten : components.flatten.length ≤ ir.blocks.length :=
    length_le_of_nodup h.nodup fun b hb => ((h.mem b).1 hb).1
  have hone : ∀ c ∈ components, 1 ≤ c.length := by
    intro c hc
    refine List.length_pos_iff.2 ?_
    rintro rfl
    exact h.nonempty hc
  have hsum := List.length_le_sum_of_one_le (components.map List.length) (by simpa using hone)
  rw [List.length_map, ← List.length_flatten] at hsum
  omega

/-- With at most 64 blocks, none of which is on a cycle without a safepoint, `new` succeeds. -/
theorem new_ok {ir : ExecIrBuilder} (hwf : WF ir) (hcycles : CyclesHaveSafepoints ir)
    (hfew : ir.blocks.length ≤ 64) : ∃ g, new ir = .ok g := by
  obtain ⟨components, hcomp, hspec⟩ := components_spec hwf fun _ => true
  obtain ⟨g, hg, -⟩ := HaltCheck.SccGraph.new_spec hwf hcycles
  -- the steps of the run without sets
  obtain ⟨-, -, hg⟩ := bind_eq_ok.1 hg
  obtain ⟨_, hcomp', hg⟩ := bind_eq_ok.1 hg
  obtain rfl := Except.ok.inj (hcomp.symm.trans hcomp')
  obtain ⟨componentOf, hfill, hg⟩ := bind_eq_ok.1 hg
  obtain ⟨d, hdeg, hg⟩ := bind_eq_ok.1 hg
  obtain ⟨topoOrder, htopo, hg⟩ := bind_eq_ok.1 hg
  obtain ⟨_, hlen, -⟩ := bind_eq_ok.1 hg
  have hcomponents : components.length ≤ 64 := (components_length_le hspec).trans hfew
  have hmem : ∀ c ∈ components, ∀ b ∈ c, b < ir.blocks.length := fun c hc b hb =>
    ((hspec.mem b).1 (List.mem_flatten.2 ⟨c, hc, hb⟩)).1
  obtain ⟨componentOf', hfill', hof⟩ := HaltCheck.SccGraph.fillComponentOf_spec hspec.nodup
  obtain rfl := Except.ok.inj (hfill.symm.trans hfill')
  have hlt : ∀ b id, componentOf b = some id → b < ir.blocks.length ∧ id < components.length := by
    intro b id hb
    obtain ⟨c, hc, hbc⟩ := (hof b id).1 hb
    exact ⟨hmem c (List.mem_of_getElem? hc) b hbc, (List.getElem?_eq_some_iff.1 hc).1⟩
  obtain ⟨d₀, hdeg₀, -, hedges⟩ := HaltCheck.SccGraph.countEdges_spec hwf (by
      intro b hb
      obtain ⟨c, hc, hbc⟩ := List.mem_flatten.1 ((hspec.mem b).2 ⟨hb, rfl⟩)
      obtain ⟨id, hid, rfl⟩ := List.getElem_of_mem hc
      exact ⟨id, hid, (hof b id).2 ⟨_, List.getElem?_eq_getElem hid, hbc⟩⟩) hlt
  obtain rfl := Except.ok.inj (hdeg.symm.trans hdeg₀)
  -- the same steps with sets
  have hfits : ∀ b, 64 ≤ b → ¬ b < ir.blocks.length := fun b hge => Nat.not_lt.2 (hfew.trans hge)
  have hassert : assertCyclesHaveSafepoints ir = .ok () := by
    rw [(assertCycles_capacity hwf).2 fun ⟨b, hge, hb, _⟩ => hfits b hge hb,
      (assertCycles_iff hwf).2 hcycles]
    rfl
  have hcompSets : stronglyConnectedComponents ir none = .ok components :=
    (@components_capacity ir none hwf _ hcomp).2 fun ⟨b, hge, hb, _⟩ => hfits b hge hb
  obtain ⟨dSets, hdegSets, hsame⟩ := (@countEdges_like ir components.length _
    fun b id hb => lt_of_lt_of_le (hlt b id hb).2 hcomponents).result not_false hdeg
  obtain ⟨topoOrder', htopoSets, hsameOrder⟩ := (topoLoop_like hsame.edges (fun a b hab => by
    obtain ⟨-, u, v, -, -, hv⟩ := (hedges a b).1 hab
    exact (hlt v b hv).2) components.length d.indegree _ []).result not_false htopo
  subst hsameOrder
  obtain ⟨ids, hids, hidlt⟩ := cyclicIds_spec hmem
  obtain ⟨-, isCyclic, hset, -⟩ | ⟨⟨id, hid, hge⟩, -⟩ := fromIter_zero ids
  · refine ⟨⟨components, componentOf, topoOrder', isCyclic⟩, ?_⟩
    unfold new
    rw [hassert, ok_bind, hcompSets, ok_bind, hfill,
      show (Except.ok componentOf).mapError PassPanic.pass = .ok componentOf from rfl, ok_bind]
    dsimp only
    rw [hdegSets, ok_bind, hsame.indegree, htopoSets, ok_bind, hlen, hids,
      show (Except.ok ()).mapError PassPanic.pass = .ok () from rfl, ok_bind,
      show (Except.ok ids).mapError PassPanic.pass = .ok ids from rfl, ok_bind, hset]
    rfl
  · have := hidlt id hid
    omega

/-- `SccGraph::new` panics because of a set exactly if a block without a safepoint does not fit
    into the set of the assertion, or the assertion holds and there are more than 64 blocks. -/
theorem new_set_panics_iff {ir : ExecIrBuilder} (hwf : WF ir) :
    (∃ e, new ir = .error (.set e)) ↔
      FreeBeyond ir ∨ CyclesHaveSafepoints ir ∧ 64 < ir.blocks.length := by
  by_cases hfree : FreeBeyond ir
  · refine iff_of_true ⟨.indexOutOfBounds, ?_⟩ (.inl hfree)
    unfold new
    rw [(assertCycles_capacity hwf).1 hfree]
    rfl
  have hassert := (assertCycles_capacity hwf).2 hfree
  by_cases hcycles : CyclesHaveSafepoints ir
  · by_cases hmany : 64 < ir.blocks.length
    · refine iff_of_true ⟨.indexOutOfBounds, ?_⟩ (.inr ⟨hcycles, hmany⟩)
      obtain ⟨components, hcomp, -⟩ := components_spec hwf fun _ => true
      unfold new
      rw [hassert, (assertCycles_iff hwf).2 hcycles,
        show (Except.ok ()).mapError PassPanic.pass = .ok () from rfl, ok_bind,
        (@components_capacity ir none hwf _ hcomp).1 ⟨64, le_rfl, hmany, rfl⟩]
      rfl
    · obtain ⟨g, hg⟩ := new_ok hwf hcycles (Nat.le_of_not_lt hmany)
      refine iff_of_false ?_ (not_or.2 ⟨hfree, fun h => hmany h.2⟩)
      rintro ⟨e, he⟩
      rw [hg] at he
      cases he
  · refine iff_of_false ?_ (not_or.2 ⟨hfree, fun h => hcycles h.1⟩)
    rintro ⟨e, he⟩
    unfold new at he
    rw [hassert, (assertCycles_panics_iff hwf).2 hcycles] at he
    cases he

end SccGraph

end WithSets

/-- The calls on an `ArenaSet` answer like a finite set exactly if every inserted handle is below
    64 or fits into the words that the set was created with; otherwise they panic. Therefore the
    sets of the pass fail on every builder with more than 64 blocks, unless the assertion panics
    first because of a cycle without a safepoint. -/
theorem arenaSet_finite_iff (calls : List ArenaSet.Call) {ir : ExecIrBuilder} (hbuilt : Built ir) :
    (ArenaSet.runCalls ArenaSet.new calls = .ok (ArenaSet.finsetAnswers ∅ calls) ↔
      ArenaSet.CallsHaveRoom (ArenaSet.room 0) calls) ∧
    ((∀ e, WithSets.SccGraph.new ir ≠ .error (.set e)) ↔
      (∀ b < ir.blocks.length, 64 ≤ b → hasSafepoint ir b = true) ∧
        (CyclesHaveSafepoints ir → ir.blocks.length ≤ 64)) := by
  constructor
  · obtain ⟨hok, hpanic⟩ := (ArenaSet.represents_withCapacity 0).runCalls calls
    constructor
    · intro hrun
      by_contra hno
      rw [show ArenaSet.runCalls ArenaSet.new calls = .error .indexOutOfBounds from
        hpanic hno] at hrun
      cases hrun
    · exact hok
  · have hiff := (WithSets.SccGraph.new_set_panics_iff hbuilt.wf).not
    rw [not_exists, not_or, not_and, Nat.not_lt] at hiff
    rw [hiff]
    refine and_congr_left fun _ => ?_
    unfold WithSets.FreeBeyond
    push Not
    simp only [ne_eq, Bool.not_eq_false]
    exact forall_congr' fun b => forall_comm

/-- The loop has two blocks, which fit. -/
theorem arenaSet_finite_iff_loop :
    loopBuilder.blocks.length = 2 ∧ ∀ e, WithSets.SccGraph.new loopBuilder ≠ .error (.set e) := by
  refine ⟨by decide, (arenaSet_finite_iff [] loopBuilder_built).2.2 ⟨fun b hlt hge => ?_,
    fun _ => ?_⟩⟩
  · exact absurd (lt_of_lt_of_le hlt (show loopBuilder.blocks.length ≤ 64 by decide))
      (Nat.not_lt.2 hge)
  · decide

/-- A new set panics on the handle 64. -/
theorem new_insert_64_panics :
    ArenaSet.runCalls ArenaSet.new [.insert ⟨64, by decide⟩] = .error .indexOutOfBounds ∧
      ¬ ∀ calls, ArenaSet.runCalls ArenaSet.new calls = .ok (ArenaSet.finsetAnswers ∅ calls) := by
  refine ⟨by decide, fun h => ?_⟩
  exact absurd (h [.insert ⟨64, by decide⟩]) (by decide)

end RapidArm.HaltCheck
