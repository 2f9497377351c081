import RapidArm.HaltCheck.SccGraph
import RapidArm.HaltCheck.Split
import Mathlib.Data.List.AList

/-!
# The halt-check pass

The model of `jit-compiler-core/src/ir/halt_check_pass.rs` (lines 68–578 and 834–886):
the countdown states on the edges between blocks, the inserter that splits blocks and
keeps the positions of safepoints, the two block halters, the merge of states, and
`insert_halt_checks`.

Hash maps and sets are mathematical ones. Nothing depends on their iteration order
but the order in which the edges into a block are drained: it is a parameter `order`,
any enumeration of each set. Every `assert`, `debug_assert`, `expect`, `unwrap` and strict
operation of the source is a `require` or a failing case.

The inserter is updated in four places: its creation, a split, the removal of an edge and
the insertion of one. Each ends in a call of `check`, an assertion about the whole
inserter that the source does not have: the pass of the source is the one with `check`
always true, and a pass that succeeds with a stronger `check` has this property at
every moment of its run.
-/

namespace RapidArm.HaltCheck

open RapidArm.Ir RapidArm.Lib

/-! ## Numbers -/

/-- `NonZero<usize>`. -/
abbrev NonZeroUsize := { n : ℕ // 0 < n }

/-- `NonZero::new`. -/
def NonZeroUsize.new (n : ℕ) : Option NonZeroUsize := if h : 0 < n then some ⟨n, h⟩ else none

/-- `strict_sub`. -/
def strictSub (a b : ℕ) : Except Panic ℕ := do
  require (b ≤ a) .strictArithmetic
  return a - b

/-! ## Edges and their states -/

/-- `HaltState` (lines 86–89): after `remaining` more safepoints a halt check is due;
    `suffix_safepoints` are the last safepoints met, the oldest first. -/
structure HaltState where
  remaining : NonZeroUsize
  suffixSafepoints : List Stmt

/-- `HashMap<Block, HaltState>`. -/
abbrev EdgeStates := AList fun _ : Block => HaltState

/-- `HaltStateMap` (lines 91–94). -/
structure HaltStateMap where
  outgoingEdges : Block → Option EdgeStates
  incomingEdges : Block → Option (Finset Block)

namespace HaltStateMap

/-- `HaltStateMap::new`. -/
def new : HaltStateMap where
  outgoingEdges := fun _ => none
  incomingEdges := fun _ => none

/-- `HaltStateMap::add_edge` (lines 108–121): the state that was replaced, if any. -/
def addEdge (m : HaltStateMap) (src dst : Block) (state : HaltState) :
    Option HaltState × HaltStateMap :=
  let edges := (m.outgoingEdges src).getD ∅
  let backwardEdges := (m.incomingEdges dst).getD ∅
  (edges.lookup dst, {
    outgoingEdges := Function.update m.outgoingEdges src (some (edges.insert dst state))
    incomingEdges := Function.update m.incomingEdges dst (some (insert src backwardEdges)) })

/-- `DrainHaltState::next` (lines 150–162) for the edge from `src`. -/
def drainNext (m : HaltStateMap) (dst src : Block) : Except Panic (HaltState × HaltStateMap) :=
  match m.outgoingEdges src with
  | none => .error .edgeMustExist
  | some edges =>
    match edges.lookup dst with
    | none => .error .edgeMustExist
    | some state => .ok (state, {
        outgoingEdges := Function.update m.outgoingEdges src (some (edges.erase dst))
        incomingEdges := Function.update m.incomingEdges dst
          ((m.incomingEdges dst).map fun set => set.erase src) })

/-- The body of the loop that remaps incoming edges (lines 252–261). -/
def remapIncoming (block continuation : Block) (incoming : Block → Option (Finset Block))
    (dst : Block) :
    Except Panic (Block → Option (Finset Block)) :=
  match incoming dst with
  | none => .error .keyNotFound
  | some set => do
    require (block ∈ set) .edgeMustExist
    require (continuation ∉ set.erase block) .keyNotUnique
    return Function.update incoming dst (some (insert continuation (set.erase block)))

/-- Moving the edges out of `block` to its continuation (lines 247–265). -/
def remap (m : HaltStateMap) (block continuation : Block) : Except Panic HaltStateMap :=
  match m.outgoingEdges block with
  | none => .ok m
  | some edges => do
    let outgoing := Function.update m.outgoingEdges block none
    let incoming ← edges.keys.foldlM (remapIncoming block continuation) m.incomingEdges
    require ((outgoing continuation).isNone = true) .keyNotUnique
    return {
      outgoingEdges := Function.update outgoing continuation (some edges)
      incomingEdges := incoming }

end HaltStateMap

/-! ## The inserter -/

/-- `HaltCheckInserter` (lines 177–191). -/
structure HaltCheckInserter where
  ir : ExecIrBuilder
  safepointStmtToBlockAndIndex : Stmt → Option (Block × ℕ)
  map : HaltStateMap
  semanticResetAfter : Finset Stmt

namespace HaltCheckInserter

/-- The body of the loop of `HaltCheckInserter::new` (lines 199–204). -/
def indexSafepoint (ir : ExecIrBuilder) (block : Block) (safepoints : Stmt → Option (Block × ℕ))
    (p : Stmt × ℕ) : Except Panic (Stmt → Option (Block × ℕ)) := do
  if ← stmtIsSafepoint ir p.1 then do
    require ((safepoints p.1).isNone = true) .duplicateSafepoint
    return Function.update safepoints p.1 (some (block, p.2))
  else return safepoints

/-- `HaltCheckInserter::new` (lines 194–217). -/
def new (ir : ExecIrBuilder) : Except Panic HaltCheckInserter := do
  let safepoints ← ir.blocks.zipIdx.foldlM
    (fun m p => p.1.stmts.zipIdx.foldlM (indexSafepoint ir p.2) m) fun _ => none
  return {
    ir
    safepointStmtToBlockAndIndex := safepoints
    map := .new
    semanticResetAfter := ∅ }

/-- The body of the loop over the continuation (lines 233–240). -/
def moveSafepoint (ir : ExecIrBuilder) (block : Block) (stmtIndex : ℕ) (continuation : Block)
    (safepoints : Stmt → Option (Block × ℕ)) (p : Stmt × ℕ) :
    Except Panic (Stmt → Option (Block × ℕ)) := do
  if ← stmtIsSafepoint ir p.1 then do
    require ((safepoints p.1).any (fun old => old.1 = block && stmtIndex < old.2) = true)
      .stalePosition
    return Function.update safepoints p.1 (some (continuation, p.2))
  else return safepoints

variable (check : HaltCheckInserter → Except Panic Unit)

/-- `insert_halt_check_after_safepoint_indexed` (lines 223–268). -/
def insertHaltCheckAfterSafepointIndexed (s : HaltCheckInserter) (block : Block) (stmtIndex : ℕ) :
    Except Panic (Block × HaltCheckInserter) := do
  let (continuation, ir) ← ExecIrBuilder.insertHaltCheckAt block (stmtIndex + 1) s.ir
  let data ← arenaGet ir.blocks continuation
  let safepoints ← data.stmts.zipIdx.foldlM (moveSafepoint ir block stmtIndex continuation)
    s.safepointStmtToBlockAndIndex
  let map ← s.map.remap block continuation
  let s := { s with ir, safepointStmtToBlockAndIndex := safepoints, map }
  check s
  return (continuation, s)

/-- `insert_compensating_halt_check_after_safepoint` (lines 270–281). -/
def insertCompensatingHaltCheckAfterSafepoint (s : HaltCheckInserter) (stmt : Stmt) :
    Except Panic (Block × HaltCheckInserter) := do
  require (stmt ∉ s.semanticResetAfter) .twoCompensatingChecks
  let s := { s with semanticResetAfter := insert stmt s.semanticResetAfter }
  let (block, stmtIndex) ← mapGet s.safepointStmtToBlockAndIndex stmt
  s.insertHaltCheckAfterSafepointIndexed check block stmtIndex

end HaltCheckInserter

/-! ## Halt states -/

namespace HaltState

/-- `HaltState::from_remaining`. -/
def fromRemaining (remaining : NonZeroUsize) : HaltState := ⟨remaining, []⟩

/-- `HaltState::has_complete_suffix`. -/
def hasCompleteSuffix (state : HaltState) (haltCheckEvery : NonZeroUsize) : Except Panic Bool := do
  let seen ← strictSub haltCheckEvery state.remaining
  return state.suffixSafepoints.length = seen

/-- The body of the loop of `canonicalize_against_resets` (lines 415–426). -/
def afterReset (resetAfter : Finset Stmt) (acc : Bool × List Stmt) (stmt : Stmt) :
    Bool × List Stmt :=
  if stmt ∈ resetAfter then (true, [])
  else if acc.1 then (true, acc.2 ++ [stmt])
  else acc

/-- `HaltState::canonicalize_against_resets` (lines 403–447). -/
def canonicalizeAgainstResets (haltCheckEvery : NonZeroUsize) (resetAfter : Finset Stmt)
    (state : HaltState) : Except Panic HaltState :=
  if state.suffixSafepoints = [] ∨ resetAfter = ∅ then .ok state
  else
    let (foundReset, newSuffix) := state.suffixSafepoints.foldl (afterReset resetAfter) (false, [])
    if foundReset = false then .ok state
    else do
      require (newSuffix.length < haltCheckEvery.val) .debugAssertion
      require (newSuffix.length < state.suffixSafepoints.length) .debugAssertion
      let remaining ← strictSub haltCheckEvery newSuffix.length
      match NonZeroUsize.new remaining with
      | none => .error .strictArithmetic
      | some newRemaining => .ok ⟨newRemaining, newSuffix⟩

/-- `HaltState::has_insertion_point` (lines 449–469). -/
def hasInsertionPoint (state : HaltState) (haltCheckEvery target : NonZeroUsize) :
    Except Panic Bool := do
  if target ≤ state.remaining then return false
  else if !(← state.hasCompleteSuffix haltCheckEvery) then return false
  else do
    let safepointsAfterInsert ← strictSub haltCheckEvery target
    if state.suffixSafepoints.length ≤ safepointsAfterInsert then return false
    else return true

/-- `HaltState::compensating_insertion_safepoint` (lines 471–491). -/
def compensatingInsertionSafepoint (state : HaltState) (haltCheckEvery target : NonZeroUsize) :
    Except Panic Stmt := do
  require ((← state.hasInsertionPoint haltCheckEvery target) = true) .noInsertionPoint
  let safepointsAfterInsert ← strictSub haltCheckEvery target
  let skipFromFront ← strictSub (← strictSub state.suffixSafepoints.length safepointsAfterInsert) 1
  match state.suffixSafepoints[skipFromFront]? with
  | none => throw .noInsertionPoint
  | some stmt => return stmt

variable (check : HaltCheckInserter → Except Panic Unit)

/-- `HaltState::insert_compensating_check` (lines 495–515). -/
def insertCompensatingCheck (haltCheckEvery target : NonZeroUsize) (state : HaltState)
    (s : HaltCheckInserter) : Except Panic (HaltState × HaltCheckInserter) :=
  if target ≤ state.remaining then .ok (state, s)
  else do
    let insertionSafepoint ← state.compensatingInsertionSafepoint haltCheckEvery target
    let (_, s) ← s.insertCompensatingHaltCheckAfterSafepoint check insertionSafepoint
    let state ← state.canonicalizeAgainstResets haltCheckEvery s.semanticResetAfter
    require (target ≤ state.remaining) .debugAssertion
    return (state, s)

/-- All states but the first one are canonicalized again (lines 551–556). -/
def recanonicalize (haltCheckEvery : NonZeroUsize) (resetAfter : Finset Stmt) (p : HaltState × ℕ) :
    Except Panic HaltState :=
  if p.2 ≠ 0 then p.1.canonicalizeAgainstResets haltCheckEvery resetAfter else .ok p.1

/-- The body of the loop that normalizes the incoming states (lines 550–559); `acc` has
    those that are done. -/
def normalize (haltCheckEvery target : NonZeroUsize) (acc : List HaltState × HaltCheckInserter)
    (p : HaltState × ℕ) : Except Panic (List HaltState × HaltCheckInserter) := do
  let state ← recanonicalize haltCheckEvery acc.2.semanticResetAfter p
  let (state, s) ← state.insertCompensatingCheck check haltCheckEvery target acc.2
  return (acc.1 ++ [state], s)

/-- The condition `can_normalize` (lines 544–547) for one state. -/
def canNormalize (haltCheckEvery target : NonZeroUsize) (state : HaltState) : Except Panic Bool :=
  if target ≤ state.remaining then .ok true else state.hasInsertionPoint haltCheckEvery target

/-- Whether the states are raised to the greatest countdown (lines 536–549). -/
def shouldNormalize (haltCheckEvery rLo rHi : NonZeroUsize) (incoming : List HaltState) :
    Except Panic Bool := do
  let diff ← strictSub rHi rLo
  let threshold := (haltCheckEvery.val + 1) / 2
  if threshold < diff then incoming.allM (canNormalize haltCheckEvery rHi) else return false

/-- `HaltState::merge_halt_states` (lines 517–580). -/
def mergeHaltStates (s : HaltCheckInserter) (haltCheckEvery : NonZeroUsize)
    (incoming : List HaltState) : Except Panic (HaltState × HaltCheckInserter) := do
  match ← incoming.mapM (canonicalizeAgainstResets haltCheckEvery s.semanticResetAfter) with
  | [] => return (fromRemaining haltCheckEvery, s)
  | [state] => return (state, s)
  | first :: rest => do
    let rLo := rest.foldl (fun r state => min r state.remaining) first.remaining
    let rHi := rest.foldl (fun r state => max r state.remaining) first.remaining
    if ← shouldNormalize haltCheckEvery rLo rHi (first :: rest) then do
      let (states, s) ← (first :: rest).zipIdx.foldlM (normalize check haltCheckEvery rHi) ([], s)
      require (∀ state ∈ states, rHi ≤ state.remaining) .debugAssertion
      return (fromRemaining rHi, s)
    else return (fromRemaining rLo, s)

end HaltState

/-! ## Block halters -/

/-- The two implementations of `BlockHalter` (lines 284–388). -/
inductive BlockHalter
  | cyclic (haltCheckEvery : Option NonZeroUsize) (stateInRemaining : NonZeroUsize)
  | acyclic (state : HaltState)

namespace BlockHalter

/-- `BlockHalter::process_safepoint` (lines 338–341 and 362–383). -/
def processSafepoint (haltCheckEvery : NonZeroUsize) (safepoint : Stmt) :
    BlockHalter → Except Panic (Bool × BlockHalter)
  | cyclic _ stateInRemaining => .ok (true, cyclic (some haltCheckEvery) stateInRemaining)
  | acyclic state => do
    match NonZeroUsize.new (← strictSub state.remaining 1) with
    | none => return (true, acyclic ⟨haltCheckEvery, []⟩)
    | some newRemaining => do
      let suffix := state.suffixSafepoints ++ [safepoint]
      if haltCheckEvery.val < suffix.length then do
        require (suffix ≠ []) .debugAssertion
        return (false, acyclic ⟨newRemaining, suffix.tail⟩)
      else return (false, acyclic ⟨newRemaining, suffix⟩)

/-- `BlockHalter::take_current_state` (lines 343–350 and 385–387). -/
def takeCurrentState : BlockHalter → HaltState × BlockHalter
  | cyclic haltCheckEvery stateInRemaining =>
    (.fromRemaining (haltCheckEvery.getD stateInRemaining), cyclic none stateInRemaining)
  | acyclic state => (state, acyclic state)

/-- The loop over the statements of a block (lines 299–307): the index of the first
    safepoint that a halt check is due after. -/
def scan (ir : ExecIrBuilder) (haltCheckEvery : NonZeroUsize) :
    List Stmt → ℕ → BlockHalter → Except Panic (Option ℕ × BlockHalter)
  | [], _, halter => .ok (none, halter)
  | stmt :: stmts, i, halter => do
    if ← stmtIsSafepoint ir stmt then do
      let (shouldHalt, halter) ← halter.processSafepoint haltCheckEvery stmt
      if shouldHalt then return (some i, halter) else scan ir haltCheckEvery stmts (i + 1) halter
    else scan ir haltCheckEvery stmts (i + 1) halter

variable (check : HaltCheckInserter → Except Panic Unit)

/-- The loop of `BlockHalter::process_block` (lines 295–314). Every round but the last
    one leaves a shorter block, so the number of statements bounds the rounds. -/
def breakDownLoop (haltCheckEvery : NonZeroUsize) :
    ℕ → BlockHalter → HaltCheckInserter → Block →
      Except Panic (Block × BlockHalter × HaltCheckInserter)
  | 0, _, _, _ => .error .outOfFuel
  | fuel + 1, halter, s, block => do
    let data ← arenaGet s.ir.blocks block
    let (split, halter) ← scan s.ir haltCheckEvery data.stmts 0 halter
    match split with
    | none => return (block, halter, s)
    | some pos => do
      let (block, s) ← s.insertHaltCheckAfterSafepointIndexed check block pos
      breakDownLoop haltCheckEvery fuel halter s block

/-- `BlockHalter::process_block` (lines 289–319). -/
def processBlock (haltCheckEvery : NonZeroUsize) (halter : BlockHalter) (s : HaltCheckInserter)
    (block : Block) : Except Panic (Block × HaltState × BlockHalter × HaltCheckInserter) := do
  let data ← arenaGet s.ir.blocks block
  let (last, halter, s) ← breakDownLoop check haltCheckEvery (data.stmts.length + 1) halter s block
  let (stateAfterBlock, halter) := halter.takeCurrentState
  return (last, stateAfterBlock, halter, s)

end BlockHalter

/-! ## The pass -/

section Pass

variable (check : HaltCheckInserter → Except Panic Unit) (order : Block → Finset Block → List Block)

/-- Draining one edge into `block`; `acc` has the states drained so far. -/
def drainEdge (block : Block) (acc : List HaltState × HaltCheckInserter) (src : Block) :
    Except Panic (List HaltState × HaltCheckInserter) := do
  let (state, map) ← acc.2.map.drainNext block src
  let s := { acc.2 with map }
  check s
  return (acc.1 ++ [state], s)

/-- `HaltStateMap::drain_incoming` (lines 123–138). -/
def drainIncoming (acc : List HaltState × HaltCheckInserter) (block : Block) :
    Except Panic (List HaltState × HaltCheckInserter) :=
  match acc.2.map.incomingEdges block with
  | none => .ok acc
  | some set => (order block set).foldlM (drainEdge check block) acc

/-- The condition under which a successor is skipped (lines 875–877). -/
def staysInside (g : SccGraph) (componentId : ℕ) (successor : Block) : Except Panic Bool :=
  if g.componentIsCyclic componentId then do
    let component ← mapGet g.componentOf successor
    return component = componentId
  else .ok false

/-- The body of the loop over the successors of a processed block (lines 874–884). -/
def addSuccessorEdge (g : SccGraph) (componentId : ℕ) (lastBlock : Block) (stateOut : HaltState)
    (s : HaltCheckInserter) (successor : Block) : Except Panic HaltCheckInserter := do
  if ← staysInside g componentId successor then return s
  else do
    let (old, map) := s.map.addEdge lastBlock successor stateOut
    require (old.isNone = true) .edgeReplaced
    let s := { s with map }
    check s
    return s

/-- The body of the loop over the blocks of a component (lines 870–885). -/
def processComponentBlock (g : SccGraph) (haltCheckEvery : NonZeroUsize) (componentId : ℕ)
    (acc : BlockHalter × HaltCheckInserter) (block : Block) :
    Except Panic (BlockHalter × HaltCheckInserter) := do
  let (lastBlock, stateOut, halter, s) ← acc.1.processBlock check haltCheckEvery acc.2 block
  let successors ← s.ir.successors lastBlock
  let s ← successors.foldlM (addSuccessorEdge check g componentId lastBlock stateOut) s
  return (halter, s)

/-- The body of the loop over the components (lines 843–886). -/
def processComponent (g : SccGraph) (haltCheckEvery : NonZeroUsize) (s : HaltCheckInserter)
    (componentId : ℕ) : Except Panic HaltCheckInserter := do
  let component ← arenaGet g.components componentId
  let (incoming, s) ← component.foldlM (drainIncoming check order) ([], s)
  let (stateIn, s) ← HaltState.mergeHaltStates check s haltCheckEvery incoming
  let isCyclic := g.componentIsCyclic componentId
  let halter := if isCyclic then .cyclic none stateIn.remaining else .acyclic stateIn
  require (isCyclic = true ∨ component.length = 1) .debugAssertion
  let (_, s) ← component.foldlM
    (processComponentBlock check g haltCheckEvery componentId) (halter, s)
  return s

/-- `halt_check_every` as a `NonZero<usize>` (lines 835–837). -/
def haltCheckEveryOf (ir : ExecIrBuilder) : NonZeroUsize :=
  ⟨ir.haltCheckEvery.val, ir.haltCheckEvery.pos⟩

/-- `insert_halt_checks` (lines 834–886), with an assertion `check` about the inserter
    after every update. -/
def insertHaltChecksWith (ir : ExecIrBuilder) : Except Panic ExecIrBuilder := do
  let g ← SccGraph.new ir
  let s ← HaltCheckInserter.new ir
  check s
  let s ← g.topoOrder.foldlM (processComponent check order g (haltCheckEveryOf ir)) s
  return s.ir

/-- `insert_halt_checks` (lines 834–886). -/
def insertHaltChecks (ir : ExecIrBuilder) : Except Panic ExecIrBuilder :=
  insertHaltChecksWith (fun _ => .ok ()) order ir

end Pass

end RapidArm.HaltCheck
