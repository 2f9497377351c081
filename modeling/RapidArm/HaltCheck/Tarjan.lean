import RapidArm.Ir.Builder
import Mathlib.Logic.Relation
import Mathlib.Data.Finset.Card
import Mathlib.Data.Finset.Range
import Mathlib.Order.Interval.Finset.Nat

/-!
# Strongly connected components

The model of `Tarjan` and `strongly_connected_components` of
`jit-compiler-core/src/ir/halt_check_pass.rs` (lines 586–701), over the blocks of a
builder or over a set `allowed` of them. Arena maps and sets are functions. The
recursion of `strong_connect` carries a bound on its depth; the number of blocks
always suffices.

Results:
* `strongConnect_spec`: what the visit of one block does. The blocks it leaves on the
  stack reach a block that was there before, and have no edge below its low link.
* `components_spec`: the components are a partition of the allowed blocks into the
  classes of mutual reachability, for every well-formed builder.
-/

namespace RapidArm.HaltCheck

open RapidArm.Ir RapidArm.Lib Relation

/-! ## The algorithm -/

/-- Indexing an `ArenaMap` panics on a key without a value. -/
def mapGet {α : Type} (m : ℕ → Option α) (key : ℕ) : Except Panic α :=
  match m key with
  | some value => .ok value
  | none => .error .keyNotFound

theorem mapGet_eq {α : Type} {m : ℕ → Option α} {key : ℕ} {value : α} (h : m key = some value) :
    mapGet m key = .ok value := by
  unfold mapGet
  rw [h]

/-- `Tarjan`: the part that changes. The top of the stack comes first. -/
structure Tarjan where
  nextIndex : ℕ
  index : Block → Option ℕ
  lowLink : Block → Option ℕ
  stack : List Block
  onStack : Block → Bool
  components : List (List Block)

namespace Tarjan

/-- The state before the first visit. -/
def init : Tarjan where
  nextIndex := 0
  index := fun _ => none
  lowLink := fun _ => none
  stack := []
  onStack := fun _ => false
  components := []

/-- The start of `strong_connect_inner` (lines 622–627). -/
def visit (s : Tarjan) (block : Block) : Tarjan :=
  { s with
    index := Function.update s.index block (some s.nextIndex)
    lowLink := Function.update s.lowLink block (some s.nextIndex)
    nextIndex := s.nextIndex + 1
    stack := block :: s.stack
    onStack := Function.update s.onStack block true }

/-- A new low link. -/
def setLowLink (s : Tarjan) (block : Block) (low : ℕ) : Tarjan :=
  { s with lowLink := Function.update s.lowLink block (some low) }

/-- The loop that pops a component (lines 653–661); `component` is what was popped. -/
def popComponent (block : Block) : List Block → (Block → Bool) → List Block →
    Except Panic (List Block × (Block → Bool) × List Block)
  | [], _, _ => .error .emptyStack
  | member :: stack, onStack, component =>
    let onStack := Function.update onStack member false
    if member = block then .ok (stack, onStack, component ++ [member])
    else popComponent block stack onStack (component ++ [member])

/-- The end of `strong_connect_inner` (lines 650–664). -/
def finish (block : Block) (s : Tarjan) : Except Panic Tarjan := do
  let low ← mapGet s.lowLink block
  let index ← mapGet s.index block
  if low = index then do
    let (stack, onStack, component) ← popComponent block s.stack s.onStack []
    return { s with stack, onStack, components := s.components ++ [component] }
  else return s

section Search

variable (ir : ExecIrBuilder) (allowed : Block → Bool)

/-- The body of the loop over the successors (lines 629–648). -/
def scanSucc (strongConnect : Block → Tarjan → Except Panic Tarjan) (block : Block) (s : Tarjan)
    (succ : Block) : Except Panic Tarjan :=
  if allowed succ = false then .ok s
  else
    match s.index succ with
    | none => do
      let s ← strongConnect succ s
      let blockLowLink ← mapGet s.lowLink block
      let succLowLink ← mapGet s.lowLink succ
      return s.setLowLink block (min blockLowLink succLowLink)
    | some succIndex =>
      if s.onStack succ then do
        let blockLowLink ← mapGet s.lowLink block
        return s.setLowLink block (min blockLowLink succIndex)
      else .ok s

/-- `Tarjan::strong_connect` (lines 610–665). -/
def strongConnect : ℕ → Block → Tarjan → Except Panic Tarjan
  | 0, _, _ => .error .outOfFuel
  | depth + 1, block, s => do
    let succs ← ir.successors block
    let s ← succs.foldlM (scanSucc allowed (strongConnect depth) block) (s.visit block)
    finish block s

/-- The body of the loop of `Tarjan::run`. -/
def runBlock (s : Tarjan) (block : Block) : Except Panic Tarjan :=
  if allowed block = false then .ok s
  else
    match s.index block with
    | none => strongConnect ir allowed ir.blocks.length block s
    | some _ => .ok s

end Search

end Tarjan

/-- `strongly_connected_components` (lines 682–701): `Tarjan::run` over all blocks. -/
def stronglyConnectedComponents (ir : ExecIrBuilder) (allowed : Block → Bool) :
    Except Panic (List (List Block)) := do
  let s ← (List.range ir.blocks.length).foldlM (Tarjan.runBlock ir allowed) Tarjan.init
  return s.components

/-! ## Reachability -/

/-- An edge between allowed blocks. -/
def Edge (ir : ExecIrBuilder) (allowed : Block → Bool) (u v : Block) : Prop :=
  allowed u = true ∧ v ∈ ir.succs u ∧ allowed v = true

/-- Reachability along edges between allowed blocks. -/
abbrev Reach (ir : ExecIrBuilder) (allowed : Block → Bool) := ReflTransGen (Edge ir allowed)

/-- A set of blocks that no edge leaves. -/
def Closed (ir : ExecIrBuilder) (allowed : Block → Bool) (l : List Block) : Prop :=
  ∀ x ∈ l, ∀ y, Edge ir allowed x y → y ∈ l

theorem Closed.reach {ir : ExecIrBuilder} {allowed : Block → Bool} {l : List Block}
    (h : Closed ir allowed l) {x y : Block} (hxy : Reach ir allowed x y) (hx : x ∈ l) : y ∈ l := by
  induction hxy with
  | refl => exact hx
  | tail _ hedge ih => exact h _ ih _ hedge

theorem blockD_eq {ir : ExecIrBuilder} {block : Block} {data : BlockData}
    (h : ir.blocks[block]? = some data) : ir.blockD block = data := by
  simp [ExecIrBuilder.blockD, List.getD_eq_getElem?_getD, h]

theorem successors_eq {ir : ExecIrBuilder} {block : Block} (h : block < ir.blocks.length) :
    ir.successors block = .ok (ir.succs block) := by
  have hget : ir.blocks[block]? = some ir.blocks[block] := List.getElem?_eq_getElem h
  unfold ExecIrBuilder.successors ExecIrBuilder.succs arenaGet
  rw [blockD_eq hget, hget]
  rfl

/-- Successors exist in a well-formed builder. -/
theorem succs_lt {ir : ExecIrBuilder} (hwf : WF ir) {u v : Block} (h : v ∈ ir.succs u) :
    v ≠ Block.ENTRYPOINT ∧ u < ir.blocks.length ∧ v < ir.blocks.length := by
  have hu : u < ir.blocks.length := by
    by_contra hge
    have hnone : ir.blocks[u]? = none := List.getElem?_eq_none (Nat.le_of_not_lt hge)
    simp [ExecIrBuilder.succs, ExecIrBuilder.blockD, List.getD_eq_getElem?_getD, hnone,
      BlockData.empty, Terminator.blockTargets, Terminator.targets] at h
  have hget : ir.blocks[u]? = some ir.blocks[u] := List.getElem?_eq_getElem hu
  unfold ExecIrBuilder.succs at h
  rw [blockD_eq hget] at h
  have hdata := (hwf.blocks _ (List.mem_of_getElem? hget)).targets v h
  exact ⟨hdata.1, hu, hdata.2⟩

namespace Tarjan

/-! ## The invariant -/

/-- A block that was visited. -/
def Visited (s : Tarjan) (x : Block) : Prop := (s.index x).isSome = true

/-- The index of a visited block. -/
def idx (s : Tarjan) (x : Block) : ℕ := (s.index x).getD 0

theorem idx_eq {s : Tarjan} {x : Block} {i : ℕ} (h : s.index x = some i) : s.idx x = i := by
  simp [idx, h]

theorem Visited.index {s : Tarjan} {x : Block} (h : s.Visited x) : s.index x = some (s.idx x) := by
  unfold Visited at h
  unfold idx
  cases hx : s.index x with
  | none =>
    rw [hx] at h
    cases h
  | some i => rfl

theorem visited_of {s : Tarjan} {x : Block} {i : ℕ} (h : s.index x = some i) : s.Visited x := by
  simp [Visited, h]

section Correct

variable (ir : ExecIrBuilder) (allowed : Block → Bool)

/-- The visited blocks are on the stack, in the order of their visits, or in a component
    that was completed: the components are closed and mutually reachable. -/
structure Inv (s : Tarjan) : Prop where
  onStack : ∀ x, s.onStack x = true ↔ x ∈ s.stack
  visited : ∀ x, s.Visited x ↔ x ∈ s.stack ∨ x ∈ s.components.flatten
  lt : ∀ x, s.Visited x → s.idx x < s.nextIndex
  sorted : s.stack.Pairwise fun a b => s.idx b < s.idx a
  nodup : s.components.flatten.Nodup
  disjoint : ∀ x ∈ s.stack, x ∉ s.components.flatten
  valid : ∀ x, s.Visited x → x < ir.blocks.length ∧ allowed x = true
  closed : ∀ l, l <+: s.components → Closed ir allowed l.flatten
  linked : ∀ c ∈ s.components, ∀ x ∈ c, ∀ y ∈ c, Reach ir allowed x y
  nonempty : [] ∉ s.components

/-- What a search leaves alone: blocks that were visited before, and completed
    components. -/
structure Kept (s s' : Tarjan) : Prop where
  index : ∀ x, s.Visited x → s'.index x = s.index x
  lowLink : ∀ x, s.Visited x → s'.lowLink x = s.lowLink x
  components : s.components <+: s'.components
  next : s.nextIndex ≤ s'.nextIndex

theorem Kept.refl (s : Tarjan) : Kept s s :=
  ⟨fun _ _ => rfl, fun _ _ => rfl, List.prefix_refl _, le_refl _⟩

theorem Kept.visited {s s' : Tarjan} (h : Kept s s') {x : Block} (hx : s.Visited x) :
    s'.Visited x := by
  unfold Visited
  rw [h.index x hx]
  exact hx

theorem Kept.idx {s s' : Tarjan} (h : Kept s s') {x : Block} (hx : s.Visited x) :
    s'.idx x = s.idx x := by
  unfold Tarjan.idx
  rw [h.index x hx]

theorem Kept.trans {s₁ s₂ s₃ : Tarjan} (h₁ : Kept s₁ s₂) (h₂ : Kept s₂ s₃) : Kept s₁ s₃ where
  index x hx := (h₂.index x (h₁.visited hx)).trans (h₁.index x hx)
  lowLink x hx := (h₂.lowLink x (h₁.visited hx)).trans (h₁.lowLink x hx)
  components := h₁.components.trans h₂.components
  next := h₁.next.trans h₂.next

/-- The edges of the blocks `seg` lead to visited blocks, on the stack to none below
    `low`; and each of them reaches a block below it on the stack. -/
structure Explored (s : Tarjan) (low : ℕ) (seg : List Block) : Prop where
  edges : ∀ x ∈ seg, ∀ y, Edge ir allowed x y → s.Visited y ∧ (y ∈ s.stack → low ≤ s.idx y)
  back : ∀ x ∈ seg, ∃ w ∈ s.stack, s.idx w < s.idx x ∧ Reach ir allowed x w

/-- The search of `v` from `s₀` on, with the part `seg` of the stack above `v`. -/
structure Frame (s₀ : Tarjan) (v : Block) (low : ℕ) (seg : List Block) (s : Tarjan) : Prop where
  inv : Inv ir allowed s
  kept : Kept s₀ s
  stack : s.stack = seg ++ v :: s₀.stack
  index : s.index v = some s₀.nextIndex
  lowLink : s.lowLink v = some low
  new : ∀ x, s.Visited x → ¬ s₀.Visited x → Reach ir allowed v x ∧ s₀.nextIndex ≤ s.idx x
  low_mem : ∃ w ∈ v :: s₀.stack, s.idx w = low ∧ Reach ir allowed v w
  explored : Explored ir allowed s low seg

/-- A successor was scanned. -/
def Scanned (s : Tarjan) (low : ℕ) (y : Block) : Prop :=
  allowed y = true → s.Visited y ∧ (y ∈ s.stack → low ≤ s.idx y)

/-- The visit of `v` from `s₀` on is done: `v` was popped with its component, or it is
    still on the stack and reaches a block that was there before. -/
structure Done (s₀ : Tarjan) (v : Block) (s : Tarjan) : Prop where
  inv : Inv ir allowed s
  kept : Kept s₀ s
  index : s.index v = some s₀.nextIndex
  new : ∀ x, s.Visited x → ¬ s₀.Visited x → Reach ir allowed v x ∧ s₀.nextIndex ≤ s.idx x
  result : (s.stack = s₀.stack ∧ s.lowLink v = some s₀.nextIndex) ∨
    ∃ seg low, v ∈ seg ∧ s.stack = seg ++ s₀.stack ∧ s.lowLink v = some low ∧
      low < s₀.nextIndex ∧ (∃ w ∈ s₀.stack, s.idx w = low ∧ Reach ir allowed v w) ∧
      Explored ir allowed s low seg

variable {ir allowed}

theorem Inv.mem_stack {s : Tarjan} (h : Inv ir allowed s) {x : Block} (hx : x ∈ s.stack) :
    s.Visited x := (h.visited x).2 (.inl hx)

/-! ### Starting a visit -/

theorem visit_idx (s : Tarjan) (v : Block) : (s.visit v).idx v = s.nextIndex :=
  idx_eq (Function.update_self ..)

theorem visit_index_ne {s : Tarjan} {v x : Block} (h : x ≠ v) :
    (s.visit v).index x = s.index x := Function.update_of_ne h ..

theorem visit_visited {s : Tarjan} {v x : Block} : (s.visit v).Visited x ↔ x = v ∨ s.Visited x := by
  by_cases h : x = v
  · subst h
    simp [Visited, visit]
  · unfold Visited
    rw [visit_index_ne h]
    simp [h]

theorem frame_visit {s : Tarjan} (hs : Inv ir allowed s) {v : Block} (hv : ¬ s.Visited v)
    (hlt : v < ir.blocks.length) (hallowed : allowed v = true) :
    Frame ir allowed s v s.nextIndex [] (s.visit v) := by
  have hne : ∀ x, s.Visited x → x ≠ v := fun x hx heq => hv (heq ▸ hx)
  have hkept : Kept s (s.visit v) := by
    refine ⟨fun x hx => visit_index_ne (hne x hx), fun x hx => ?_, List.prefix_refl _,
      Nat.le_succ _⟩
    exact Function.update_of_ne (hne x hx) ..
  refine ⟨?_, hkept, rfl, Function.update_self .., Function.update_self .., ?_, ?_, ?_⟩
  · constructor
    · intro x
      by_cases hx : x = v
      · subst hx
        simp [visit]
      · simp [visit, hx, hs.onStack]
    · intro x
      rw [visit_visited, hs.visited]
      simp [visit, or_assoc]
    · intro x hx
      rcases visit_visited.1 hx with rfl | hx
      · rw [visit_idx]
        exact Nat.lt_succ_self _
      · rw [hkept.idx hx]
        exact Nat.lt_succ_of_lt (hs.lt x hx)
    · refine List.pairwise_cons.2 ⟨fun x hx => ?_, hs.sorted.imp_of_mem fun ha hb hab => ?_⟩
      · have hvis := hs.mem_stack hx
        rw [visit_idx, hkept.idx hvis]
        exact hs.lt x hvis
      · rw [hkept.idx (hs.mem_stack ha), hkept.idx (hs.mem_stack hb)]
        exact hab
    · exact hs.nodup
    · intro x hx
      rcases List.mem_cons.1 hx with rfl | hx
      · exact fun hmem => hv ((hs.visited x).2 (.inr hmem))
      · exact hs.disjoint x hx
    · intro x hx
      rcases visit_visited.1 hx with rfl | hx
      · exact ⟨hlt, hallowed⟩
      · exact hs.valid x hx
    · exact hs.closed
    · exact hs.linked
    · exact hs.nonempty
  · intro x hx hnew
    rcases visit_visited.1 hx with rfl | hx
    · exact ⟨ReflTransGen.refl, (visit_idx s x).ge⟩
    · exact (hnew hx).elim
  · exact ⟨v, List.mem_cons_self, visit_idx s v, ReflTransGen.refl⟩
  · exact ⟨by simp, by simp⟩

/-! ### Scanning the successors -/

/-- Later states know the visited blocks as before. -/
structure Extends (s s' : Tarjan) : Prop where
  visited : ∀ z, s.Visited z → s'.Visited z
  idx : ∀ z, s.Visited z → s'.idx z = s.idx z
  stack : ∀ z, s.Visited z → (z ∈ s'.stack ↔ z ∈ s.stack)

theorem Extends.refl (s : Tarjan) : Extends s s :=
  ⟨fun _ h => h, fun _ _ => rfl, fun _ _ => Iff.rfl⟩

theorem Extends.scanned {s s' : Tarjan} (h : Extends s s') {low low' : ℕ} (hlow : low' ≤ low)
    {y : Block} (hy : Scanned allowed s low y) : Scanned allowed s' low' y := by
  intro hallowed
  obtain ⟨hvis, hle⟩ := hy hallowed
  refine ⟨h.visited y hvis, fun hmem => ?_⟩
  rw [h.idx y hvis]
  exact hlow.trans (hle ((h.stack y hvis).1 hmem))

theorem Extends.explored {s s' : Tarjan} (h : Extends s s') (hs : Inv ir allowed s) {low low' : ℕ}
    (hlow : low' ≤ low) {seg : List Block} (hseg : ∀ x ∈ seg, s.Visited x)
    (hx : Explored ir allowed s low seg) : Explored ir allowed s' low' seg := by
  constructor
  · intro x hmem y hedge
    obtain ⟨hvis, hle⟩ := hx.edges x hmem y hedge
    exact h.scanned hlow (fun _ => ⟨hvis, hle⟩) hedge.2.2
  · intro x hmem
    obtain ⟨w, hw, hlt, hreach⟩ := hx.back x hmem
    have hvis := hs.mem_stack hw
    refine ⟨w, (h.stack w hvis).2 hw, ?_, hreach⟩
    rw [h.idx w hvis, h.idx x (hseg x hmem)]
    exact hlt

theorem Explored.append {s : Tarjan} {low : ℕ} {seg seg' : List Block}
    (h : Explored ir allowed s low seg) (h' : Explored ir allowed s low seg') :
    Explored ir allowed s low (seg ++ seg') := by
  constructor
  · intro x hx
    rcases List.mem_append.1 hx with hx | hx
    · exact h.edges x hx
    · exact h'.edges x hx
  · intro x hx
    rcases List.mem_append.1 hx with hx | hx
    · exact h.back x hx
    · exact h'.back x hx

/-- The blocks of a part of the stack above an older stack are new. -/
theorem Inv.seg_new {s₀ s : Tarjan} (hs₀ : Inv ir allowed s₀) (hs : Inv ir allowed s)
    (hkept : Kept s₀ s) {seg : List Block} (hstack : s.stack = seg ++ s₀.stack) {x : Block}
    (hx : x ∈ seg) : ¬ s₀.Visited x := by
  intro hvis
  have hmem : x ∈ s.stack := by
    rw [hstack]
    exact List.mem_append_left _ hx
  rcases (hs₀.visited x).1 hvis with hold | hold
  · have hsorted := hs.sorted
    rw [hstack, List.pairwise_append] at hsorted
    exact absurd (hsorted.2.2 x hx x hold) (Nat.lt_irrefl _)
  · refine hs.disjoint x hmem ?_
    obtain ⟨rest, hrest⟩ := hkept.components
    rw [← hrest, List.flatten_append]
    exact List.mem_append_left _ hold

theorem extends_of_seg {s₀ s : Tarjan} (hs₀ : Inv ir allowed s₀) (hs : Inv ir allowed s)
    (hkept : Kept s₀ s) {seg : List Block} (hstack : s.stack = seg ++ s₀.stack) : Extends s₀ s where
  visited _ hz := hkept.visited hz
  idx _ hz := hkept.idx hz
  stack z hz := by
    rw [hstack, List.mem_append]
    constructor
    · rintro (hmem | hmem)
      · exact (hs₀.seg_new hs hkept hstack hmem hz).elim
      · exact hmem
    · exact .inr

theorem Inv.setLowLink {s : Tarjan} (h : Inv ir allowed s) (v : Block) (low : ℕ) :
    Inv ir allowed (s.setLowLink v low) :=
  ⟨h.onStack, h.visited, h.lt, h.sorted, h.nodup, h.disjoint, h.valid, h.closed,
    h.linked, h.nonempty⟩

theorem extends_setLowLink (s : Tarjan) (v : Block) (low : ℕ) : Extends s (s.setLowLink v low) :=
  ⟨fun _ h => h, fun _ _ => rfl, fun _ _ => Iff.rfl⟩

section Frames

variable {s₀ s : Tarjan} {v : Block} {low : ℕ} {seg : List Block}

theorem Frame.visited (h : Frame ir allowed s₀ v low seg s) : s.Visited v := visited_of h.index

theorem Frame.idx_v (h : Frame ir allowed s₀ v low seg s) : s.idx v = s₀.nextIndex := idx_eq h.index

/-- The block of the frame and what is above it is at least as new as it. -/
theorem Frame.le_idx (h : Frame ir allowed s₀ v low seg s) {x : Block} (hx : x ∈ seg) :
    s₀.nextIndex < s.idx x := by
  have hsorted := h.inv.sorted
  rw [h.stack, List.pairwise_append] at hsorted
  have := hsorted.2.2 x hx v List.mem_cons_self
  rw [h.idx_v] at this
  exact this

theorem Frame.low_le (h : Frame ir allowed s₀ v low seg s) (hs₀ : Inv ir allowed s₀) :
    low ≤ s₀.nextIndex := by
  obtain ⟨w, hw, rfl, -⟩ := h.low_mem
  rcases List.mem_cons.1 hw with rfl | hw
  · exact h.idx_v.le
  · have hvis := hs₀.mem_stack hw
    rw [h.kept.idx hvis]
    exact (hs₀.lt w hvis).le

/-- A lower low link of the frame. -/
theorem Frame.setLow (h : Frame ir allowed s₀ v low seg s) (hv : ¬ s₀.Visited v) {low' : ℕ}
    (hle : low' ≤ low) (hmem : ∃ w ∈ v :: s₀.stack, s.idx w = low' ∧ Reach ir allowed v w) :
    Frame ir allowed s₀ v low' seg (s.setLowLink v low') where
  inv := h.inv.setLowLink v low'
  kept :=
    { index := h.kept.index
      lowLink := fun x hx => by
        have hne : x ≠ v := fun heq => hv (heq ▸ hx)
        exact (Function.update_of_ne hne ..).trans (h.kept.lowLink x hx)
      components := h.kept.components
      next := h.kept.next }
  stack := h.stack
  index := h.index
  lowLink := Function.update_self ..
  new := h.new
  low_mem := hmem
  explored := by
    refine (extends_setLowLink s v low').explored h.inv hle (fun x hx =>
      h.inv.mem_stack ?_) h.explored
    rw [h.stack]
    exact List.mem_append_left _ hx

/-- A visited block on the stack below the frame's index is below the frame. -/
theorem Frame.mem_below (h : Frame ir allowed s₀ v low seg s) {w : Block} (hw : w ∈ s.stack)
    (hlt : s.idx w ≤ s₀.nextIndex) : w ∈ v :: s₀.stack := by
  rw [h.stack] at hw
  rcases List.mem_append.1 hw with hw | hw
  · exact absurd (h.le_idx hw) (Nat.not_lt.2 hlt)
  · exact hw

/-- After the visit of a successor, the frame goes on with what the visit left on the
    stack. -/
theorem Frame.child (h : Frame ir allowed s₀ v low seg s) (hs₀ : Inv ir allowed s₀)
    (hv : ¬ s₀.Visited v) {y : Block} (hedge : Edge ir allowed v y) {s' : Tarjan}
    (hdone : Done ir allowed s y s') :
    ∃ low' lowy seg', s'.lowLink v = some low ∧ s'.lowLink y = some lowy ∧ low' = min low lowy ∧
      Frame ir allowed s₀ v low' seg' (s'.setLowLink v low') ∧
      Scanned allowed (s'.setLowLink v low') low' y ∧ Extends s (s'.setLowLink v low') := by
  have hlowv : s'.lowLink v = some low := (hdone.kept.lowLink v h.visited).trans h.lowLink
  have hylow : low ≤ s.nextIndex := (h.low_le hs₀).trans h.kept.next
  have hidxy : s'.idx y = s.nextIndex := idx_eq hdone.index
  have hvisy : s'.Visited y := visited_of hdone.index
  -- a frame of the state after the visit, with the stack of the frame on `segy`
  have hframe : ∀ segy low', s'.stack = segy ++ s.stack → low' ≤ low →
      Explored ir allowed s' low' segy →
        (∃ w ∈ v :: s₀.stack, s'.idx w = low' ∧ Reach ir allowed v w) →
      Frame ir allowed s₀ v low' (segy ++ seg) (s'.setLowLink v low') := by
    intro segy low' hstack hle hexp hmem
    have hext := extends_of_seg h.inv hdone.inv hdone.kept hstack
    refine ⟨hdone.inv.setLowLink v low', ⟨?_, ?_, ?_, ?_⟩, ?_, ?_, Function.update_self ..,
      ?_, hmem, ?_⟩
    · exact (h.kept.trans hdone.kept).index
    · intro x hx
      have hne : x ≠ v := fun heq => hv (heq ▸ hx)
      exact (Function.update_of_ne hne ..).trans ((h.kept.trans hdone.kept).lowLink x hx)
    · exact (h.kept.trans hdone.kept).components
    · exact (h.kept.trans hdone.kept).next
    · show s'.stack = _
      rw [hstack, h.stack, List.append_assoc]
    · exact (hdone.kept.index v h.visited).trans h.index
    · intro x hx hnew
      by_cases hsx : s.Visited x
      · obtain ⟨hreach, hle'⟩ := h.new x hsx hnew
        exact ⟨hreach, (hdone.kept.idx hsx).symm ▸ hle'⟩
      · obtain ⟨hreach, hle'⟩ := hdone.new x hx hsx
        exact ⟨(ReflTransGen.single hedge).trans hreach, h.kept.next.trans hle'⟩
    · have hsegv : ∀ x ∈ seg, s.Visited x := fun x hx => h.inv.mem_stack (by
        rw [h.stack]
        exact List.mem_append_left _ hx)
      have hold := hext.explored h.inv hle hsegv h.explored
      refine (extends_setLowLink s' v low').explored hdone.inv le_rfl (fun x hx =>
        ?_) (hexp.append hold)
      rcases List.mem_append.1 hx with hx | hx
      · exact hdone.inv.mem_stack (by rw [hstack]; exact List.mem_append_left _ hx)
      · exact hdone.kept.visited (hsegv x hx)
  have hextends : ∀ segy low', s'.stack = segy ++ s.stack → Extends s (s'.setLowLink v low') := by
    intro segy low' hstack
    have hext := extends_of_seg h.inv hdone.inv hdone.kept hstack
    exact ⟨hext.visited, hext.idx, hext.stack⟩
  -- the old witness of the low link
  have holdmem : ∃ w ∈ v :: s₀.stack, s'.idx w = low ∧ Reach ir allowed v w := by
    obtain ⟨w, hw, hidx, hreach⟩ := h.low_mem
    refine ⟨w, hw, ?_, hreach⟩
    have hvis : s.Visited w := h.inv.mem_stack (by rw [h.stack]; exact List.mem_append_right _ hw)
    rw [hdone.kept.idx hvis]
    exact hidx
  rcases hdone.result with ⟨hstack, hlowy⟩ | ⟨segy, lowy, hyseg, hstack, hlowy, hlt, hw, hexp⟩
  · -- the successor was popped with its component
    have hmin : low = min low s.nextIndex := (min_eq_left hylow).symm
    refine ⟨low, s.nextIndex, [] ++ seg, hlowv, hlowy, hmin,
      hframe [] low hstack le_rfl ⟨by simp, by simp⟩ holdmem,
      fun _ => ⟨hvisy, fun hmem => ?_⟩, hextends [] low hstack⟩
    show low ≤ s'.idx y
    rw [hidxy]
    exact hylow
  · refine ⟨min low lowy, lowy, segy ++ seg, hlowv, hlowy, rfl, ?_, fun _ => ⟨hvisy, fun _ => ?_⟩,
      hextends segy _ hstack⟩
    · refine hframe segy _ hstack (min_le_left _ _) ⟨fun x hx z hz => ?_, hexp.back⟩ ?_
      · obtain ⟨hvis, hle⟩ := hexp.edges x hx z hz
        exact ⟨hvis, fun hmem => (min_le_right _ _).trans (hle hmem)⟩
      · rcases le_total low lowy with hle | hle
        · rw [min_eq_left hle]
          exact holdmem
        · rw [min_eq_right hle]
          obtain ⟨w, hwmem, hidx, hreach⟩ := hw
          have hvis := h.inv.mem_stack hwmem
          have hbelow : w ∈ v :: s₀.stack := h.mem_below hwmem (by
            rw [← hdone.kept.idx hvis, hidx]
            exact hle.trans (h.low_le hs₀))
          exact ⟨w, hbelow, hidx, (ReflTransGen.single hedge).trans hreach⟩
    · show min low lowy ≤ s'.idx y
      rw [hidxy]
      exact (min_le_right _ _).trans hlt.le

/-- The number of blocks still to be visited. -/
def unvisited (ir : ExecIrBuilder) (s : Tarjan) : ℕ :=
  ((Finset.range ir.blocks.length).filter fun x => (s.index x).isNone).card

theorem Extends.unvisited_le {s s' : Tarjan} (h : Extends s s') :
    s'.unvisited ir ≤ s.unvisited ir := by
  refine Finset.card_le_card fun x hx => ?_
  rw [Finset.mem_filter] at hx ⊢
  refine ⟨hx.1, ?_⟩
  by_contra hsome
  have hvis : s.Visited x := by
    unfold Visited
    cases hi : s.index x with
    | none =>
      rw [hi] at hsome
      exact (hsome rfl).elim
    | some i => rfl
  have hvis' := h.visited x hvis
  unfold Visited at hvis'
  cases hi : s'.index x with
  | none =>
    rw [hi] at hvis'
    cases hvis'
  | some i =>
    rw [hi] at hx
    cases hx.2

theorem unvisited_visit {s : Tarjan} {v : Block} (hv : ¬ s.Visited v) (hlt : v < ir.blocks.length) :
    (s.visit v).unvisited ir < s.unvisited ir := by
  have hnone : s.index v = none := by
    cases hi : s.index v with
    | none => rfl
    | some i => exact (hv (visited_of hi)).elim
  refine Finset.card_lt_card ((Finset.ssubset_iff_of_subset fun x hx => ?_).2 ⟨v, ?_, ?_⟩)
  · rw [Finset.mem_filter] at hx ⊢
    refine ⟨hx.1, ?_⟩
    have hne : x ≠ v := by
      rintro rfl
      simp [visit] at hx
    rw [visit_index_ne hne] at hx
    exact hx.2
  · simp [hlt, hnone]
  · simp [visit]

/-- What a search of depth `depth` is used for. -/
def Connects (ir : ExecIrBuilder) (allowed : Block → Bool) (depth : ℕ) : Prop :=
  ∀ (s : Tarjan) (v : Block), Inv ir allowed s → ¬ s.Visited v → v < ir.blocks.length →
    allowed v = true → s.unvisited ir ≤ depth →
    ∃ s', strongConnect ir allowed depth v s = .ok s' ∧ Done ir allowed s v s'

/-- One successor scanned. -/
theorem Frame.scanSucc (h : Frame ir allowed s₀ v low seg s) (hs₀ : Inv ir allowed s₀)
    (hv : ¬ s₀.Visited v) {depth : ℕ} (hconn : Connects ir allowed depth)
    (hdepth : s.unvisited ir ≤ depth) {y : Block} (hy : y < ir.blocks.length)
    (hedge : allowed y = true → Edge ir allowed v y) :
    ∃ low' seg' s', scanSucc allowed (strongConnect ir allowed depth) v s y = .ok s' ∧
      Frame ir allowed s₀ v low' seg' s' ∧ low' ≤ low ∧ Scanned allowed s' low' y ∧
      Extends s s' := by
  unfold Tarjan.scanSucc
  by_cases hallowed : allowed y = false
  · rw [if_pos hallowed]
    refine ⟨low, seg, s, rfl, h, le_rfl, fun ht => ?_, Extends.refl s⟩
    rw [hallowed] at ht
    cases ht
  · rw [if_neg hallowed]
    have hallowed : allowed y = true := by simpa using hallowed
    cases hi : s.index y with
    | none =>
      have hyvis : ¬ s.Visited y := by simp [Visited, hi]
      obtain ⟨s', hrun, hdone⟩ := hconn s y h.inv hyvis hy hallowed hdepth
      obtain ⟨low', lowy, seg', hlowv, hlowy, hmin, hframe, hscanned, hext⟩ :=
        h.child hs₀ hv (hedge hallowed) hdone
      refine ⟨low', seg', s'.setLowLink v low', ?_, hframe, hmin ▸ min_le_left _ _, hscanned, hext⟩
      refine bind_eq_ok.2 ⟨s', hrun, bind_eq_ok.2 ⟨low, mapGet_eq hlowv, ?_⟩⟩
      refine bind_eq_ok.2 ⟨lowy, mapGet_eq hlowy, ?_⟩
      rw [hmin]
      rfl
    | some i =>
      have hyvis := visited_of hi
      simp only
      by_cases hon : s.onStack y = true
      · have hmem := (h.inv.onStack y).1 hon
        rw [if_pos hon]
        refine ⟨min low i, seg, s.setLowLink v (min low i), ?_, ?_, min_le_left _ _,
          fun _ => ⟨hyvis, fun _ => ?_⟩, extends_setLowLink s v _⟩
        · exact bind_eq_ok.2 ⟨low, mapGet_eq h.lowLink, rfl⟩
        · refine h.setLow hv (min_le_left _ _) ?_
          rcases le_total low i with hle | hle
          · rw [min_eq_left hle]
            exact h.low_mem
          · rw [min_eq_right hle]
            refine ⟨y, h.mem_below hmem ?_, idx_eq hi, ReflTransGen.single (hedge hallowed)⟩
            rw [idx_eq hi]
            exact hle.trans (h.low_le hs₀)
        · show min low i ≤ s.idx y
          rw [idx_eq hi]
          exact min_le_right _ _
      · rw [if_neg hon]
        refine ⟨low, seg, s, rfl, h, le_rfl, fun _ => ⟨hyvis, fun hmem => ?_⟩, Extends.refl s⟩
        exact (hon ((h.inv.onStack y).2 hmem)).elim

/-- All successors scanned. -/
theorem Frame.scan (hs₀ : Inv ir allowed s₀) (hv : ¬ s₀.Visited v) {depth : ℕ}
    (hconn : Connects ir allowed depth) (succs : List Block)
    (hsuccs : ∀ y ∈ succs, y < ir.blocks.length ∧ (allowed y = true → Edge ir allowed v y))
    (done : List Block) (h : Frame ir allowed s₀ v low seg s) (hdepth : s.unvisited ir ≤ depth)
    (hdone : ∀ y ∈ done, Scanned allowed s low y) :
    ∃ low' seg' s', succs.foldlM (Tarjan.scanSucc allowed (strongConnect ir allowed depth) v) s =
      .ok s' ∧ Frame ir allowed s₀ v low' seg' s' ∧ ∀ y ∈ done ++ succs,
        Scanned allowed s' low' y := by
  induction succs generalizing s low seg done with
  | nil => exact ⟨low, seg, s, rfl, h, by simpa using hdone⟩
  | cons y succs ih =>
    obtain ⟨hy, hedge⟩ := hsuccs y List.mem_cons_self
    obtain ⟨low₁, seg₁, s₁, hrun, hframe, hle, hscanned, hext⟩ :=
      h.scanSucc hs₀ hv hconn hdepth hy hedge
    have hdone₁ : ∀ z ∈ done ++ [y], Scanned allowed s₁ low₁ z := by
      intro z hz
      rcases List.mem_append.1 hz with hz | hz
      · exact hext.scanned hle (hdone z hz)
      · rw [List.mem_singleton] at hz
        exact hz ▸ hscanned
    obtain ⟨low', seg', s', hrun', hframe', hdone'⟩ :=
      ih (fun z hz => hsuccs z (List.mem_cons_of_mem _ hz)) (done ++ [y]) hframe
        (hext.unvisited_le.trans hdepth) hdone₁
    refine ⟨low', seg', s', ?_, hframe', fun z hz => hdone' z (by simpa using hz)⟩
    rw [List.foldlM_cons, hrun]
    exact hrun'

/-! ### Completing a component -/

theorem popComponent_eq (v : Block) (seg : List Block) (hseg : v ∉ seg) (rest : List Block)
    (onStack : Block → Bool) (component : List Block) :
    ∃ onStack', popComponent v (seg ++ v :: rest) onStack component =
        .ok (rest, onStack', component ++ (seg ++ [v])) ∧
      ∀ x, onStack' x = if x ∈ seg ++ [v] then false else onStack x := by
  induction seg generalizing onStack component with
  | nil =>
    refine ⟨Function.update onStack v false, by simp [popComponent], fun x => ?_⟩
    by_cases hx : x = v
    · simp [hx]
    · simp [hx]
  | cons y seg ih =>
    have hy : y ≠ v := fun heq => hseg (heq ▸ List.mem_cons_self)
    obtain ⟨onStack', hrun, hon⟩ := ih (fun hmem => hseg (List.mem_cons_of_mem _ hmem))
      (Function.update onStack y false) (component ++ [y])
    refine ⟨onStack', ?_, fun x => ?_⟩
    · rw [List.cons_append, popComponent, if_neg hy, hrun]
      simp
    · rw [hon]
      by_cases hx : x = y
      · subst hx
        simp
      · simp [hx]

/-- Once all successors are scanned and the low link is the block's own index, what is on
    the stack from the block up is closed, together with the components. -/
theorem Frame.closed (h : Frame ir allowed s₀ v s₀.nextIndex seg s) (hs₀ : Inv ir allowed s₀)
    (hscanned : ∀ y ∈ ir.succs v, Scanned allowed s s₀.nextIndex y) :
    Closed ir allowed (s.components.flatten ++ (seg ++ [v])) := by
  -- a visited block that is not below the frame
  have habove : ∀ y, s.Visited y → (y ∈ s.stack → s₀.nextIndex ≤ s.idx y) →
      y ∈ s.components.flatten ++ (seg ++ [v]) := by
    intro y hvis hle
    rcases (h.inv.visited y).1 hvis with hmem | hmem
    · have hle := hle hmem
      rw [h.stack] at hmem
      rcases List.mem_append.1 hmem with hmem | hmem
      · simp [hmem]
      · rcases List.mem_cons.1 hmem with rfl | hmem
        · simp
        · have hvis₀ := hs₀.mem_stack hmem
          rw [h.kept.idx hvis₀] at hle
          exact absurd (hs₀.lt y hvis₀) (Nat.not_lt.2 hle)
    · exact List.mem_append_left _ hmem
  intro x hx y hedge
  rcases List.mem_append.1 hx with hx | hx
  · exact List.mem_append_left _ (h.inv.closed _ (List.prefix_refl _) x hx y hedge)
  · rcases List.mem_append.1 hx with hx | hx
    · obtain ⟨hvis, hle⟩ := h.explored.edges x hx y hedge
      exact habove y hvis hle
    · rw [List.mem_singleton] at hx
      subst hx
      obtain ⟨hvis, hle⟩ := hscanned y hedge.2.1 hedge.2.2
      exact habove y hvis hle

/-- Then every block above reaches the block. -/
theorem Frame.reach_v (h : Frame ir allowed s₀ v s₀.nextIndex seg s)
    (hclosed : Closed ir allowed (s.components.flatten ++ (seg ++ [v]))) :
    ∀ x ∈ seg, Reach ir allowed x v := by
  -- by induction on the index: each one reaches a lower one, which is above the block or it
  have hind : ∀ i x, x ∈ seg → s.idx x = i → Reach ir allowed x v := by
    intro i
    induction i using Nat.strong_induction_on with
    | _ i ih =>
      intro x hx hi
      obtain ⟨w, hw, hlt, hreach⟩ := h.explored.back x hx
      have hmem := hclosed.reach hreach (by simp [hx])
      rcases List.mem_append.1 hmem with hcomp | hmem
      · exact (h.inv.disjoint w hw hcomp).elim
      · rcases List.mem_append.1 hmem with hseg | hv
        · exact hreach.trans (ih (s.idx w) (hi ▸ hlt) w hseg rfl)
        · rw [List.mem_singleton] at hv
          exact hv ▸ hreach
  exact fun x hx => hind (s.idx x) x hx rfl

/-- A block whose low link is its index is popped with its component. -/
theorem Frame.pop (h : Frame ir allowed s₀ v s₀.nextIndex seg s) (hs₀ : Inv ir allowed s₀)
    (hscanned : ∀ y ∈ ir.succs v, Scanned allowed s s₀.nextIndex y) :
    ∃ s', finish v s = .ok s' ∧ Done ir allowed s₀ v s' := by
  have hclosed := h.closed hs₀ hscanned
  have hreach := h.reach_v hclosed
  have hvseg : v ∉ seg := fun hmem => by
    have := h.le_idx hmem
    rw [h.idx_v] at this
    exact Nat.lt_irrefl _ this
  obtain ⟨onStack', hpop, hon⟩ := popComponent_eq v seg hvseg s₀.stack s.onStack []
  rw [← h.stack, List.nil_append] at hpop
  have hrun : finish v s = .ok { s with
      stack := s₀.stack, onStack := onStack', components := s.components ++ [seg ++ [v]] } := by
    unfold finish
    refine bind_eq_ok.2 ⟨_, mapGet_eq h.lowLink, bind_eq_ok.2 ⟨_, mapGet_eq h.index, ?_⟩⟩
    rw [if_pos rfl]
    exact bind_eq_ok.2 ⟨_, hpop, rfl⟩
  have hmemseg : ∀ x ∈ seg ++ [v], x ∈ s.stack := by
    intro x hx
    rw [h.stack]
    rcases List.mem_append.1 hx with hx | hx
    · exact List.mem_append_left _ hx
    · rw [List.mem_singleton] at hx
      exact List.mem_append_right _ (hx ▸ List.mem_cons_self)
  -- the blocks popped are not below the frame
  have hnotbelow : ∀ x ∈ seg ++ [v], x ∉ s₀.stack := by
    intro x hx hmem
    have hsorted := h.inv.sorted
    rw [h.stack, List.append_cons, List.pairwise_append] at hsorted
    exact absurd (hsorted.2.2 x hx x hmem) (Nat.lt_irrefl _)
  have hflat : (s.components ++ [seg ++ [v]]).flatten = s.components.flatten ++ (seg ++ [v]) := by
    simp
  have hsortedseg : (seg ++ [v]).Pairwise fun a b => s.idx b < s.idx a := by
    have hsorted := h.inv.sorted
    rw [h.stack, List.append_cons, List.pairwise_append] at hsorted
    exact hsorted.1
  refine ⟨_, hrun, ?_, ?_, h.index, h.new, .inl ⟨rfl, h.lowLink⟩⟩
  · constructor
    · intro x
      show onStack' x = true ↔ x ∈ s₀.stack
      rw [hon]
      by_cases hx : x ∈ seg ++ [v]
      · rw [if_pos hx]
        exact ⟨fun hf => (by cases hf), fun hmem => (hnotbelow x hx hmem).elim⟩
      · rw [if_neg hx, h.inv.onStack, h.stack, List.append_cons, List.mem_append]
        exact ⟨fun hor => hor.resolve_left hx, .inr⟩
    · intro x
      show s.Visited x ↔ x ∈ s₀.stack ∨ x ∈ (s.components ++ [seg ++ [v]]).flatten
      rw [h.inv.visited, hflat, h.stack, List.append_cons]
      simp only [List.mem_append]
      tauto
    · exact h.inv.lt
    · have hsorted := h.inv.sorted
      rw [h.stack, List.append_cons, List.pairwise_append] at hsorted
      exact hsorted.2.1
    · show (s.components ++ [seg ++ [v]]).flatten.Nodup
      rw [hflat, List.nodup_append]
      refine ⟨h.inv.nodup, hsortedseg.imp fun hab heq => ?_, ?_⟩
      · subst heq
        exact Nat.lt_irrefl _ hab
      · rintro x hx y hy rfl
        exact h.inv.disjoint x (hmemseg x hy) hx
    · intro x hx
      show x ∉ (s.components ++ [seg ++ [v]]).flatten
      rw [hflat, List.mem_append]
      rintro (hmem | hmem)
      · have hstack : x ∈ s.stack := by
          rw [h.stack]
          exact List.mem_append_right _ (List.mem_cons_of_mem _ hx)
        exact h.inv.disjoint x hstack hmem
      · exact hnotbelow x hmem hx
    · exact h.inv.valid
    · intro l hl
      rcases List.prefix_concat_iff.1 hl with heq | hl
      · rw [heq, hflat]
        exact hclosed
      · exact h.inv.closed l hl
    · intro c hc x hx y hy
      rcases List.mem_append.1 hc with hc | hc
      · exact h.inv.linked c hc x hx y hy
      · rw [List.mem_singleton] at hc
        subst hc
        -- through the block: it is reached from above, and reaches what is new
        have hto : ∀ z ∈ seg ++ [v], Reach ir allowed z v := by
          intro z hz
          rcases List.mem_append.1 hz with hz | hz
          · exact hreach z hz
          · rw [List.mem_singleton] at hz
            exact hz ▸ ReflTransGen.refl
        have hfrom : ∀ z ∈ seg ++ [v], Reach ir allowed v z := by
          intro z hz
          have hnew : ¬ s₀.Visited z :=
            hs₀.seg_new h.inv h.kept (by rw [h.stack, List.append_cons]) hz
          exact (h.new z (h.inv.mem_stack (hmemseg z hz)) hnew).1
        exact (hto x hx).trans (hfrom y hy)
    · intro hmem
      rcases List.mem_append.1 hmem with hmem | hmem
      · exact h.inv.nonempty hmem
      · rw [List.mem_singleton] at hmem
        simp at hmem
  · exact ⟨h.kept.index, h.kept.lowLink, h.kept.components.trans (List.prefix_append _ _),
      h.kept.next⟩

theorem Frame.finish (h : Frame ir allowed s₀ v low seg s) (hs₀ : Inv ir allowed s₀)
    (hscanned : ∀ y ∈ ir.succs v, Scanned allowed s low y) :
    ∃ s', Tarjan.finish v s = .ok s' ∧ Done ir allowed s₀ v s' := by
  by_cases hlow : low = s₀.nextIndex
  · subst hlow
    exact h.pop hs₀ hscanned
  · have hlt : low < s₀.nextIndex := Nat.lt_of_le_of_ne (h.low_le hs₀) hlow
    refine ⟨s, ?_, h.inv, h.kept, h.index, h.new,
      .inr ⟨seg ++ [v], low, by simp, ?_, h.lowLink, hlt, ?_, ?_⟩⟩
    · unfold Tarjan.finish
      refine bind_eq_ok.2 ⟨_, mapGet_eq h.lowLink, bind_eq_ok.2 ⟨_, mapGet_eq h.index, ?_⟩⟩
      rw [if_neg hlow]
      rfl
    · rw [h.stack, List.append_cons]
    · obtain ⟨w, hw, hidx, hreach⟩ := h.low_mem
      rcases List.mem_cons.1 hw with rfl | hw
      · rw [h.idx_v] at hidx
        exact (hlow hidx.symm).elim
      · exact ⟨w, hw, hidx, hreach⟩
    · refine h.explored.append ⟨fun x hx y hedge => ?_, fun x hx => ?_⟩
      · rw [List.mem_singleton] at hx
        subst hx
        exact hscanned y hedge.2.1 hedge.2.2
      · rw [List.mem_singleton] at hx
        subst hx
        obtain ⟨w, hw, hidx, hreach⟩ := h.low_mem
        refine ⟨w, by rw [h.stack]; exact List.mem_append_right _ hw, ?_, hreach⟩
        rw [hidx, h.idx_v]
        exact hlt

end Frames

/-- The visit of a block. -/
theorem strongConnect_spec (hwf : WF ir) (depth : ℕ) : Connects ir allowed depth := by
  induction depth with
  | zero =>
    intro s v hs hv hlt hallowed hdepth
    exact absurd (unvisited_visit hv hlt) (by omega)
  | succ depth ih =>
    intro s v hs hv hlt hallowed hdepth
    have hframe := frame_visit hs hv hlt hallowed
    have hdepth' : (s.visit v).unvisited ir ≤ depth := by
      have := unvisited_visit hv hlt
      omega
    have hsuccs : ∀ y ∈ ir.succs v,
        y < ir.blocks.length ∧ (allowed y = true → Edge ir allowed v y) :=
      fun y hy => ⟨(succs_lt hwf hy).2.2, fun ha => ⟨hallowed, hy, ha⟩⟩
    obtain ⟨low, seg, s₁, hscan, hframe₁, hscanned⟩ := Frame.scan hs hv ih (ir.succs v) hsuccs []
      hframe hdepth' (by simp)
    obtain ⟨s', hfinish, hdone⟩ := hframe₁.finish hs (fun y hy => hscanned y (by simpa using hy))
    refine ⟨s', ?_, hdone⟩
    unfold strongConnect
    exact bind_eq_ok.2 ⟨_, successors_eq hlt, bind_eq_ok.2 ⟨s₁, hscan, hfinish⟩⟩

/-- One block of `Tarjan::run`, between whose visits the stack is empty. -/
theorem runBlock_spec (hwf : WF ir) {s : Tarjan} (hs : Inv ir allowed s) (hstack : s.stack = [])
    {v : Block} (hlt : v < ir.blocks.length) :
    ∃ s', runBlock ir allowed s v = .ok s' ∧ Inv ir allowed s' ∧ s'.stack = [] ∧ Kept s s' ∧
      (allowed v = true → s'.Visited v) := by
  unfold runBlock
  by_cases hallowed : allowed v = false
  · rw [if_pos hallowed]
    refine ⟨s, rfl, hs, hstack, Kept.refl s, fun ht => ?_⟩
    rw [hallowed] at ht
    cases ht
  · rw [if_neg hallowed]
    cases hi : s.index v with
    | some i => exact ⟨s, rfl, hs, hstack, Kept.refl s, fun _ => visited_of hi⟩
    | none =>
      have hv : ¬ s.Visited v := by simp [Visited, hi]
      have hdepth : s.unvisited ir ≤ ir.blocks.length :=
        (Finset.card_filter_le _ _).trans (Finset.card_range _).le
      obtain ⟨s', hrun, hdone⟩ :=
        strongConnect_spec hwf ir.blocks.length s v hs hv hlt (by simpa using hallowed) hdepth
      refine ⟨s', hrun, hdone.inv, ?_, hdone.kept, fun _ => visited_of hdone.index⟩
      rcases hdone.result with ⟨heq, -⟩ | ⟨seg, low, -, -, -, -, ⟨w, hw, -⟩, -⟩
      · rw [heq, hstack]
      · rw [hstack] at hw
        cases hw

theorem inv_init : Inv ir allowed Tarjan.init := by
  refine ⟨?_, ?_, ?_, List.Pairwise.nil, List.nodup_nil, ?_, ?_, ?_, ?_, ?_⟩
  · simp [Tarjan.init]
  · simp [Tarjan.init, Visited]
  · intro x hx
    cases hx
  · simp [Tarjan.init]
  · intro x hx
    cases hx
  · intro l hl x hx
    obtain rfl := List.prefix_nil.1 hl
    cases hx
  · simp [Tarjan.init]
  · simp [Tarjan.init]

theorem run_spec (hwf : WF ir) (blocks : List Block) (hblocks : ∀ v ∈ blocks, v < ir.blocks.length)
    {s : Tarjan} (hs : Inv ir allowed s) (hstack : s.stack = []) :
    ∃ s', blocks.foldlM (runBlock ir allowed) s = .ok s' ∧ Inv ir allowed s' ∧ s'.stack = [] ∧
      Kept s s' ∧ ∀ v ∈ blocks, allowed v = true → s'.Visited v := by
  induction blocks generalizing s with
  | nil => exact ⟨s, rfl, hs, hstack, Kept.refl s, by simp⟩
  | cons v blocks ih =>
    obtain ⟨s₁, hrun₁, hs₁, hstack₁, hkept₁, hv₁⟩ :=
      runBlock_spec hwf hs hstack (hblocks v List.mem_cons_self)
    obtain ⟨s', hrun, hs', hstack', hkept, hvisited⟩ :=
      ih (fun x hx => hblocks x (List.mem_cons_of_mem _ hx)) hs₁ hstack₁
    refine ⟨s', ?_, hs', hstack', hkept₁.trans hkept, fun x hx ha => ?_⟩
    · rw [List.foldlM_cons, hrun₁]
      exact hrun
    · rcases List.mem_cons.1 hx with rfl | hx
      · exact hkept.visited (hv₁ ha)
      · exact hvisited x hx ha

end Correct

end Tarjan

/-! ## The components -/

/-- The classes of mutual reachability of the allowed blocks. -/
structure IsComponents (ir : ExecIrBuilder) (allowed : Block → Bool)
    (components : List (List Block)) : Prop where
  nodup : components.flatten.Nodup
  mem : ∀ x, x ∈ components.flatten ↔ x < ir.blocks.length ∧ allowed x = true
  linked : ∀ c ∈ components, ∀ x ∈ c, ∀ y ∈ c, Reach ir allowed x y
  maximal : ∀ c ∈ components, ∀ x ∈ c, ∀ y, Reach ir allowed x y → Reach ir allowed y x → y ∈ c
  closed : ∀ l, l <+: components → Closed ir allowed l.flatten
  nonempty : [] ∉ components

open Tarjan in
theorem components_spec {ir : ExecIrBuilder} (hwf : WF ir) (allowed : Block → Bool) :
    ∃ components, stronglyConnectedComponents ir allowed = .ok components ∧
      IsComponents ir allowed components := by
  obtain ⟨s, hrun, hs, hstack, -, hvisited⟩ := @run_spec ir allowed hwf
    (List.range ir.blocks.length) (fun v hv => List.mem_range.1 hv) _ inv_init rfl
  have hmem : ∀ x, x ∈ s.components.flatten ↔ x < ir.blocks.length ∧ allowed x = true := by
    intro x
    have hvis := hs.visited x
    rw [hstack] at hvis
    constructor
    · intro hx
      exact hs.valid x (hvis.2 (.inr hx))
    · rintro ⟨hlt, ha⟩
      exact (hvis.1 (hvisited x (List.mem_range.2 hlt) ha)).resolve_left (by simp)
  refine ⟨s.components, bind_eq_ok.2 ⟨s, hrun, rfl⟩, hs.nodup, hmem, hs.linked, ?_, hs.closed,
    hs.nonempty⟩
  intro c hc x hx y hxy hyx
  -- the components up to that of the earlier one of `x` and `y` are closed
  obtain ⟨before, after, hsplit⟩ := List.append_of_mem hc
  have hclosed : Closed ir allowed (before.flatten ++ c) := by
    have := hs.closed (before ++ [c]) ⟨after, by rw [hsplit]; simp⟩
    simpa using this
  rcases List.mem_append.1 (hclosed.reach hxy (List.mem_append_right _ hx)) with hy | hy
  · -- `y` is in an earlier component, which then also has `x`
    have hbefore := (hs.closed before ⟨c :: after, hsplit.symm⟩).reach hyx hy
    have hnodup := hs.nodup
    rw [hsplit, List.flatten_append, List.flatten_cons, List.nodup_append] at hnodup
    exact (hnodup.2.2 x hbefore x (List.mem_append_left _ hx) rfl).elim
  · exact hy

end RapidArm.HaltCheck
