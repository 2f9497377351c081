import RapidArm.Arena.ArenaSet
import RapidArm.HaltCheck.Paths
import Mathlib.Data.List.Chain
import Mathlib.Logic.Relation

/-!
# The compile order

`ExecIrBuilder::topo_sort` (`jit-compiler-core/src/ir/mod.rs`, lines 2700–2742) returns the
blocks in reverse post-order of a depth-first search from the entry block. The search keeps its
own stack: an `Enter` frame is a block to visit, which may be there several times, and an `Exit`
frame is a block whose visit has begun.

Results:
* `SortInv.step`: the blocks with an `Exit` frame are a path from the entry block, and a block
  left behind has its dominators on this path.
* `topoSort_spec`: the order has each reachable block once, after all its dominators.
-/

namespace RapidArm.Backend

open RapidArm.Ir RapidArm.Lib RapidArm.Arena RapidArm.HaltCheck Relation

/-! ## The search -/

/-- How `topo_sort` can panic. -/
inductive SortPanic
  | set (e : SetPanic)
  | builder (e : Panic)
  | assertion
  | outOfFuel
  deriving DecidableEq, Repr

/-- `DfsFrame` (lines 2701–2705). -/
inductive DfsFrame
  | enter (block : Block)
  | exit (block : Block)
  deriving DecidableEq, Repr

/-- The loop over the targets of a block (lines 2724–2728); the top of the stack comes first. -/
def pushTargets (seen : ArenaSet) (dfsStack : List DfsFrame) (targets : List Block) :
    List DfsFrame :=
  targets.reverse.foldl (fun dfsStack target =>
    if seen.contains target then dfsStack else .enter target :: dfsStack) dfsStack

/-- The loop of `topo_sort` (lines 2713–2736). -/
def topoLoop (ir : ExecIrBuilder) : ℕ → ArenaSet → List Block → List DfsFrame →
    Except SortPanic (List Block)
  | _, _, postorder, [] => .ok postorder
  | 0, _, _, _ :: _ => .error .outOfFuel
  | fuel + 1, seen, postorder, .enter block :: dfsStack => do
    let (seen, isNew) ← (seen.insert block).mapError .set
    if isNew = false then topoLoop ir fuel seen postorder dfsStack
    else do
      let targets ← (ir.successors block).mapError .builder
      topoLoop ir fuel seen postorder (pushTargets seen (.exit block :: dfsStack) targets)
  | fuel + 1, seen, postorder, .exit block :: dfsStack => do
    require (postorder.length < ir.blocks.length) .assertion
    topoLoop ir fuel seen (postorder ++ [block]) dfsStack

/-- `ExecIrBuilder::topo_sort` (lines 2700–2742). Every block pushes at most three frames. -/
def topoSort (ir : ExecIrBuilder) : Except SortPanic (List Block) := do
  let postorder ← topoLoop ir (3 * ir.blocks.length + 1) (ArenaSet.withCapacity ir.blocks.length) []
    [.enter Block.ENTRYPOINT]
  require (postorder.length ≤ ir.blocks.length) .assertion
  return postorder.reverse

/-! ## Reachability and dominance -/

/-- An edge of the control-flow graph. -/
def Next (ir : ExecIrBuilder) (u v : Block) : Prop := v ∈ ir.succs u

/-- A block that some path from the entry block reaches. -/
def Reachable (ir : ExecIrBuilder) (b : Block) : Prop := ReflTransGen (Next ir) Block.ENTRYPOINT b

/-- Every path from the entry block to `b` goes through `d`. -/
def Dominates (ir : ExecIrBuilder) (d b : Block) : Prop :=
  ∀ path, IsPath ir path → path.getLast? = some b → d ∈ path

/-- The blocks of the builder have targets among them. -/
structure TargetsExist (ir : ExecIrBuilder) : Prop where
  entry : Block.ENTRYPOINT < ir.blocks.length
  targets : ∀ u v, v ∈ ir.succs u → v < ir.blocks.length

theorem IsPath.snoc {ir : ExecIrBuilder} {path : List Block} {u v : Block} (h : IsPath ir path)
    (hlast : path.getLast? = some u) (huv : v ∈ ir.succs u) : IsPath ir (path ++ [v]) := by
  obtain ⟨hhead, hchain⟩ := h
  refine ⟨by rw [List.head?_append, hhead]; rfl, hchain.append (List.isChain_singleton v) ?_⟩
  intro x hx y hy
  rw [hlast, Option.mem_some_iff] at hx
  rw [List.head?_cons, Option.mem_some_iff] at hy
  rw [← hx, ← hy]
  exact huv

theorem IsPath.reachable {ir : ExecIrBuilder} {path : List Block} (h : IsPath ir path) {b : Block}
    (hb : b ∈ path) : Reachable ir b := by
  obtain ⟨hhead, hchain⟩ := h
  refine hchain.induction (Reachable ir) path (fun u v huv hu => ReflTransGen.tail hu huv)
    (fun hne => ?_) b hb
  rw [List.head?_eq_some_head hne, Option.some.injEq] at hhead
  rw [hhead]
  exact ReflTransGen.refl

/-- A block on a path leads to those after it. -/
theorem IsPath.reach_last {ir : ExecIrBuilder} {path : List Block} {last : Block}
    (h : IsPath ir path) (hlast : path.getLast? = some last) {b : Block} (hb : b ∈ path) :
    ReflTransGen (Next ir) b last := by
  refine h.2.backwards_induction (fun b => ReflTransGen (Next ir) b last) path
    (fun u v huv hv => ReflTransGen.head huv hv) (fun hne => ?_) b hb
  rw [List.getLast?_eq_some_getLast hne, Option.some.injEq] at hlast
  rw [hlast]

theorem Reachable.path {ir : ExecIrBuilder} {b : Block} (h : Reachable ir b) :
    ∃ path, IsPath ir path ∧ path.getLast? = some b := by
  induction h with
  | refl => exact ⟨[Block.ENTRYPOINT], ⟨rfl, List.isChain_singleton _⟩, rfl⟩
  | tail _ huv ih =>
    obtain ⟨path, hpath, hlast⟩ := ih
    exact ⟨_, IsPath.snoc hpath hlast huv, by simp⟩

/-! ## The invariant -/

/-- The blocks with an `Exit` frame, the last one entered first. -/
def openBlocks (dfsStack : List DfsFrame) : List Block :=
  dfsStack.filterMap fun frame =>
    match frame with
    | .enter _ => none
    | .exit block => some block

@[simp] theorem openBlocks_enter (block : Block) (dfsStack : List DfsFrame) :
    openBlocks (.enter block :: dfsStack) = openBlocks dfsStack := rfl

@[simp] theorem openBlocks_exit (block : Block) (dfsStack : List DfsFrame) :
    openBlocks (.exit block :: dfsStack) = block :: openBlocks dfsStack := rfl

/-- `Enter` frames on top do not count. -/
theorem openBlocks_enters {enters : List DfsFrame} (h : ∀ frame ∈ enters, ∃ t, frame = .enter t)
    (dfsStack : List DfsFrame) : openBlocks (enters ++ dfsStack) = openBlocks dfsStack := by
  induction enters with
  | nil => rfl
  | cons frame enters ih =>
    obtain ⟨t, rfl⟩ := h frame List.mem_cons_self
    rw [List.cons_append, openBlocks_enter]
    exact ih fun frame hframe => h frame (List.mem_cons_of_mem _ hframe)

/-- The invariant of the search. Blocks are entered along a path, and the blocks in `postorder`
    were left when their dominators were all still on it. -/
structure SortInv (ir : ExecIrBuilder) (seen : ArenaSet) (postorder : List Block)
    (dfsStack : List DfsFrame) : Prop where
  room : 64 * max 1 seen.words.length = ArenaSet.room ir.blocks.length
  nodup : (postorder ++ openBlocks dfsStack).Nodup
  seen : ∀ b, seen.contains b = true ↔ b ∈ postorder ∨ b ∈ openBlocks dfsStack
  lt : ∀ b ∈ postorder, b < ir.blocks.length
  reachable : ∀ b ∈ postorder, Reachable ir b
  path : openBlocks dfsStack = [] ∨ IsPath ir (openBlocks dfsStack).reverse
  parent : ∀ above t below, dfsStack = above ++ .enter t :: below →
    (openBlocks below = [] ∧ t = Block.ENTRYPOINT) ∨
      ∃ p, (openBlocks below).head? = some p ∧ t ∈ ir.succs p
  pending : ∀ above u below, dfsStack = above ++ .exit u :: below → ∀ v ∈ ir.succs u,
    v ∈ postorder ∨ v ∈ openBlocks dfsStack ∨ .enter v ∈ above
  edges : ∀ before u after, postorder = before ++ u :: after → ∀ v ∈ ir.succs u,
    v ∈ before ∨ ReflTransGen (Next ir) v u ∧ (v ∈ postorder ∨ v ∈ openBlocks dfsStack)
  dominators : ∀ before b after, postorder = before ++ b :: after → ∀ d, Dominates ir d b → d ≠ b →
    d ∈ after ∨ d ∈ openBlocks dfsStack
  started : Block.ENTRYPOINT ∈ postorder ∨ Block.ENTRYPOINT ∈ openBlocks dfsStack ∨
    dfsStack = [.enter Block.ENTRYPOINT]

/-- A terminator has at most two targets. -/
theorem Terminator.blockTargets_length (t : Terminator) : t.blockTargets.length ≤ 2 := by
  cases t with
  | ret => simp [Terminator.blockTargets, Terminator.targets]
  | returnCode v => simp [Terminator.blockTargets, Terminator.targets]
  | br j => simp [Terminator.blockTargets, Terminator.targets]
  | brZ c z nz =>
    simp only [Terminator.blockTargets, Terminator.targets]
    split_ifs <;> simp

section Steps

variable {ir : ExecIrBuilder} {seen : ArenaSet} {postorder : List Block} {dfsStack : List DfsFrame}

theorem Reachable.lt (ht : TargetsExist ir) {b : Block} (h : Reachable ir b) :
    b < ir.blocks.length := by
  cases h with
  | refl => exact ht.entry
  | tail _ huv => exact ht.targets _ _ huv

theorem sortInv_init :
    SortInv ir (ArenaSet.withCapacity ir.blocks.length) [] [.enter Block.ENTRYPOINT] where
  room := by rw [ArenaSet.withCapacity_length, ArenaSet.room]
  nodup := by simp [openBlocks]
  seen b := by simp [ArenaSet.withCapacity_contains, openBlocks]
  lt := by simp
  reachable := by simp
  path := .inl rfl
  parent := by
    intro above t below h
    rcases List.cons_eq_append_iff.1 h with ⟨rfl, heq⟩ | ⟨above', rfl, heq⟩
    · obtain ⟨hframe, rfl⟩ := List.cons.inj heq
      cases hframe
      exact .inl ⟨rfl, rfl⟩
    · simp at heq
  pending := by
    intro above u below h
    rcases List.cons_eq_append_iff.1 h with ⟨rfl, heq⟩ | ⟨above', rfl, heq⟩
    · cases (List.cons.inj heq).1
    · simp at heq
  edges := by
    intro before u after h
    simp at h
  dominators := by
    intro before b after h
    simp at h
  started := .inr (.inr rfl)

/-- The targets that are not seen, the first one on top. -/
theorem pushTargets_eq (seen : ArenaSet) (dfsStack : List DfsFrame) (targets : List Block) :
    pushTargets seen dfsStack targets =
      (targets.filter fun t => !seen.contains t).map .enter ++ dfsStack := by
  unfold pushTargets
  rw [List.foldl_reverse]
  induction targets with
  | nil => rfl
  | cons t targets ih =>
    rw [List.foldr_cons, ih]
    cases h : seen.contains t with
    | true => simp [h]
    | false => simp [h]

theorem SortInv.open_reachable (h : SortInv ir seen postorder dfsStack) {b : Block}
    (hb : b ∈ openBlocks dfsStack) : Reachable ir b := by
  rcases h.path with hnil | hpath
  · rw [hnil] at hb
    cases hb
  · exact IsPath.reachable hpath (List.mem_reverse.2 hb)

/-- An `Enter` frame of a block that was seen in the meantime. -/
theorem SortInv.again {block : Block} (h : SortInv ir seen postorder (.enter block :: dfsStack))
    (hseen : seen.contains block = true) {seen' : ArenaSet}
    (hlen : seen'.words.length = max 1 seen.words.length)
    (hcontains : ∀ k, seen'.contains k = (decide (k = block) || seen.contains k)) :
    SortInv ir seen' postorder dfsStack where
  room := by
    rw [← h.room, hlen]
    omega
  nodup := h.nodup
  seen b := by
    rw [hcontains, Bool.or_eq_true, decide_eq_true_iff, ← openBlocks_enter block, ← h.seen]
    exact or_iff_right_of_imp fun hb => hb ▸ hseen
  lt := h.lt
  reachable := h.reachable
  path := h.path
  parent above t below hsplit := h.parent (.enter block :: above) t below (by rw [hsplit]; rfl)
  pending above u below hsplit v hv := by
    rcases h.pending (.enter block :: above) u below (by rw [hsplit]; rfl) v hv with hp | ho | hmem
    · exact .inl hp
    · exact .inr (.inl ho)
    · rcases List.mem_cons.1 hmem with heq | hmem
      · cases heq
        exact ((h.seen _).1 hseen).imp_right .inl
      · exact .inr (.inr hmem)
  edges := h.edges
  dominators := h.dominators
  started := by
    rcases h.started with hp | ho | heq
    · exact .inl hp
    · exact .inr (.inl ho)
    · obtain ⟨hframe, -⟩ := List.cons.inj heq
      cases hframe
      exact ((h.seen _).1 hseen).imp_right .inl

/-- The block of the top frame is entered from the last open block. -/
theorem SortInv.enter_path {block : Block}
    (h : SortInv ir seen postorder (.enter block :: dfsStack)) :
    IsPath ir (block :: openBlocks dfsStack).reverse := by
  rw [List.reverse_cons]
  rcases h.parent [] block dfsStack rfl with ⟨hnil, rfl⟩ | ⟨p, hp, hedge⟩
  · rw [hnil]
    exact ⟨rfl, List.isChain_singleton _⟩
  · rcases h.path with hnil | hpath
    · rw [openBlocks_enter] at hnil
      rw [hnil] at hp
      cases hp
    · rw [openBlocks_enter] at hpath
      exact IsPath.snoc hpath (by rw [List.getLast?_reverse, hp]) hedge

theorem SortInv.enter {block : Block} (h : SortInv ir seen postorder (.enter block :: dfsStack))
    (hnew : seen.contains block = false) {seen' : ArenaSet}
    (hlen : seen'.words.length = max 1 seen.words.length)
    (hcontains : ∀ k, seen'.contains k = (decide (k = block) || seen.contains k)) :
    SortInv ir seen' postorder (pushTargets seen' (.exit block :: dfsStack) (ir.succs block)) := by
  rw [pushTargets_eq]
  generalize henters : ((ir.succs block).filter fun t => !seen'.contains t).map DfsFrame.enter =
    enters
  have hmem : ∀ frame ∈ enters, ∃ t, frame = .enter t ∧ t ∈ ir.succs block := by
    intro frame hframe
    rw [← henters] at hframe
    obtain ⟨t, ht, rfl⟩ := List.mem_map.1 hframe
    exact ⟨t, rfl, (List.mem_filter.1 ht).1⟩
  have hopenEnters : openBlocks (enters ++ .exit block :: dfsStack) =
      block :: openBlocks dfsStack :=
    openBlocks_enters (fun frame hframe => (hmem frame hframe).imp fun _ ht => ht.1) _
  have hnotSeen : block ∉ postorder ∧ block ∉ openBlocks dfsStack := by
    have hno := (h.seen block).not.1 (by simp [hnew])
    rw [openBlocks_enter] at hno
    exact not_or.1 hno
  have hseen' : ∀ b, seen'.contains b = true ↔ b ∈ postorder ∨
      b ∈ block :: openBlocks dfsStack := by
    intro b
    have hold := h.seen b
    rw [openBlocks_enter] at hold
    rw [hcontains, Bool.or_eq_true, decide_eq_true_iff, hold, List.mem_cons]
    exact or_left_comm
  -- a target of the block is seen or has a new frame
  have hself : ∀ v ∈ ir.succs block,
      v ∈ postorder ∨ v ∈ block :: openBlocks dfsStack ∨ .enter v ∈ enters := by
    intro v hv
    cases hc : seen'.contains v with
    | true => exact ((hseen' v).1 hc).imp_right .inl
    | false =>
      refine .inr (.inr ?_)
      rw [← henters]
      exact List.mem_map.2 ⟨v, List.mem_filter.2 ⟨hv, by simp [hc]⟩, rfl⟩
  refine ⟨?_, ?_, ?_, h.lt, h.reachable, ?_, ?_, ?_, ?_, ?_, ?_⟩
  · rw [← h.room, hlen]
    omega
  · rw [hopenEnters]
    have hold := h.nodup
    rw [openBlocks_enter] at hold
    rw [List.nodup_middle]
    exact List.nodup_cons.2 ⟨fun hb => (List.mem_append.1 hb).elim hnotSeen.1 hnotSeen.2, hold⟩
  · rw [hopenEnters]
    exact hseen'
  · rw [hopenEnters]
    exact .inr h.enter_path
  · -- a new frame is a target of the block, an old one keeps its parent
    intro above t below hsplit
    rcases List.append_eq_append_iff.1 hsplit with ⟨mid, habove, hrest⟩ | ⟨mid, henter, hrest⟩
    · rcases List.cons_eq_append_iff.1 hrest with ⟨-, heq⟩ | ⟨above', rfl, heq⟩
      · cases (List.cons.inj heq).1
      · exact h.parent (.enter block :: above') t below (by rw [heq]; rfl)
    · rcases List.cons_eq_append_iff.1 hrest with ⟨rfl, heq⟩ | ⟨mid', rfl, hbelow⟩
      · cases (List.cons.inj heq.symm).1
      · obtain ⟨t', heq, hedge⟩ := hmem (.enter t) (by rw [henter]; simp)
        cases heq
        refine .inr ⟨block, ?_, hedge⟩
        rw [hbelow, openBlocks_enters (fun frame hframe =>
          (hmem frame (by rw [henter]; simp [hframe])).imp fun _ ht => ht.1)]
        rfl
  · intro above u below hsplit v hv
    rw [hopenEnters]
    have hnotEnter : DfsFrame.exit u ∉ enters := by
      intro hu
      obtain ⟨t, ht, -⟩ := hmem _ hu
      cases ht
    rcases List.append_eq_append_iff.1 hsplit with ⟨mid, habove, hrest⟩ | ⟨mid, henter, hrest⟩
    · rcases List.cons_eq_append_iff.1 hrest with ⟨rfl, heq⟩ | ⟨above', rfl, heq⟩
      · obtain ⟨hframe, rfl⟩ := List.cons.inj heq
        cases hframe
        rw [habove, List.append_nil]
        exact hself v hv
      · rcases h.pending (.enter block :: above') u below (by rw [heq]; rfl) v hv with hp | ho | hm
        · exact .inl hp
        · exact .inr (.inl (List.mem_cons_of_mem _ ho))
        · rcases List.mem_cons.1 hm with heq | hm
          · cases heq
            exact .inr (.inl List.mem_cons_self)
          · refine .inr (.inr ?_)
            rw [habove]
            simp [hm]
    · rcases List.cons_eq_append_iff.1 hrest with ⟨rfl, heq⟩ | ⟨mid', rfl, hbelow⟩
      · obtain ⟨hframe, rfl⟩ := List.cons.inj heq
        cases hframe
        rw [List.append_nil] at henter
        exact henter ▸ hself v hv
      · exact (hnotEnter (by rw [henter]; simp)).elim
  · intro before u after hsplit v hv
    rw [hopenEnters]
    refine (h.edges before u after hsplit v hv).imp_right fun ⟨hreach, hmem⟩ => ⟨hreach, ?_⟩
    exact hmem.imp_right (List.mem_cons_of_mem _)
  · intro before b after hsplit d hd hne
    rw [hopenEnters]
    exact (h.dominators before b after hsplit d hd hne).imp_right (List.mem_cons_of_mem _)
  · rw [hopenEnters]
    rcases h.started with hp | ho | heq
    · exact .inl hp
    · exact .inr (.inl (List.mem_cons_of_mem _ ho))
    · obtain ⟨hframe, -⟩ := List.cons.inj heq
      cases hframe
      exact .inr (.inl List.mem_cons_self)

/-- The last block of a list with one more, or a split of the list. -/
theorem append_singleton_split {α : Type} {l before after : List α} {x y : α}
    (h : l ++ [y] = before ++ x :: after) :
    (before = l ∧ x = y ∧ after = []) ∨ ∃ after', after = after' ++ [y] ∧
      l = before ++ x :: after' := by
  induction after using List.reverseRecOn with
  | nil =>
    obtain ⟨hl, hx⟩ := List.append_inj' h rfl
    exact .inl ⟨hl.symm, (List.cons.inj hx).1.symm, rfl⟩
  | append_singleton after z =>
    rw [← List.cons_append, ← List.append_assoc] at h
    obtain ⟨hl, hz⟩ := List.append_inj' h rfl
    exact .inr ⟨after, by rw [(List.cons.inj hz).1], hl⟩

/-- The visit of the top block ends: all its targets were seen. -/
theorem SortInv.exit (ht : TargetsExist ir) {block : Block}
    (h : SortInv ir seen postorder (.exit block :: dfsStack)) :
    postorder.length < ir.blocks.length ∧ SortInv ir seen (postorder ++ [block]) dfsStack := by
  have hpath : IsPath ir (block :: openBlocks dfsStack).reverse := by
    rcases h.path with hnil | hpath
    · cases hnil
    · exact hpath
  have hlast : (block :: openBlocks dfsStack).reverse.getLast? = some block := by
    rw [List.getLast?_reverse]
    rfl
  have hopen := fun b (hb : b ∈ openBlocks (.exit block :: dfsStack)) => h.open_reachable hb
  have hblock : Reachable ir block := hopen block List.mem_cons_self
  refine ⟨?_, h.room, ?_, fun b => ?_, fun b hb => ?_, fun b hb => ?_, ?_, ?_, ?_, ?_, ?_, ?_⟩
  · have hle := length_le_of_nodup h.nodup fun b hb =>
      (List.mem_append.1 hb).elim (h.lt b) fun ho => (hopen b ho).lt ht
    simp only [openBlocks_exit, List.length_append, List.length_cons] at hle
    omega
  · rw [List.append_assoc]
    exact h.nodup
  · rw [h.seen, openBlocks_exit, List.mem_append, List.mem_singleton, List.mem_cons, or_assoc]
  · rcases List.mem_append.1 hb with hb | hb
    · exact h.lt b hb
    · rw [List.mem_singleton.1 hb]
      exact hblock.lt ht
  · rcases List.mem_append.1 hb with hb | hb
    · exact h.reachable b hb
    · rw [List.mem_singleton.1 hb]
      exact hblock
  · rcases hnil : openBlocks dfsStack with _ | ⟨p, rest⟩
    · exact .inl rfl
    · right
      obtain ⟨hhead, hchain⟩ := hpath
      rw [hnil, List.reverse_cons] at hhead hchain
      refine ⟨?_, hchain.left_of_append⟩
      rwa [List.head?_append_of_ne_nil _ (by simp)] at hhead
  · intro above t below hsplit
    exact h.parent (.exit block :: above) t below (by rw [hsplit]; rfl)
  · intro above u below hsplit v hv
    rcases h.pending (.exit block :: above) u below (by rw [hsplit]; rfl) v hv with hp | ho | hm
    · exact .inl (List.mem_append_left _ hp)
    · rcases List.mem_cons.1 ho with rfl | ho
      · exact .inl (by simp)
      · exact .inr (.inl ho)
    · rcases List.mem_cons.1 hm with heq | hm
      · cases heq
      · exact .inr (.inr hm)
  · intro before u after hsplit v hv
    rcases append_singleton_split hsplit with ⟨rfl, rfl, rfl⟩ | ⟨after', rfl, hold⟩
    · rcases h.pending [] u dfsStack rfl v hv with hp | ho | hm
      · exact .inl hp
      · refine .inr ⟨IsPath.reach_last hpath hlast (List.mem_reverse.2 ho), ?_⟩
        rcases List.mem_cons.1 ho with rfl | ho
        · exact .inl (by simp)
        · exact .inr ho
      · cases hm
    · refine (h.edges before u after' hold v hv).imp_right fun ⟨hreach, hmem⟩ => ⟨hreach, ?_⟩
      rcases hmem with hp | ho
      · exact .inl (List.mem_append_left _ hp)
      · rcases List.mem_cons.1 ho with rfl | ho
        · exact .inl (by simp)
        · exact .inr ho
  · intro before b after hsplit d hd hne
    rcases append_singleton_split hsplit with ⟨rfl, rfl, rfl⟩ | ⟨after', rfl, hold⟩
    · -- the dominators are on the path to the block
      have hmem := List.mem_reverse.1 (hd _ hpath hlast)
      exact .inr ((List.mem_cons.1 hmem).resolve_left hne)
    · rcases h.dominators before b after' hold d hd hne with hmem | ho
      · exact .inl (List.mem_append_left _ hmem)
      · rcases List.mem_cons.1 ho with rfl | ho
        · exact .inl (by simp)
        · exact .inr ho
  · rcases h.started with hp | ho | heq
    · exact .inl (List.mem_append_left _ hp)
    · rcases List.mem_cons.1 ho with heq | ho
      · rw [heq]
        exact .inl (by simp)
      · exact .inr (.inl ho)
    · cases (List.cons.inj heq).1

/-- The search ends with every reachable block left behind. -/
theorem topoLoop_spec (ht : TargetsExist ir) (fuel : ℕ) (seen : ArenaSet) (postorder : List Block)
    (dfsStack : List DfsFrame) (h : SortInv ir seen postorder dfsStack)
    (hfuel : dfsStack.length + 3 * ir.blocks.length ≤
      fuel + 3 * (postorder ++ openBlocks dfsStack).length) :
    ∃ seen' order, topoLoop ir fuel seen postorder dfsStack = .ok order ∧
      SortInv ir seen' order [] := by
  induction fuel generalizing seen postorder dfsStack with
  | zero =>
    cases dfsStack with
    | nil => exact ⟨seen, postorder, by simp [topoLoop], h⟩
    | cons frame dfsStack =>
      exfalso
      have hle := length_le_of_nodup h.nodup fun b hb =>
        (List.mem_append.1 hb).elim (h.lt b) fun ho => (h.open_reachable ho).lt ht
      rw [List.length_cons] at hfuel
      omega
  | succ fuel ih =>
    match dfsStack with
    | [] => exact ⟨seen, postorder, by simp [topoLoop], h⟩
    | .enter block :: dfsStack =>
      have hlt : block < ir.blocks.length :=
        Reachable.lt ht (IsPath.reachable h.enter_path (List.mem_reverse.2 List.mem_cons_self))
      obtain ⟨seen', hrun, hlen, hcontains⟩ := @ArenaSet.insert_ok seen block (by
        rw [h.room, ArenaSet.room]
        exact lt_of_lt_of_le hlt (by omega))
      have hinsert : (seen.insert block).mapError SortPanic.set =
          .ok (seen', !seen.contains block) := by
        rw [hrun]
        rfl
      rw [List.length_cons, openBlocks_enter] at hfuel
      cases hnew : seen.contains block with
      | true =>
        obtain ⟨seen'', order, hrest, hinv⟩ := ih seen' postorder dfsStack
          (h.again hnew hlen hcontains) (by omega)
        refine ⟨seen'', order, ?_, hinv⟩
        unfold topoLoop
        refine bind_eq_ok.2 ⟨_, hinsert, ?_⟩
        simp only [hnew, Bool.not_true, if_true]
        exact hrest
      | false =>
        have henter := h.enter hnew hlen hcontains
        have hlength : (pushTargets seen' (.exit block :: dfsStack) (ir.succs block)).length ≤
            dfsStack.length + 3 := by
          rw [pushTargets_eq]
          have htwo := Terminator.blockTargets_length (ir.blockD block).terminator
          have hle := List.length_filter_le (fun t => !seen'.contains t) (ir.succs block)
          simp only [List.length_append, List.length_map, List.length_cons]
          have : (ir.succs block).length ≤ 2 := htwo
          omega
        have hopen : openBlocks (pushTargets seen' (.exit block :: dfsStack) (ir.succs block)) =
            block :: openBlocks dfsStack := by
          rw [pushTargets_eq, openBlocks_enters fun frame hframe => ?_]
          · rfl
          · obtain ⟨t, -, ht⟩ := List.mem_map.1 hframe
            exact ⟨t, ht.symm⟩
        obtain ⟨seen'', order, hrest, hinv⟩ := ih seen' postorder _ henter (by
          rw [hopen]
          simp only [List.length_append, List.length_cons] at hfuel ⊢
          omega)
        refine ⟨seen'', order, ?_, hinv⟩
        unfold topoLoop
        refine bind_eq_ok.2 ⟨_, hinsert, ?_⟩
        simp only [hnew, Bool.not_false]
        refine bind_eq_ok.2 ⟨ir.succs block, ?_, hrest⟩
        rw [successors_eq hlt]
        rfl
    | .exit block :: dfsStack =>
      obtain ⟨hlt, h'⟩ := h.exit ht
      rw [openBlocks_exit] at hfuel
      obtain ⟨seen', order, hrun, hinv⟩ := ih seen (postorder ++ [block]) dfsStack h' (by
        simp only [List.length_cons, List.length_append, List.length_nil] at hfuel ⊢
        omega)
      refine ⟨seen', order, ?_, hinv⟩
      unfold topoLoop
      exact bind_eq_ok.2 ⟨(), require_eq_ok.2 hlt, hrun⟩

end Steps

/-! ## The order -/

/-- No directed cycle can be reached. -/
def Acyclic (ir : ExecIrBuilder) : Prop := ∀ b, Reachable ir b → ¬ TransGen (Next ir) b b

/-- The reachable blocks, each once, the entry block first, every block after its dominators,
    and every edge forward if there is no cycle. -/
structure CompileOrder (ir : ExecIrBuilder) (order : List Block) : Prop where
  nodup : order.Nodup
  mem : ∀ b, b ∈ order ↔ Reachable ir b
  entry : order.head? = some Block.ENTRYPOINT
  dominators : ∀ before b after, order = before ++ b :: after → ∀ d, Dominates ir d b → d ≠ b →
    d ∈ before
  edges : Acyclic ir → ∀ before u after, order = before ++ u :: after → ∀ v ∈ ir.succs u, v ∈ after

/-- What the search leaves behind, in reverse. -/
theorem SortInv.compileOrder {ir : ExecIrBuilder} {seen : ArenaSet} {postorder : List Block}
    (h : SortInv ir seen postorder []) : CompileOrder ir postorder.reverse := by
  have hentry : Block.ENTRYPOINT ∈ postorder := by
    rcases h.started with hp | ho | heq
    · exact hp
    · cases ho
    · cases heq
  have hnodup : postorder.Nodup := by simpa [openBlocks] using h.nodup
  have hclosed : ∀ u ∈ postorder, ∀ v ∈ ir.succs u, v ∈ postorder := by
    intro u hu v hv
    obtain ⟨before, after, hsplit⟩ := List.append_of_mem hu
    rcases h.edges before u after hsplit v hv with hmem | ⟨-, hp | ho⟩
    · rw [hsplit]
      exact List.mem_append_left _ hmem
    · exact hp
    · cases ho
  have hmem : ∀ b, b ∈ postorder.reverse ↔ Reachable ir b := by
    intro b
    rw [List.mem_reverse]
    constructor
    · exact h.reachable b
    · intro hreach
      induction hreach with
      | refl => exact hentry
      | tail _ huv ih => exact hclosed _ ih _ huv
  have hflip : ∀ {before b after}, postorder.reverse = before ++ b :: after →
      postorder = after.reverse ++ b :: before.reverse := by
    intro before b after hsplit
    rw [← List.reverse_reverse postorder, hsplit]
    simp
  have hdom : ∀ before b after, postorder.reverse = before ++ b :: after →
      ∀ d, Dominates ir d b → d ≠ b → d ∈ before := by
    intro before b after hsplit d hd hne
    rcases h.dominators _ b _ (hflip hsplit) d hd hne with hmem | ho
    · exact List.mem_reverse.1 hmem
    · cases ho
  refine ⟨List.nodup_reverse.2 hnodup, hmem, ?_, hdom, fun hacyclic => ?_⟩
  · -- the entry block dominates every block, so none comes before it
    cases hrev : postorder.reverse with
    | nil =>
      rw [List.reverse_eq_nil_iff] at hrev
      rw [hrev] at hentry
      cases hentry
    | cons b rest =>
      by_contra hne
      have hb : Block.ENTRYPOINT ≠ b := fun heq => hne (congrArg some heq.symm)
      refine List.not_mem_nil (hdom [] b rest hrev Block.ENTRYPOINT (fun path hpath hlast => ?_) hb)
      obtain ⟨hhead, -⟩ := hpath
      exact List.mem_of_mem_head? hhead
  · intro before u after hsplit v hv
    rcases h.edges _ u _ (hflip hsplit) v hv with hmem | ⟨hreach, -⟩
    · exact List.mem_reverse.1 hmem
    · refine (hacyclic u ((hmem u).1 ?_) (TransGen.head' hv hreach)).elim
      rw [hsplit]
      simp

/-- `topo_sort` never panics, and returns the reachable blocks in a compile order. -/
theorem topoSort_spec {ir : ExecIrBuilder} (ht : TargetsExist ir) :
    ∃ order, topoSort ir = .ok order ∧ CompileOrder ir order := by
  obtain ⟨seen, postorder, hrun, hinv⟩ := topoLoop_spec ht (3 * ir.blocks.length + 1) _ [] _
    sortInv_init (by simp; omega)
  have hlen : postorder.length ≤ ir.blocks.length := by
    have hle := length_le_of_nodup hinv.nodup fun b hb =>
      (List.mem_append.1 hb).elim (hinv.lt b) fun ho => (by cases ho)
    simpa [openBlocks] using hle
  exact ⟨postorder.reverse, bind_eq_ok.2 ⟨postorder, hrun, bind_eq_ok.2
    ⟨(), require_eq_ok.2 hlen, rfl⟩⟩, hinv.compileOrder⟩

end RapidArm.Backend
