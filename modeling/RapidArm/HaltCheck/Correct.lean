import RapidArm.HaltCheck.Components
import Mathlib.Tactic.IntervalCases

/-!
# The whole pass

Results:
* `insertHaltChecksWith_spec`: on every builder whose cycles have safepoints the pass
  succeeds, with any assertion that holds of consistent inserters after every update; the
  result refines the builder and leaves no path with too long a gap.
* `insertHaltChecks_consistent`: the pass never panics, and its maps are consistent at every
  moment of its run.
* `haltCheck_in_window`: on every path of the result, a halt check stands after one of any
  `halt_check_every` consecutive safepoints.
-/

namespace RapidArm.HaltCheck

open RapidArm.Ir RapidArm.Lib

/-! ## All components -/

section Graph

variable {ir : ExecIrBuilder} {g : SccGraph}

theorem SccGraph.Valid.mem (h : g.Valid ir) {id : ℕ} (hid : id ∈ g.topoOrder) {v : Block}
    (hv : v ∈ g.blocksOf id) : v < ir.blocks.length :=
  List.mem_range.1 (h.perm.mem_iff.1 (List.mem_flatMap.2 ⟨id, hid, hv⟩))

theorem SccGraph.Valid.isNext (h : g.Valid ir) {before after : List ℕ} {id : ℕ}
    (hsplit : g.topoOrder = before ++ id :: after) :
    IsNext ir (before.flatMap g.blocksOf) (g.blocksOf id) := by
  have hid : id ∈ g.topoOrder := by
    rw [hsplit]
    simp
  have hnodup : (g.topoOrder.flatMap g.blocksOf).Nodup := h.perm.nodup_iff.2 List.nodup_range
  rw [hsplit, List.flatMap_append, List.flatMap_cons, List.nodup_append,
    List.nodup_append] at hnodup
  refine ⟨fun v hv => h.mem hid hv, hnodup.2.1.1, ?_, h.topo before id after hsplit, ?_⟩
  · exact fun v hv hmem => hnodup.2.2 v hmem v (List.mem_append_left _ hv) rfl
  · intro u v hv huv
    obtain ⟨id', hid', hvid⟩ := List.mem_flatMap.1 hv
    obtain ⟨b₁, b₂, rfl⟩ := List.append_of_mem hid'
    rcases h.topo b₁ id' (b₂ ++ id :: after) (by rw [hsplit]; simp) u v hvid huv with hu | hu
    · exact List.mem_flatMap.2 ⟨id', by simp, hu⟩
    · rw [List.flatMap_append]
      exact List.mem_append_left _ hu

theorem SccGraph.Valid.staysInside (h : g.Valid ir) {id : ℕ}
    (hcyclic : g.componentIsCyclic id = true) {w : Block} (hw : w < ir.blocks.length) :
    staysInside g id w = .ok (decide (w ∈ g.blocksOf id)) := by
  obtain ⟨id', -, hid'⟩ := List.mem_flatMap.1 (h.perm.mem_iff.2 (List.mem_range.2 hw))
  have hof := (h.componentOf w id').2 hid'
  unfold HaltCheck.staysInside
  rw [if_pos hcyclic]
  refine bind_eq_ok.2 ⟨id', mapGet_eq hof, ?_⟩
  have hiff : id' = id ↔ w ∈ g.blocksOf id := by
    rw [← h.componentOf, hof, Option.some.injEq]
  simp only [hiff]
  rfl

end Graph

section Pass

variable {ir : ExecIrBuilder} {g : SccGraph} {every : NonZeroUsize}
  {check : HaltCheckInserter → Except Panic Unit} {order : Block → Finset Block → List Block}

/-- One round of the loop over the components. -/
theorem processComponent_spec (hcheck : ∀ s, Consistent s → check s = .ok ())
    (horder : Enumerates order) (hwf : WF ir) (hg : g.Valid ir) {before after : List ℕ} {id : ℕ}
    (hsplit : g.topoOrder = before ++ id :: after) {k : Marks ir} {last : Block → Block}
    {edge : Block → Block → Option HaltState} {s : HaltCheckInserter}
    (h : PassInv every (before.flatMap g.blocksOf) k last edge s) :
    ∃ s' k' last' edge', processComponent check order g every s id = .ok s' ∧
      @PassInv ir every ((before ++ [id]).flatMap g.blocksOf) k' last' edge' s' := by
  have hid : id ∈ g.topoOrder := by
    rw [hsplit]
    simp
  have hnext := hg.isNext hsplit
  have hget : arenaGet g.components id = .ok (g.blocksOf id) := by
    have hlt := List.getElem?_eq_getElem (hg.ids id hid)
    rw [arenaGet_eq_ok, hlt]
    simp [SccGraph.blocksOf, List.getD_eq_getElem?_getD, hlt]
  obtain ⟨incoming, s₁, stateIn, s₂, k₂, last₂, hdrain, hmerge, hle, hscanned, hstands,
      hsound, htracks,
    hfresh⟩ := enterComponent_spec hcheck horder h hnext
  rw [List.flatMap_append, List.flatMap_singleton]
  cases hcyclic : g.componentIsCyclic id with
  | false =>
    obtain ⟨v, hv, hself⟩ := hg.acyclic id hid hcyclic
    rw [hv] at hnext hstands htracks hfresh hdrain hget ⊢
    obtain ⟨halter, s', k', last', edge', hrun, hinv⟩ :=
      acyclic_spec hcheck hwf h hnext hself hcyclic hle
      hscanned hstands hsound htracks hfresh
    refine ⟨s', k', last', edge', ?_, hinv⟩
    refine bind_eq_ok.2 ⟨_, hget, bind_eq_ok.2 ⟨_, hdrain, bind_eq_ok.2 ⟨_, hmerge, ?_⟩⟩⟩
    refine bind_eq_ok.2 ⟨(), require_eq_ok.2 (.inr rfl), ?_⟩
    simp only [hcyclic]
    exact bind_eq_ok.2 ⟨_, hrun, rfl⟩
  | true =>
    obtain ⟨halter, s', k', last', edge', hrun, hinv⟩ := cyclic_spec hcheck hwf h hnext
      (fun w hw => hg.staysInside hcyclic hw) hle hscanned hstands hsound htracks
    refine ⟨s', k', last', edge', ?_, hinv⟩
    refine bind_eq_ok.2 ⟨_, hget, bind_eq_ok.2 ⟨_, hdrain, bind_eq_ok.2 ⟨_, hmerge, ?_⟩⟩⟩
    refine bind_eq_ok.2 ⟨(), require_eq_ok.2 (.inl hcyclic), ?_⟩
    simp only [hcyclic]
    exact bind_eq_ok.2 ⟨_, hrun, rfl⟩

/-- The pass on a builder whose cycles have safepoints. -/
theorem insertHaltChecksWith_spec (hcheck : ∀ s, Consistent s → check s = .ok ())
    (horder : Enumerates order) (hwf : WF ir) (hcycles : CyclesHaveSafepoints ir) :
    ∃ ir' marked last, insertHaltChecksWith check order ir = .ok ir' ∧ Refines ir ir' marked last ∧
      ∀ u l, Path ir (blockSafepoints ir) u l → Bounded ir.haltCheckEvery.val marked l := by
  obtain ⟨g, hg, hvalid⟩ := (SccGraph.sccGraph_spec hwf).2 hcycles
  obtain ⟨s₀, hnew, hreset, hrep⟩ := Represents.new hwf
  have hinit : @PassInv ir (haltCheckEveryOf ir) ([].flatMap g.blocksOf) (.init ir) id
      (fun _ _ => none) s₀ := by
    refine ⟨⟨hrep, hreset⟩, ?_, by simp, by simp, by simp, by simp⟩
    intro v x _ hx
    cases (Finset.notMem_empty x hx)
  obtain ⟨s, hrun, k, last, edge, hinv⟩ := foldlM_spec (l := g.topoOrder)
    (f := processComponent check order g (haltCheckEveryOf ir)) (b := s₀)
    (fun done s =>
      ∃ (k : Marks ir) (last : Block → Block) (edge : Block → Block → Option HaltState),
      PassInv (haltCheckEveryOf ir) (done.flatMap g.blocksOf) k last edge s)
    ⟨_, _, _, hinit⟩ (by
      rintro done id rest hl s ⟨k, last, edge, hinv⟩
      obtain ⟨s', k', last', edge', hrun, hinv'⟩ :=
        processComponent_spec hcheck horder hwf hvalid hl hinv
      exact ⟨s', hrun, k', last', edge', hinv'⟩)
  refine ⟨s.ir, k.marked, last, ?_, hinv.stands.represents.refines, fun u l hpath => ?_⟩
  · refine bind_eq_ok.2 ⟨g, hg, bind_eq_ok.2 ⟨s₀, hnew, ?_⟩⟩
    refine bind_eq_ok.2 ⟨(), hcheck s₀ hrep.consistent, bind_eq_ok.2 ⟨s, hrun, rfl⟩⟩
  · refine hinv.bounded u ?_ l hpath
    have hu : u < ir.blocks.length := by
      obtain ⟨l₀, hin, -⟩ := path_cases.1 hpath
      rcases hin with ⟨rfl, -⟩ | ⟨w, hw, -⟩
      · exact hwf.entry
      · exact (succs_lt hwf hw).2.2
    exact hvalid.perm.mem_iff.2 (List.mem_range.2 hu)

end Pass

/-- The assertion that the inserter is consistent. -/
noncomputable def assertConsistent (s : HaltCheckInserter) : Except Panic Unit :=
  @require Panic (Consistent s) (Classical.propDecidable _) .debugAssertion

/-- The pass never panics, also with the assertion after every update of the inserter that
    its edge maps are inverse to each other and every safepoint is found at its place. -/
theorem insertHaltChecks_consistent {ir : ExecIrBuilder} (hbuilt : Built ir)
    (hcycles : CyclesHaveSafepoints ir) {order : Block → Finset Block → List Block}
    (horder : Enumerates order) :
    (∃ ir', insertHaltChecks order ir = .ok ir') ∧
      ∃ ir', insertHaltChecksWith assertConsistent order ir = .ok ir' := by
  constructor
  · obtain ⟨ir', -, -, hrun, -⟩ := insertHaltChecksWith_spec (fun _ _ => rfl)
      horder hbuilt.wf hcycles
    exact ⟨ir', hrun⟩
  · obtain ⟨ir', -, -, hrun, -⟩ := insertHaltChecksWith_spec
      (fun s hs =>
        (@require_eq_ok Panic (Consistent s) (Classical.propDecidable _) _ ()).2 hs) horder
      hbuilt.wf hcycles
    exact ⟨ir', hrun⟩

/-! ### A loop with a safepoint -/

/-- A block that loops on itself after a safepoint, entered from the entry block. -/
def loopBuilder : ExecIrBuilder :=
  { ExecIrBuilder.withConfig ⟨2, by decide, by decide⟩ with
    blocks := [
      { BlockData.empty with
        parameters := Arg.args.map Arg.asSSAValue, terminator := .br ⟨1, []⟩, terminated := true },
      { BlockData.empty with stmts := [0], terminator := .br ⟨1, []⟩, terminated := true }]
    stmts := [⟨[], .safepoint⟩]
    currentBlock := 1 }

theorem loopBuilder_built : Built loopBuilder := by
  refine .call (.call (.call (.call (.call (.withConfig ⟨2, by decide, by decide⟩)
    (.createBlock rfl)) (.terminateBlock 0 (.br ⟨1, []⟩) ?_ ?_ rfl)) (.switchTo 1 ?_ rfl))
    (.emitStmtFull 0 .safepoint ?_ ?_ ?_ rfl)) (.terminateBlock 1 (.br ⟨1, []⟩) ?_ ?_ rfl)
  all_goals simp [Terminator.targets, Terminator.operands, StmtKind.operands,
    ExecIrBuilder.withConfig, ExecIrBuilder.pushStmt]

theorem loopBuilder_cycles : CyclesHaveSafepoints loopBuilder := by
  rintro cycle ⟨-, first, last, hfirst, -, hedge⟩
  have hlast : last < 2 := by
    by_contra hge
    simp [ExecIrBuilder.succs, ExecIrBuilder.blockD, List.getD_eq_getElem?_getD,
      List.getElem?_eq_none (show loopBuilder.blocks.length ≤ last from Nat.le_of_not_lt hge),
      BlockData.empty, Terminator.blockTargets, Terminator.targets] at hedge
  have hone : first = 1 := by
    interval_cases last
    · simpa [loopBuilder, ExecIrBuilder.succs, ExecIrBuilder.blockD, Terminator.blockTargets,
        Terminator.targets] using hedge
    · simpa [loopBuilder, ExecIrBuilder.succs, ExecIrBuilder.blockD, Terminator.blockTargets,
        Terminator.targets] using hedge
  subst hone
  exact ⟨1, List.mem_of_mem_head? hfirst, by decide⟩

theorem enumerates_toList : Enumerates fun _ set => set.toList :=
  ⟨fun _ set => set.nodup_toList, fun _ _ _ => Finset.mem_toList⟩

theorem insertHaltChecks_consistent_loop :
    (∃ ir', insertHaltChecks (fun _ set => set.toList) loopBuilder = .ok ir') ∧
      ∃ ir', insertHaltChecksWith assertConsistent (fun _ set => set.toList) loopBuilder =
        .ok ir' :=
  insertHaltChecks_consistent loopBuilder_built loopBuilder_cycles enumerates_toList

/-! ## Paths of the result -/

/-- The places of the safepoints of a block. -/
def safepointPlaces (ir : ExecIrBuilder) (b : Block) : List (Block × ℕ) :=
  ((ir.blockD b).stmts.zipIdx.filter fun p => ir.isSafepoint p.1).map fun p => (b, p.2)

/-- The statement at a place. -/
def stmtAt (ir : ExecIrBuilder) (p : Block × ℕ) : Stmt := (ir.blockD p.1).stmts.getD p.2 0

/-- The statement at this place is immediately followed by a halt check: a load of the halt
    reason whose result is tested by a branch to the block that takes and returns it. -/
def FollowedByHaltCheck (ir : ExecIrBuilder) (p : Block × ℕ) : Prop :=
  ∃ data load reason next leave take v, ir.blocks[p.1]? = some data ∧
    data.stmts.length = p.2 + 2 ∧ data.stmts[p.2 + 1]? = some load ∧
    ir.stmts[load]? = some ⟨[reason], .loadHaltReason⟩ ∧
    data.terminator = .brZ reason ⟨next, []⟩ ⟨leave, []⟩ ∧
    ir.leaveAndTakeHalt = some leave ∧ LeaveBlock ir leave take v

theorem map_stmtAt_safepointPlaces (ir : ExecIrBuilder) (b : Block) :
    (safepointPlaces ir b).map (stmtAt ir) = blockSafepoints ir b := by
  unfold safepointPlaces blockSafepoints safepointsOf
  rw [List.map_map]
  have hcongr : ((ir.blockD b).stmts.zipIdx.filter fun p => ir.isSafepoint p.1).map
      (stmtAt ir ∘ fun p => (b, p.2)) =
      ((ir.blockD b).stmts.zipIdx.filter fun p => ir.isSafepoint p.1).map Prod.fst := by
    refine List.map_congr_left fun p hp => ?_
    have hget := List.mem_zipIdx_iff_getElem?.1 (List.mem_filter.1 hp).1
    simp [stmtAt, List.getD_eq_getElem?_getD, hget]
  rw [hcongr]
  have hfilter := List.filter_map (p := ir.isSafepoint) (f := Prod.fst)
    (l := (ir.blockD b).stmts.zipIdx)
  rw [List.zipIdx_map_fst] at hfilter
  exact hfilter.symm

section Result

variable {ir₀ ir : ExecIrBuilder} {marked : Finset Stmt} {last : Block → Block}

/-- A marked safepoint in a part of a block is followed by a halt check. -/
theorem Covers.followed (href : Refines ir₀ ir marked last) {b e : Block} {ss : List Stmt}
    (h : Covers ir₀ ir marked b ss e) {p : Block × ℕ} (hp : p ∈ safepointPlaces ir b)
    (hmark : stmtAt ir p ∈ marked) : FollowedByHaltCheck ir p := by
  obtain ⟨⟨x, i⟩, hmem, rfl⟩ := List.mem_map.1 hp
  obtain ⟨hzip, hsafe⟩ := List.mem_filter.1 hmem
  have hget : (ir.blockD b).stmts[i]? = some x := List.mem_zipIdx_iff_getElem?.1 hzip
  have hat : stmtAt ir (b, i) = x := by
    simp [stmtAt, List.getD_eq_getElem?_getD, hget]
  rw [hat] at hmark
  cases h with
  | last get stmts unmarked =>
    rw [blockD_eq get, stmts] at hget
    exact (unmarked x (List.mem_of_getElem? hget) hmark).elim
  | @check _ c leave _ data next seg rest _ s load reason get stmts unmarked mark load_new load_data
      reason_new terminator leave_eq next_get parameters covers split =>
    obtain ⟨-, -, take, v, hleave, -⟩ := href.leave leave leave_eq
    rw [blockD_eq get, stmts] at hget
    -- the marked safepoint is the one before the load
    have hi : i = seg.length := by
      rcases Nat.lt_trichotomy i seg.length with hlt | heq | hgt
      · rw [List.getElem?_append_left hlt] at hget
        exact (unmarked x (List.mem_of_getElem? hget) hmark).elim
      · exact heq
      · rw [List.getElem?_append_right (Nat.le_of_lt hgt)] at hget
        rcases hk : i - seg.length with _ | _ | j
        · lia
        · rw [hk] at hget
          obtain rfl : load = x := by simpa using hget
          have hnot := href.newStmts load load_new
          rw [show ir.isSafepoint load = true from hsafe] at hnot
          cases hnot
        · rw [hk] at hget
          simp at hget
    subst hi
    refine ⟨data, load, reason, c, leave, take, v, get, ?_, ?_, load_data, terminator,
      leave_eq, hleave⟩
    · rw [stmts]
      simp
    · rw [stmts, List.getElem?_append_right (Nat.le_succ _)]
      simp

theorem Refines.safepointsOf_eq (href : Refines ir₀ ir marked last) (l : List Stmt) :
    safepointsOf ir l = safepointsOf ir₀ l := by
  unfold safepointsOf
  exact List.filter_congr fun x _ => href.isSafepoint_eq x

/-- The safepoints of a part that ends in a halt check. -/
theorem Refines.checked_part (href : Refines ir₀ ir marked last) {b : Block} {data : BlockData}
    {seg : List Stmt} {s load : Stmt} (get : ir.blocks[b]? = some data)
    (stmts : data.stmts = seg ++ [s, load]) (load_new : ir₀.stmts.length ≤ load) :
    blockSafepoints ir b = safepointsOf ir₀ (seg ++ [s]) := by
  unfold blockSafepoints
  rw [blockD_eq get, stmts, show seg ++ [s, load] = (seg ++ [s]) ++ [load] by simp,
    safepointsOf_append, safepointsOf_cons_false (href.newStmts load load_new),
      href.safepointsOf_eq]
  simp [safepointsOf]

/-- The safepoints of a part of a block are the first ones of those it covers. -/
theorem Covers.firstSafepoints (href : Refines ir₀ ir marked last) {b e : Block} {ss : List Stmt}
    (h : Covers ir₀ ir marked b ss e) : blockSafepoints ir b <+: safepointsOf ir₀ ss := by
  cases h with
  | last get stmts unmarked =>
    unfold blockSafepoints
    rw [blockD_eq get, stmts, href.safepointsOf_eq]
  | @check _ _ _ _ _ _ seg rest _ s load _ get stmts unmarked mark load_new load_data
    reason_new terminator
      leave_eq next_get parameters covers split =>
    rw [href.checked_part get stmts load_new, split,
      show seg ++ s :: rest = seg ++ [s] ++ rest by simp,
      safepointsOf_append (seg ++ [s]) rest]
    exact List.prefix_append _ _

/-- What a path of the result has met: the safepoints on a path of the original builder,
    up to the place it has come to. -/
theorem path_refines (hwf : WF ir₀) (href : Refines ir₀ ir marked last) {b : Block}
    {places : List (Block × ℕ)} (hpath : Path ir (safepointPlaces ir) b places) :
    (∀ p ∈ places, stmtAt ir p ∈ marked → FollowedByHaltCheck ir p) ∧
      ((∃ u < ir₀.blocks.length, ∃ l₀ before rest, PathIn ir₀ (blockSafepoints ir₀) u l₀ ∧
          (ir₀.blockD u).stmts = before ++ rest ∧ Covers ir₀ ir marked b rest (last u) ∧
          places.map (stmtAt ir) = l₀ ++ (safepointsOf ir₀ before ++ blockSafepoints ir b)) ∨
        (ir.succs b = [] ∧ ∃ u l, Path ir₀ (blockSafepoints ir₀) u l ∧
          places.map (stmtAt ir) <+: l)) := by
  -- a path that enters an original block
  have henter : ∀ (u : Block) (l₀ : List Stmt) (places : List (Block × ℕ)), u < ir₀.blocks.length →
      PathIn ir₀ (blockSafepoints ir₀) u l₀ → places.map (stmtAt ir) = l₀ →
      (∀ p ∈ places, stmtAt ir p ∈ marked → FollowedByHaltCheck ir p) →
      (∀ p ∈ places ++ safepointPlaces ir u, stmtAt ir p ∈ marked → FollowedByHaltCheck ir p) ∧
        ∃ before rest, (ir₀.blockD u).stmts = before ++ rest ∧
          Covers ir₀ ir marked u rest (last u) ∧
          (places ++ safepointPlaces ir u).map (stmtAt ir) =
            l₀ ++ (safepointsOf ir₀ before ++ blockSafepoints ir u) := by
    intro u l₀ places hu hin hmap hold
    have hcov := href.covers u hu
    refine ⟨fun p hp => ?_, [], _, rfl, hcov, ?_⟩
    · rcases List.mem_append.1 hp with hp | hp
      · exact hold p hp
      · exact hcov.followed href hp
    · rw [List.map_append, hmap, map_stmtAt_safepointPlaces]
      rfl
  induction hpath with
  | entry =>
    obtain ⟨hgood, before, rest, hsplit, hcov, hmap⟩ := henter Block.ENTRYPOINT [] [] hwf.entry
      (.inl ⟨rfl, rfl⟩) rfl (by simp)
    exact ⟨hgood, .inl ⟨_, hwf.entry, [], before, rest, .inl ⟨rfl, rfl⟩, hsplit, hcov, hmap⟩⟩
  | @step b w places path edge ih =>
    obtain ⟨hgood, ⟨u, hu, l₀, before, rest, hin, hsplit, hcov, hmap⟩ | ⟨hnone, -⟩⟩ := ih
    · have hfull : Path ir₀ (blockSafepoints ir₀) u (l₀ ++ blockSafepoints ir₀ u) :=
        path_cases.2 ⟨l₀, hin, rfl⟩
      cases hcov with
      | last get stmts unmarked =>
        -- the end of the original block
        have hsuccs : ir.succs (last u) = ir₀.succs u := by
          unfold ExecIrBuilder.succs
          rw [href.terminator u hu]
        rw [hsuccs] at edge
        have hw := (succs_lt hwf edge).2.2
        have hmap' : places.map (stmtAt ir) = l₀ ++ blockSafepoints ir₀ u := by
          rw [hmap]
          congr 1
          unfold blockSafepoints
          rw [href.safepointsOf_eq, blockD_eq get, stmts, hsplit, safepointsOf_append]
        obtain ⟨hgood', before', rest', hsplit', hcov', hmap''⟩ := henter w _ places hw
          (.inr ⟨u, edge, hfull⟩) hmap' hgood
        exact ⟨hgood', .inl ⟨w, hw, _, before', rest', .inr ⟨u, edge, hfull⟩, hsplit',
          hcov', hmap''⟩⟩
      | @check _ c leave _ data next seg rest' _ s load reason get stmts unmarked mark
        load_new load_data
          reason_new terminator leave_eq next_get parameters covers hrest =>
        have hpart := href.checked_part get stmts load_new
        have hedge : w = c ∨ w = leave := by
          unfold ExecIrBuilder.succs at edge
          rw [blockD_eq get, terminator, Terminator.mem_blockTargets] at edge
          simpa [Terminator.targets, eq_comm] using edge
        rcases hedge with rfl | rfl
        · -- no halt: on to the continuation
          refine ⟨fun p hp => ?_, .inl ⟨u, hu, l₀, before ++ (seg ++ [s]), rest', hin, ?_,
            covers, ?_⟩⟩
          · rcases List.mem_append.1 hp with hp | hp
            · exact hgood p hp
            · exact covers.followed href hp
          · rw [hsplit, hrest]
            simp
          · rw [List.map_append, hmap, hpart, map_stmtAt_safepointPlaces,
              safepointsOf_append before]
            simp
        · -- out of the function
          obtain ⟨-, -, take, v, hleave, htake, -⟩ := href.leave w leave_eq
          obtain ⟨d, hd, -, hstmts, hterm⟩ := hleave.block
          have hnil : safepointPlaces ir w = [] := by
            unfold safepointPlaces
            rw [blockD_eq hd, hstmts]
            simp [href.newStmts take htake]
          refine ⟨by rw [hnil, List.append_nil]; exact hgood, .inr ⟨?_, u, _, hfull, ?_⟩⟩
          · unfold ExecIrBuilder.succs
            rw [blockD_eq hd, hterm]
            rfl
          · rw [hnil, List.append_nil, hmap, hpart, ← safepointsOf_append]
            refine (List.prefix_append_right_inj _).2 ?_
            refine ⟨safepointsOf ir₀ rest', ?_⟩
            unfold blockSafepoints
            rw [← safepointsOf_append, hsplit, hrest]
            simp
    · rw [hnone] at edge
      cases edge

end Result

/-- On every path of the result, one of any `halt_check_every` consecutive safepoints is
    immediately followed by a halt check. -/
theorem haltCheck_in_window {ir : ExecIrBuilder} (hbuilt : Built ir)
    (hcycles : CyclesHaveSafepoints ir) {order : Block → Finset Block → List Block}
    (horder : Enumerates order) :
    ∃ ir', insertHaltChecks order ir = .ok ir' ∧ ∀ path, IsPath ir' path → ∀ window,
      window <:+: path.flatMap (safepointPlaces ir') → window.length = ir.haltCheckEvery.val →
      ∃ p ∈ window, FollowedByHaltCheck ir' p := by
  obtain ⟨ir', marked, last, hrun, href, hbound⟩ := insertHaltChecksWith_spec
    (fun _ _ => rfl) horder hbuilt.wf hcycles
  refine ⟨ir', hrun, fun path hpath window hwindow hlen => ?_⟩
  obtain ⟨b, -, hpathTo⟩ := path_of_blocks (safepointPlaces ir') hpath
  obtain ⟨hgood, hcases⟩ := path_refines hbuilt.wf href hpathTo
  -- the safepoints met are the first ones of a path of the original builder
  have hprefix : ∃ u l, Path ir (blockSafepoints ir) u l ∧
      (path.flatMap (safepointPlaces ir')).map (stmtAt ir') <+: l := by
    rcases hcases with ⟨u, hu, l₀, before, rest, hin, hsplit, hcov, hmap⟩ | ⟨-, hex⟩
    · refine ⟨u, _, path_cases.2 ⟨l₀, hin, rfl⟩, ?_⟩
      rw [hmap]
      refine (List.prefix_append_right_inj _).2 ?_
      unfold blockSafepoints
      rw [hsplit, safepointsOf_append]
      refine (List.prefix_append_right_inj _).2 ?_
      exact hcov.firstSafepoints href
    · exact hex
  obtain ⟨u, l, hpath₀, hpre⟩ := hprefix
  have hinfix : window.map (stmtAt ir') <:+: l := (hwindow.map _).trans hpre.isInfix
  obtain ⟨x, hx, hmark⟩ := (hbound u l hpath₀).window hinfix (by rw [List.length_map, hlen])
  obtain ⟨p, hp, rfl⟩ := List.mem_map.1 hx
  exact ⟨p, hp, hgood p (hwindow.subset hp) hmark⟩

theorem haltCheck_in_window_loop :
    ∃ ir', insertHaltChecks (fun _ set => set.toList) loopBuilder = .ok ir' ∧
      ∀ path, IsPath ir' path → ∀ window, window <:+: path.flatMap (safepointPlaces ir') →
        window.length = 2 → ∃ p ∈ window, FollowedByHaltCheck ir' p :=
  haltCheck_in_window loopBuilder_built loopBuilder_cycles enumerates_toList

end RapidArm.HaltCheck
