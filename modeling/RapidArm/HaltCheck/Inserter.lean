import RapidArm.HaltCheck.Pass
import RapidArm.HaltCheck.Refines

/-!
# The inserter

What `HaltCheckInserter` keeps consistent: the two edge maps are inverse to each other and
every safepoint is found at its place (`Consistent`). `Represents` ties an inserter to what
it stands for: the halt checks inserted so far and the states on the edges between the
blocks of the original builder, whatever the blocks were split into.

Results:
* `Represents.new`, `Represents.split`, `Represents.compensate`, `Represents.drain`,
  `Represents.addEdge`: the operations of the inserter succeed and keep the relation.
-/

namespace RapidArm.HaltCheck

open RapidArm.Ir RapidArm.Lib

/-! ## The edge maps -/

namespace HaltStateMap

/-- The state on the edge from `src` to `dst` in the forward map. -/
def edge (m : HaltStateMap) (src dst : Block) : Option HaltState :=
  (m.outgoingEdges src).bind fun edges => edges.lookup dst

/-- The sources of the edges to `dst` in the backward map. -/
def sources (m : HaltStateMap) (dst : Block) : Finset Block := (m.incomingEdges dst).getD ∅

/-- Every edge of the backward map is in the forward map, and conversely. -/
def Inverse (m : HaltStateMap) : Prop :=
  ∀ src dst, src ∈ m.sources dst ↔ (m.edge src dst).isSome = true

theorem edge_of_some {m : HaltStateMap} {src dst : Block} {e : EdgeStates}
    (h : m.outgoingEdges src = some e) : m.edge src dst = e.lookup dst := by
  unfold edge
  rw [h]
  rfl

theorem edge_of_none {m : HaltStateMap} {src dst : Block} (h : m.outgoingEdges src = none) :
    m.edge src dst = none := by
  unfold edge
  rw [h]
  rfl

theorem sources_of_some {m : HaltStateMap} {dst : Block} {s : Finset Block}
    (h : m.incomingEdges dst = some s) : m.sources dst = s := by
  unfold sources
  rw [h]
  rfl

/-- A new edge. -/
theorem addEdge_spec {m : HaltStateMap} (hm : m.Inverse) (src dst : Block) (state : HaltState) :
    (m.addEdge src dst state).1 = m.edge src dst ∧ (m.addEdge src dst state).2.Inverse ∧
      ∀ b v, (m.addEdge src dst state).2.edge b v =
        if b = src ∧ v = dst then some state else m.edge b v := by
  have hedge : ∀ v, ((m.outgoingEdges src).getD ∅).lookup v = m.edge src v := by
    intro v
    unfold edge
    cases m.outgoingEdges src with
    | none => rfl
    | some edges => rfl
  have hedges : ∀ b v, (m.addEdge src dst state).2.edge b v =
      if b = src ∧ v = dst then some state else m.edge b v := by
    intro b v
    by_cases hb : b = src
    · subst hb
      rw [edge_of_some (e := ((m.outgoingEdges b).getD ∅).insert dst state) (by simp [addEdge])]
      by_cases hv : v = dst
      · subst hv
        simp
      · rw [AList.lookup_insert_ne hv, hedge, if_neg (fun h => hv h.2)]
    · rw [if_neg (fun h => hb h.1)]
      simp [edge, addEdge, hb]
  refine ⟨hedge dst, ?_, hedges⟩
  intro b v
  rw [hedges]
  by_cases hv : v = dst
  · subst hv
    rw [sources_of_some (s := insert src (m.sources v)) (by simp [addEdge, sources]),
      Finset.mem_insert, hm]
    by_cases hb : b = src
    · simp [hb]
    · simp [hb]
  · rw [if_neg (fun h => hv h.2), ← hm]
    simp [sources, addEdge, hv]

/-- An edge that is drained. -/
theorem drainNext_spec {m : HaltStateMap} (hm : m.Inverse) {src dst : Block} {state : HaltState}
    (h : m.edge src dst = some state) :
    ∃ m', m.drainNext dst src = .ok (state, m') ∧ m'.Inverse ∧
      (∀ b, m'.outgoingEdges b ≠ none → m.outgoingEdges b ≠ none) ∧
      ∀ b v, m'.edge b v = if b = src ∧ v = dst then none else m.edge b v := by
  cases hout : m.outgoingEdges src with
  | none =>
    rw [edge_of_none hout] at h
    cases h
  | some edges =>
    rw [edge_of_some hout] at h
    have hrun : m.drainNext dst src = .ok (state, {
        outgoingEdges := Function.update m.outgoingEdges src (some (edges.erase dst))
        incomingEdges := Function.update m.incomingEdges dst
          ((m.incomingEdges dst).map fun set => set.erase src) }) := by
      unfold drainNext
      simp only [hout, h]
    refine ⟨_, hrun, ?_⟩
    have hedges : ∀ b v, HaltStateMap.edge {
        outgoingEdges := Function.update m.outgoingEdges src (some (edges.erase dst))
        incomingEdges := Function.update m.incomingEdges dst
          ((m.incomingEdges dst).map fun set => set.erase src) } b v =
        if b = src ∧ v = dst then none else m.edge b v := by
      intro b v
      by_cases hb : b = src
      · subst hb
        rw [edge_of_some (e := edges.erase dst) (by simp), edge_of_some hout]
        by_cases hv : v = dst
        · subst hv
          simp
        · rw [AList.lookup_erase_ne hv, if_neg (fun h => hv h.2)]
      · rw [if_neg (fun h => hb h.1)]
        simp [edge, hb]
    refine ⟨?_, ?_, hedges⟩
    · intro b v
      rw [hedges]
      by_cases hv : v = dst
      · subst hv
        have hset : HaltStateMap.sources {
            outgoingEdges := Function.update m.outgoingEdges src (some (edges.erase v))
            incomingEdges := Function.update m.incomingEdges v
              ((m.incomingEdges v).map fun set => set.erase src) } v = (m.sources v).erase src := by
          unfold sources
          simp only [Function.update_self]
          cases m.incomingEdges v with
          | none => rfl
          | some set => rfl
        rw [hset, Finset.mem_erase, hm]
        by_cases hb : b = src
        · simp [hb]
        · simp [hb]
      · rw [if_neg (fun h => hv h.2), ← hm]
        simp [sources, hv]
    · intro b hb
      by_cases hbs : b = src
      · subst hbs
        rw [hout]
        simp
      · simpa [hbs] using hb

/-- The edges of a block move to its continuation. -/
theorem remap_spec {m : HaltStateMap} (hm : m.Inverse) {block continuation : Block}
    (hne : continuation ≠ block) (hfresh : m.outgoingEdges continuation = none) :
    ∃ m', m.remap block continuation = .ok m' ∧ m'.Inverse ∧
      (∀ b, m'.outgoingEdges b ≠ none → m.outgoingEdges b ≠ none ∨ b = continuation) ∧
      ∀ b v, m'.edge b v =
        if b = continuation then m.edge block v else if b = block then none else m.edge b v := by
  cases hout : m.outgoingEdges block with
  | none =>
    have hrun : m.remap block continuation = .ok m := by
      unfold remap
      simp only [hout]
    refine ⟨m, hrun, hm, fun b hb => .inl hb, fun b v => ?_⟩
    split_ifs with h₁ h₂
    · rw [h₁, edge_of_none hfresh, edge_of_none hout]
    · rw [h₂, edge_of_none hout]
    · rfl
  | some edges =>
    have hnotIn : ∀ v, continuation ∉ m.sources v := by
      intro v hmem
      rw [hm, edge_of_none hfresh] at hmem
      cases hmem
    -- the sources of every target of the block are renamed, one target after another
    obtain ⟨incoming, hrun, hinc⟩ := foldlM_spec (l := edges.keys)
      (f := remapIncoming block continuation) (b := m.incomingEdges)
      (fun done incoming => ∀ v, incoming v =
        if v ∈ done then some (insert continuation ((m.sources v).erase block)) else
          m.incomingEdges v)
      (by simp) (by
        intro done v rest hkeys incoming hinc
        have hv : v ∈ edges.keys := by
          rw [hkeys]
          simp
        have hnot : v ∉ done := by
          have := edges.keys_nodup
          rw [hkeys, List.nodup_append] at this
          exact fun hmem => this.2.2 v hmem v List.mem_cons_self rfl
        have hblock : block ∈ m.sources v := by
          rw [hm, edge_of_some hout, AList.lookup_isSome, AList.mem_keys]
          exact hv
        have hsome : m.incomingEdges v = some (m.sources v) := by
          unfold sources at hblock ⊢
          cases hin : m.incomingEdges v with
          | none =>
            rw [hin] at hblock
            simp at hblock
          | some set => rfl
        refine ⟨Function.update incoming v (some (insert continuation ((m.sources v).erase block))),
          ?_, fun x => ?_⟩
        · unfold remapIncoming
          rw [hinc v, if_neg hnot, hsome]
          refine bind_eq_ok.2 ⟨(), require_eq_ok.2 hblock,
            bind_eq_ok.2 ⟨(), require_eq_ok.2 ?_, rfl⟩⟩
          exact fun hmem => hnotIn v (Finset.mem_of_mem_erase hmem)
        · by_cases hx : x = v
          · subst hx
            simp
          · rw [Function.update_of_ne hx, hinc x]
            simp [hx])
    refine ⟨{
      outgoingEdges := Function.update (Function.update m.outgoingEdges block none) continuation
        (some edges)
      incomingEdges := incoming }, ?_, ?_⟩
    · unfold remap
      simp only [hout]
      refine bind_eq_ok.2 ⟨incoming, hrun, bind_eq_ok.2 ⟨(), require_eq_ok.2 ?_, rfl⟩⟩
      rw [Function.update_of_ne hne, hfresh]
      rfl
    have hedges : ∀ b v, HaltStateMap.edge {
        outgoingEdges := Function.update (Function.update m.outgoingEdges block none) continuation
          (some edges)
        incomingEdges := incoming } b v =
        if b = continuation then m.edge block v else if b = block then none else m.edge b v := by
      intro b v
      split_ifs with h₁ h₂
      · subst h₁
        rw [edge_of_some (e := edges) (by simp), edge_of_some hout]
      · subst h₂
        rw [edge_of_none (by simp [h₁])]
      · simp [edge, h₁, h₂]
    refine ⟨?_, ?_, hedges⟩
    · intro b v
      rw [hedges]
      have hkey : v ∈ edges.keys ↔ (m.edge block v).isSome = true := by
        rw [edge_of_some hout, AList.lookup_isSome, AList.mem_keys]
      by_cases hv : v ∈ edges.keys
      · rw [sources_of_some (s := insert continuation ((m.sources v).erase block))
          ((hinc v).trans (if_pos hv)), Finset.mem_insert, Finset.mem_erase, hm]
        split_ifs with h₁ h₂
        · simp [h₁, hkey.1 hv]
        · simp [h₂, hne.symm]
        · simp [h₁, h₂]
      · have hsame : HaltStateMap.sources {
            outgoingEdges :=
              Function.update (Function.update m.outgoingEdges block none) continuation
              (some edges)
            incomingEdges := incoming } v = m.sources v := by
          unfold sources
          simp only [hinc v, if_neg hv]
        rw [hsame]
        split_ifs with h₁ h₂
        · subst h₁
          exact iff_of_false (hnotIn v) fun h => hv (hkey.2 h)
        · subst h₂
          rw [hm]
          exact iff_of_false (fun h => hv (hkey.2 h)) (by simp)
        · exact hm b v
    · intro b hb
      by_cases h₁ : b = continuation
      · exact .inr h₁
      · left
        by_cases h₂ : b = block
        · subst h₂
          rw [hout]
          simp
        · simpa [h₁, h₂] using hb

end HaltStateMap

/-! ## The positions of safepoints -/

/-- The statement `stmt` is the `i`-th one of `block`. -/
def Place (ir : ExecIrBuilder) (stmt : Stmt) (block : Block) (i : ℕ) : Prop :=
  ∃ data, ir.blocks[block]? = some data ∧ data.stmts[i]? = some stmt

/-- The map gives each safepoint's current block and index. -/
def Exact (ir : ExecIrBuilder) (positions : Stmt → Option (Block × ℕ)) : Prop :=
  ∀ stmt block i, positions stmt = some (block, i) ↔ ir.isSafepoint stmt = true ∧
    Place ir stmt block i

/-- The statements of all blocks are in the arena. -/
def StmtsInRange (ir : ExecIrBuilder) : Prop :=
  ∀ (b : Block) (data : BlockData), ir.blocks[b]? = some data → ∀ x ∈ data.stmts,
    x < ir.stmts.length

theorem Exact.onlyAt {ir : ExecIrBuilder} {positions : Stmt → Option (Block × ℕ)}
    (h : Exact ir positions) {stmt : Stmt} {block : Block} {data : BlockData} {i : ℕ}
    (hsafe : ir.isSafepoint stmt = true) (hget : ir.blocks[block]? = some data)
    (hhere : data.stmts[i]? = some stmt) :
    OnlyAt ir stmt block data i := by
  have hpos := (h stmt block i).2 ⟨hsafe, data, hget, hhere⟩
  refine ⟨hsafe, hget, hhere, fun b d j hd hj => ?_⟩
  have hpos' := (h stmt b j).2 ⟨hsafe, d, hd, hj⟩
  rw [hpos, Option.some.injEq, Prod.mk.injEq] at hpos'
  exact ⟨hpos'.1.symm, hpos'.2.symm⟩

/-- In a well-formed builder a statement stands at one place. -/
theorem place_unique {ir : ExecIrBuilder} (hwf : WF ir) {stmt : Stmt} {b b' : Block} {i i' : ℕ}
    (h : Place ir stmt b i) (h' : Place ir stmt b' i') : b = b' ∧ i = i' := by
  obtain ⟨d, hd, hi⟩ := h
  obtain ⟨d', hd', hi'⟩ := h'
  obtain ⟨hnodup, hpair⟩ := List.nodup_flatMap.1 hwf.nodup
  rw [List.pairwise_iff_getElem] at hpair
  obtain ⟨hb, rfl⟩ := List.getElem?_eq_some_iff.1 hd
  obtain ⟨hb', rfl⟩ := List.getElem?_eq_some_iff.1 hd'
  have hmem := List.mem_of_getElem? hi
  have hmem' := List.mem_of_getElem? hi'
  have heq : b = b' := by
    rcases Nat.lt_trichotomy b b' with hlt | heq | hgt
    · exact (hpair b b' hb hb' hlt hmem hmem').elim
    · exact heq
    · exact (hpair b' b hb' hb hgt hmem' hmem).elim
  subst heq
  refine ⟨rfl, ?_⟩
  have hlt : i < ir.blocks[b].stmts.length := (List.getElem?_eq_some_iff.1 hi).1
  exact (List.getElem?_inj hlt (hnodup _ (List.getElem_mem hb))).1 (hi.trans hi'.symm)

theorem mem_zipIdx {stmts : List Stmt} {stmt : Stmt} {i : ℕ} :
    (stmt, i) ∈ stmts.zipIdx ↔ stmts[i]? = some stmt :=
  List.mem_zipIdx_iff_getElem?

/-- The loop over the statements of one block; `met` are the places of the blocks before. -/
theorem indexBlock_spec {ir : ExecIrBuilder} (hwf : WF ir) {block : Block} {d : BlockData}
    (hget : ir.blocks[block]? = some d) {m : Stmt → Option (Block × ℕ)}
    {met : Stmt → Block → ℕ → Prop}
    (hm : ∀ stmt b i, m stmt = some (b, i) ↔ ir.isSafepoint stmt = true ∧ met stmt b i)
    (hplace : ∀ stmt b i, met stmt b i → Place ir stmt b i) (hnew : ∀ stmt i, ¬ met stmt block i) :
    ∃ m', d.stmts.zipIdx.foldlM (HaltCheckInserter.indexSafepoint ir block) m = .ok m' ∧
      ∀ stmt b i, m' stmt = some (b, i) ↔ ir.isSafepoint stmt = true ∧
        (met stmt b i ∨ (b = block ∧ (stmt, i) ∈ d.stmts.zipIdx)) := by
  refine foldlM_spec (fun seen (m' : Stmt → Option (Block × ℕ)) => ∀ stmt b i,
    m' stmt = some (b, i) ↔
    ir.isSafepoint stmt = true ∧ (met stmt b i ∨ (b = block ∧ (stmt, i) ∈ seen)))
      (by simpa using hm) ?_
  rintro seen ⟨x, i⟩ rest hl m' hm'
  have hsub : ∀ stmt j, (stmt, j) ∈ seen ++ [(x, i)] → Place ir stmt block j := by
    intro stmt j hmem
    refine ⟨d, hget, ?_⟩
    rw [← mem_zipIdx, hl, List.append_cons]
    exact List.mem_append_left _ hmem
  have hhere : Place ir x block i := hsub x i (by simp)
  have hlt : x < ir.stmts.length := by
    obtain ⟨d', hd', hx⟩ := hhere
    exact (hwf.blocks d' (List.mem_of_getElem? hd')).stmts_lt x (List.mem_of_getElem? hx)
  cases hsafe : ir.isSafepoint x with
  | false =>
    refine ⟨m', bind_eq_ok.2 ⟨false, (stmtIsSafepoint_eq hlt).trans (congrArg _ hsafe), rfl⟩, ?_⟩
    intro stmt b j
    rw [hm']
    refine and_congr_right fun hs => ?_
    have hne : stmt ≠ x := by
      rintro rfl
      rw [hs] at hsafe
      cases hsafe
    simp [hne]
  | true =>
    -- this safepoint was not met before
    have hnone : m' x = none := by
      by_contra hsome
      obtain ⟨⟨b, j⟩, hbj⟩ := Option.ne_none_iff_exists'.1 hsome
      rcases ((hm' x b j).1 hbj).2 with hmet | ⟨rfl, hj⟩
      · obtain ⟨rfl, rfl⟩ := place_unique hwf hhere (hplace x b j hmet)
        exact hnew x i hmet
      · obtain rfl := (place_unique hwf hhere (hsub x j (List.mem_append_left _ hj))).2
        have hidx := List.nodup_zipIdx_map_snd d.stmts
        rw [hl] at hidx
        simp only [List.map_append, List.map_cons, List.nodup_append] at hidx
        exact hidx.2.2 i (List.mem_map.2 ⟨_, hj, rfl⟩) i List.mem_cons_self rfl
    refine ⟨Function.update m' x (some (block, i)), ?_, ?_⟩
    · refine bind_eq_ok.2 ⟨true, (stmtIsSafepoint_eq hlt).trans (congrArg _ hsafe), ?_⟩
      exact bind_eq_ok.2 ⟨(), require_eq_ok.2 (by rw [hnone]; rfl), rfl⟩
    · intro stmt b j
      by_cases hs : stmt = x
      · subst hs
        rw [Function.update_self, Option.some.injEq, Prod.mk.injEq]
        constructor
        · rintro ⟨rfl, rfl⟩
          exact ⟨hsafe, .inr ⟨rfl, by simp⟩⟩
        · rintro ⟨-, hmet | ⟨rfl, hj⟩⟩
          · exact place_unique hwf hhere (hplace stmt b j hmet)
          · exact place_unique hwf hhere (hsub stmt j hj)
      · rw [Function.update_of_ne hs, hm']
        simp [hs]

/-- `HaltCheckInserter::new` finds every safepoint. -/
theorem new_spec {ir : ExecIrBuilder} (hwf : WF ir) :
    ∃ s, HaltCheckInserter.new ir = .ok s ∧ s.ir = ir ∧ s.map = .new ∧ s.semanticResetAfter = ∅ ∧
      Exact ir s.safepointStmtToBlockAndIndex := by
  obtain ⟨m, hrun, hm⟩ := foldlM_spec (l := ir.blocks.zipIdx)
    (f := fun m p => p.1.stmts.zipIdx.foldlM (HaltCheckInserter.indexSafepoint ir p.2) m)
    (b := fun _ => none) (fun done (m : Stmt → Option (Block × ℕ)) => ∀ stmt block i,
      m stmt = some (block, i) ↔ ir.isSafepoint stmt = true ∧
        ∃ d, (d, block) ∈ done ∧ d.stmts[i]? = some stmt) (by simp) (by
    rintro done ⟨d, block⟩ rest hl m hm
    have hget : ∀ d' b', (d', b') ∈ done ++ [(d, block)] → ir.blocks[b']? = some d' := by
      intro d' b' hmem
      have hzip : (d', b') ∈ ir.blocks.zipIdx := by
        rw [hl, List.append_cons]
        exact List.mem_append_left _ hmem
      exact List.mem_zipIdx_iff_getElem?.1 hzip
    have hnew : ∀ d', (d', block) ∉ done := by
      intro d' hd'
      have hidx := List.nodup_zipIdx_map_snd ir.blocks
      rw [hl] at hidx
      simp only [List.map_append, List.map_cons, List.nodup_append] at hidx
      exact hidx.2.2 block (List.mem_map.2 ⟨_, hd', rfl⟩) block List.mem_cons_self rfl
    obtain ⟨m', hrun', hm'⟩ := indexBlock_spec hwf (hget d block (by simp)) hm
      (fun stmt b i ⟨d', hd', hi⟩ => ⟨d', hget d' b (List.mem_append_left _ hd'), hi⟩)
      (fun stmt i ⟨d', hd', _⟩ => hnew d' hd')
    refine ⟨m', hrun', fun stmt b i => ?_⟩
    rw [hm']
    refine and_congr_right fun _ => ?_
    constructor
    · rintro (⟨d', hd', hi⟩ | ⟨rfl, hi⟩)
      · exact ⟨d', List.mem_append_left _ hd', hi⟩
      · exact ⟨d, by simp, mem_zipIdx.1 hi⟩
    · rintro ⟨d', hd', hi⟩
      rcases List.mem_append.1 hd' with hd' | hd'
      · exact .inl ⟨d', hd', hi⟩
      · rw [List.mem_singleton, Prod.mk.injEq] at hd'
        obtain ⟨rfl, rfl⟩ := hd'
        exact .inr ⟨rfl, mem_zipIdx.2 hi⟩)
  refine ⟨_, bind_eq_ok.2 ⟨m, hrun, rfl⟩, rfl, rfl, rfl, fun stmt block i => ?_⟩
  show m stmt = some (block, i) ↔ _
  rw [hm]
  refine and_congr_right fun _ => exists_congr fun d => ?_
  rw [List.mem_zipIdx_iff_getElem?]

section Move

variable {ir ir' : ExecIrBuilder} {block : Block} {data : BlockData} {i : ℕ} {leave : Block}
  {load stmt : Stmt} {reason : SSAValue} {positions : Stmt → Option (Block × ℕ)}

theorem Split.isSafepoint_eq (hs : Split ir ir' block data i leave load reason) (x : Stmt) :
    ir'.isSafepoint x = ir.isSafepoint x := by
  by_cases hx : x < ir.stmts.length
  · exact isSafepoint_of_stmts hs.stmts hx
  · rw [hs.notSafepoint x (Nat.le_of_not_lt hx)]
    cases hsafe : ir.isSafepoint x with
    | false => rfl
    | true => exact absurd (isSafepoint_lt hsafe) hx

/-- The blocks of the builder after a split. -/
theorem Split.cases (hs : Split ir ir' block data i leave load reason)
    (hleave : ∀ l, ir.leaveAndTakeHalt = some l → l < ir.blocks.length) {b : Block} {d : BlockData}
    (hd : ir'.blocks[b]? = some d) :
    (b = block ∧ d.stmts = data.stmts.take (i + 1) ++ [load]) ∨
      (b = ir.blocks.length ∧ d.stmts = data.stmts.drop (i + 1)) ∨
      (b ≠ block ∧ ir.blocks[b]? = some d) ∨
      (ir.blocks.length < b ∧ ∃ take, d.stmts = [take] ∧ ir.stmts.length ≤ take ∧
        take < ir'.stmts.length) := by
  have hlt := (List.getElem?_eq_some_iff.1 hd).1
  rcases Nat.lt_trichotomy b ir.blocks.length with hb | rfl | hb
  · by_cases hbb : b = block
    · subst hbb
      obtain rfl := Option.some.inj (hs.first.symm.trans hd)
      exact .inl ⟨rfl, rfl⟩
    · exact .inr (.inr (.inl ⟨hbb, (hs.others b hb hbb).symm.trans hd⟩))
  · obtain rfl := Option.some.inj (hs.continuation.symm.trans hd)
    exact .inr (.inl ⟨rfl, rfl⟩)
  · rcases hs.fresh b hlt with hle | rfl
    · exact absurd hle (Nat.not_le.2 hb)
    · rcases hs.leave_old with hold | ⟨-, -, take, v, hblock, htake, -⟩
      · exact absurd (hleave b hold) (Nat.lt_asymm hb)
      · obtain ⟨d', hd', -, hstmts, -⟩ := hblock.block
        obtain rfl := Option.some.inj (hd'.symm.trans hd)
        exact .inr (.inr (.inr ⟨hb, take, hstmts, htake,
          (List.getElem?_eq_some_iff.1 hblock.take).1⟩))

theorem Split.stmtsInRange (hs : Split ir ir' block data i leave load reason)
    (hleave : ∀ l, ir.leaveAndTakeHalt = some l → l < ir.blocks.length) (h : StmtsInRange ir) :
    StmtsInRange ir' := by
  intro b d hd x hx
  have hdata := h block data hs.get
  rcases Split.cases hs hleave hd with ⟨-, hstmts⟩ | ⟨-, hstmts⟩ | ⟨-, hold⟩ |
    ⟨-, take, hstmts, -, htake⟩
  · rw [hstmts] at hx
    rcases List.mem_append.1 hx with hx | hx
    · exact lt_of_lt_of_le (hdata x (List.mem_of_mem_take hx)) hs.stmts.length_le
    · rw [List.mem_singleton] at hx
      subst hx
      exact (List.getElem?_eq_some_iff.1 hs.load_data).1
  · rw [hstmts] at hx
    exact lt_of_lt_of_le (hdata x (List.mem_of_mem_drop hx)) hs.stmts.length_le
  · exact lt_of_lt_of_le (h b d hold x hx) hs.stmts.length_le
  · rw [hstmts, List.mem_singleton] at hx
    subst hx
    exact htake

/-- The safepoints behind the split move to the continuation. -/
theorem moveSafepoints_spec (hs : Split ir ir' block data i leave load reason)
    (hexact : Exact ir positions) (hrange : StmtsInRange ir) :
    ∃ m, (data.stmts.drop (i + 1)).zipIdx.foldlM
        (HaltCheckInserter.moveSafepoint ir' block i ir.blocks.length) positions = .ok m ∧
      ∀ stmt b j, m stmt = some (b, j) ↔
        (ir.isSafepoint stmt = true ∧ b = ir.blocks.length ∧
          (stmt, j) ∈ (data.stmts.drop (i + 1)).zipIdx) ∨
        ((∀ k, (stmt, k) ∉ (data.stmts.drop (i + 1)).zipIdx) ∧ positions stmt = some (b, j)) := by
  refine foldlM_spec (fun seen (m : Stmt → Option (Block × ℕ)) => ∀ stmt b j, m stmt = some (b, j) ↔
    (ir.isSafepoint stmt = true ∧ b = ir.blocks.length ∧ (stmt, j) ∈ seen) ∨
    ((∀ k, (stmt, k) ∉ seen) ∧ positions stmt = some (b, j))) (by simp) ?_
  rintro seen ⟨x, k⟩ rest hl m hm
  have hplace : ∀ y j, (y, j) ∈ seen ++ [(x, k)] → data.stmts[i + 1 + j]? = some y := by
    intro y j hmem
    have hzip : (y, j) ∈ (data.stmts.drop (i + 1)).zipIdx := by
      rw [hl, List.append_cons]
      exact List.mem_append_left _ hmem
    rw [mem_zipIdx, List.getElem?_drop] at hzip
    exact hzip
  have hx := hplace x k (by simp)
  have hlt : x < ir'.stmts.length :=
    lt_of_lt_of_le (hrange block data hs.get x (List.mem_of_getElem? hx)) hs.stmts.length_le
  cases hsafe : ir.isSafepoint x with
  | false =>
    refine ⟨m, bind_eq_ok.2 ⟨false, ?_, rfl⟩, fun stmt b j => ?_⟩
    · rw [stmtIsSafepoint_eq hlt, Split.isSafepoint_eq hs, hsafe]
    · rw [hm]
      by_cases hne : stmt = x
      · subst hne
        have hnone : positions stmt ≠ some (b, j) := by
          intro hpos
          rw [((hexact stmt b j).1 hpos).1] at hsafe
          cases hsafe
        simp [hsafe, hnone]
      · simp [hne]
  | true =>
    have honly := hexact.onlyAt hsafe hs.get hx
    have hnot : ∀ j, (x, j) ∉ seen := by
      intro j hj
      have hij := (honly.only block data _ hs.get (hplace x j (List.mem_append_left _ hj))).2
      have hjk : j = k := by lia
      subst hjk
      have hidx := List.nodup_zipIdx_map_snd (data.stmts.drop (i + 1))
      rw [hl] at hidx
      simp only [List.map_append, List.map_cons, List.nodup_append] at hidx
      exact hidx.2.2 j (List.mem_map.2 ⟨_, hj, rfl⟩) j List.mem_cons_self rfl
    have hold : m x = some (block, i + 1 + k) :=
      (hm x block (i + 1 + k)).2 (.inr ⟨hnot, (hexact x _ _).2 ⟨hsafe, data, hs.get, hx⟩⟩)
    refine ⟨Function.update m x (some (ir.blocks.length, k)), ?_, fun stmt b j => ?_⟩
    · refine bind_eq_ok.2 ⟨true, ?_, bind_eq_ok.2 ⟨(), require_eq_ok.2 ?_, rfl⟩⟩
      · rw [stmtIsSafepoint_eq hlt, Split.isSafepoint_eq hs, hsafe]
      · rw [hold]
        simp
        lia
    · by_cases hne : stmt = x
      · subst hne
        rw [Function.update_self, Option.some.injEq, Prod.mk.injEq]
        constructor
        · rintro ⟨rfl, rfl⟩
          exact .inl ⟨hsafe, rfl, by simp⟩
        · rintro (⟨-, rfl, hmem⟩ | ⟨hno, -⟩)
          · rcases List.mem_append.1 hmem with hmem | hmem
            · exact (hnot j hmem).elim
            · rw [List.mem_singleton, Prod.mk.injEq] at hmem
              exact ⟨rfl, hmem.2.symm⟩
          · exact (hno k (by simp)).elim
      · rw [Function.update_of_ne hne, hm]
        simp [hne]

/-- After the move every safepoint is found again. -/
theorem Exact.split (hexact : Exact ir positions) (hs : Split ir ir' block data i leave load reason)
    (hleave : ∀ l, ir.leaveAndTakeHalt = some l → l < ir.blocks.length)
    {m : Stmt → Option (Block × ℕ)} (hm : ∀ stmt b j, m stmt = some (b, j) ↔
      (ir.isSafepoint stmt = true ∧ b = ir.blocks.length ∧
        (stmt, j) ∈ (data.stmts.drop (i + 1)).zipIdx) ∨
      ((∀ k, (stmt, k) ∉ (data.stmts.drop (i + 1)).zipIdx) ∧ positions stmt = some (b, j))) :
    Exact ir' m := by
  intro x b j
  rw [hm, Split.isSafepoint_eq hs]
  have hdrop : ∀ k, (x, k) ∈ (data.stmts.drop (i + 1)).zipIdx ↔
      data.stmts[i + 1 + k]? = some x := by
    intro k
    rw [mem_zipIdx, List.getElem?_drop]
  constructor
  · rintro (⟨hsafe, rfl, hmem⟩ | ⟨hno, hpos⟩)
    · exact ⟨hsafe, _, hs.continuation, mem_zipIdx.1 hmem⟩
    · obtain ⟨hsafe, d, hd, hj⟩ := (hexact x b j).1 hpos
      refine ⟨hsafe, ?_⟩
      by_cases hb : b = block
      · subst hb
        obtain rfl := Option.some.inj (hs.get.symm.trans hd)
        -- the safepoint stands before the split
        have hji : j < i + 1 := by
          by_contra hge
          refine hno (j - (i + 1)) ((hdrop _).2 ?_)
          rw [show i + 1 + (j - (i + 1)) = j by lia]
          exact hj
        refine ⟨_, hs.first, ?_⟩
        have hlen : j < (data.stmts.take (i + 1)).length := by
          rw [List.length_take]
          exact lt_min hji (List.getElem?_eq_some_iff.1 hj).1
        rw [List.getElem?_append_left hlen, List.getElem?_take_of_lt hji]
        exact hj
      · exact ⟨d, (hs.others b (List.getElem?_eq_some_iff.1 hd).1 hb).trans hd, hj⟩
  · rintro ⟨hsafe, d, hd, hj⟩
    have hold : ∀ d' b' j', ir.blocks[b']? = some d' → d'.stmts[j']? = some x →
        positions x = some (b', j') :=
          fun d' b' j' hd' hj' => (hexact x b' j').2 ⟨hsafe, d', hd', hj'⟩
    rcases Split.cases hs hleave hd with ⟨rfl, hstmts⟩ | ⟨rfl, hstmts⟩ | ⟨hne, hd₀⟩ |
      ⟨-, take, hstmts, htake, -⟩
    · right
      rw [hstmts] at hj
      by_cases hlt : j < (data.stmts.take (i + 1)).length
      · rw [List.getElem?_append_left hlt] at hj
        have hji : j < i + 1 := lt_of_lt_of_le hlt (List.length_take_le _ _)
        rw [List.getElem?_take_of_lt hji] at hj
        have hpos := hold data b j hs.get hj
        refine ⟨fun k hk => ?_, hpos⟩
        have hpos' := hold data b _ hs.get ((hdrop k).1 hk)
        rw [hpos, Option.some.injEq, Prod.mk.injEq] at hpos'
        lia
      · -- the new statement is no safepoint
        have hload : x = load := by
          have hmem :=
            List.mem_of_getElem? ((List.getElem?_append_right (Nat.le_of_not_lt hlt)).symm.trans hj)
          simpa using hmem
        subst hload
        exact absurd (isSafepoint_lt hsafe) (Nat.not_lt.2 hs.load_new)
    · rw [hstmts] at hj
      exact .inl ⟨hsafe, rfl, mem_zipIdx.2 hj⟩
    · right
      have hpos := hold d b j hd₀ hj
      refine ⟨fun k hk => ?_, hpos⟩
      have hpos' := hold data block _ hs.get ((hdrop k).1 hk)
      rw [hpos, Option.some.injEq, Prod.mk.injEq] at hpos'
      exact hne hpos'.1
    · rw [hstmts] at hj
      have hmem := List.mem_of_getElem? hj
      rw [List.mem_singleton] at hmem
      subst hmem
      exact absurd (isSafepoint_lt hsafe) (Nat.not_lt.2 htake)

end Move

/-! ## What an inserter stands for -/

/-- What `HaltCheckInserter` keeps consistent. -/
structure Consistent (s : HaltCheckInserter) : Prop where
  edges : s.map.Inverse
  positions : Exact s.ir s.safepointStmtToBlockAndIndex

/-- The inserter has put halt checks after the `marked` safepoints of `ir₀`; `edge u v` is
    the state on the edge from `u` to `v`, kept at the block where `u` ends by now. -/
structure Represents (ir₀ : ExecIrBuilder) (marked : Finset Stmt) (last : Block → Block)
    (edge : Block → Block → Option HaltState) (s : HaltCheckInserter) : Prop where
  refines : Refines ir₀ s.ir marked last
  consistent : Consistent s
  range : StmtsInRange s.ir
  outgoing_lt : ∀ b, s.map.outgoingEdges b ≠ none → b < s.ir.blocks.length
  edges : ∀ u < ir₀.blocks.length, ∀ v, s.map.edge (last u) v = edge u v
  only : ∀ b v, (s.map.edge b v).isSome = true → ∃ u < ir₀.blocks.length, b = last u

/-- An enumeration of every set of blocks. -/
structure Enumerates (order : Block → Finset Block → List Block) : Prop where
  nodup : ∀ b set, (order b set).Nodup
  mem : ∀ b set x, x ∈ order b set ↔ x ∈ set

namespace Represents

variable {ir₀ : ExecIrBuilder} {marked : Finset Stmt} {last : Block → Block}
  {edge : Block → Block → Option HaltState} {s : HaltCheckInserter}
  {check : HaltCheckInserter → Except Panic Unit}

theorem new (hwf : WF ir₀) :
    ∃ s, HaltCheckInserter.new ir₀ = .ok s ∧ s.semanticResetAfter = ∅ ∧
      Represents ir₀ ∅ id (fun _ _ => none) s := by
  obtain ⟨s, hrun, hir, hmap, hreset, hexact⟩ := new_spec hwf
  refine ⟨s, hrun, hreset, ?_⟩
  have hedge : ∀ b v, s.map.edge b v = none := by
    intro b v
    rw [hmap]
    rfl
  refine ⟨?_, ⟨?_, ?_⟩, ?_, ?_, ?_, ?_⟩
  · rw [hir]
    exact Refines.refl hwf.leave
  · intro b v
    rw [hedge, hmap]
    simp [HaltStateMap.sources, HaltStateMap.new]
  · rw [hir]
    exact hexact
  · intro b data hdata
    rw [hir] at hdata ⊢
    exact (hwf.blocks data (List.mem_of_getElem? hdata)).stmts_lt
  · intro b hb
    rw [hmap] at hb
    exact (hb rfl).elim
  · exact fun u _ v => hedge u v
  · intro b v hsome
    rw [hedge] at hsome
    cases hsome

theorem leave_lt (h : Represents ir₀ marked last edge s) :
    ∀ l, s.ir.leaveAndTakeHalt = some l → l < s.ir.blocks.length :=
  fun l hl => (h.refines.leave l hl).2.1

/-- A halt check after an unmarked safepoint. -/
theorem split (h : Represents ir₀ marked last edge s)
    (hcheck : ∀ s, Consistent s → check s = .ok ()) {stmt : Stmt} {block : Block} {data : BlockData}
    {i : ℕ} (hat : OnlyAt s.ir stmt block data i) (hnot : stmt ∉ marked) :
    ∃ s', s.insertHaltCheckAfterSafepointIndexed check block i = .ok (s.ir.blocks.length, s') ∧
      s'.semanticResetAfter = s.semanticResetAfter ∧
      (∃ d, s'.ir.blocks[s.ir.blocks.length]? = some d ∧ d.stmts = data.stmts.drop (i + 1)) ∧
      Represents ir₀ (insert stmt marked) (fun u => moveLast s.ir block (last u)) edge s' := by
  obtain ⟨ir', leave, load, reason, hrun, hsplit⟩ := insertHaltCheckAt_spec hat.get hat.here
    hat.safepoint fun l hl => ⟨(h.refines.leave l hl).1, h.leave_lt l hl⟩
  obtain ⟨m, hmove, hm⟩ := moveSafepoints_spec hsplit h.consistent.positions h.range
  have hlt : block < s.ir.blocks.length := (List.getElem?_eq_some_iff.1 hat.get).1
  have hfresh : s.map.outgoingEdges s.ir.blocks.length = none := by
    by_contra hsome
    exact Nat.lt_irrefl _ (h.outgoing_lt _ hsome)
  obtain ⟨map, hremap, hinv, hout, hedges⟩ := HaltStateMap.remap_spec h.consistent.edges
    (Nat.ne_of_gt hlt) hfresh
  have hcons : Consistent { s with ir := ir', safepointStmtToBlockAndIndex := m, map } :=
    ⟨hinv, h.consistent.positions.split hsplit h.leave_lt hm⟩
  refine ⟨{ s with ir := ir', safepointStmtToBlockAndIndex := m, map }, ?_, rfl,
    ⟨_, hsplit.continuation, rfl⟩, h.refines.split hsplit hat hnot, hcons,
    Split.stmtsInRange hsplit h.leave_lt h.range, ?_, ?_, ?_⟩
  · refine bind_eq_ok.2 ⟨_, hrun, bind_eq_ok.2 ⟨_, arenaGet_eq_ok.2 hsplit.continuation, ?_⟩⟩
    refine bind_eq_ok.2 ⟨m, hmove, bind_eq_ok.2 ⟨map, hremap, ?_⟩⟩
    exact bind_eq_ok.2 ⟨(), hcheck _ hcons, rfl⟩
  · intro b hb
    rcases hout b hb with hb | rfl
    · exact (h.outgoing_lt b hb).trans hsplit.grows
    · exact hsplit.grows
  · intro u hu v
    rw [← h.edges u hu v]
    show map.edge (moveLast s.ir block (last u)) v = s.map.edge (last u) v
    rw [hedges]
    unfold moveLast
    by_cases hb : last u = block
    · rw [if_pos hb, if_pos rfl, hb]
    · rw [if_neg hb, if_neg (Nat.ne_of_lt (h.refines.last_lt u hu)), if_neg hb]
  · intro b v hsome
    replace hsome : (map.edge b v).isSome = true := hsome
    rw [hedges] at hsome
    unfold moveLast
    split_ifs at hsome with h₁ h₂
    · obtain ⟨u, hu, hb⟩ := h.only block v hsome
      exact ⟨u, hu, by rw [if_pos hb.symm, h₁]⟩
    · cases hsome
    · obtain ⟨u, hu, hb⟩ := h.only b v hsome
      exact ⟨u, hu, by rw [if_neg (fun heq => h₂ (hb.trans heq)), hb]⟩

end Represents

/-- Every statement of an original block is in one of its parts. -/
theorem Covers.place {ir₀ ir : ExecIrBuilder} {marked : Finset Stmt} {b e : Block} {ss : List Stmt}
    (h : Covers ir₀ ir marked b ss e) {stmt : Stmt} (hmem : stmt ∈ ss) :
    ∃ block i, Place ir stmt block i := by
  induction h with
  | last hget hss _ =>
    subst hss
    obtain ⟨i, hi⟩ := List.getElem?_of_mem hmem
    exact ⟨_, i, _, hget, hi⟩
  | @check b _ _ _ data _ seg rest ss s load _ hget hss _ _ _ _ _ _ _ _ _ _ hsplit ih =>
    rw [hsplit, List.append_cons] at hmem
    rcases List.mem_append.1 hmem with hseg | hrest
    · have hdata : stmt ∈ data.stmts := by
        rw [hss, show seg ++ [s, load] = seg ++ [s] ++ [load] by simp]
        exact List.mem_append_left _ hseg
      obtain ⟨i, hi⟩ := List.getElem?_of_mem hdata
      exact ⟨b, i, data, hget, hi⟩
    · exact ih hrest

namespace Represents

variable {ir₀ : ExecIrBuilder} {marked : Finset Stmt} {last : Block → Block}
  {edge : Block → Block → Option HaltState} {s : HaltCheckInserter}
  {check : HaltCheckInserter → Except Panic Unit}

/-- A compensating check after a safepoint of the original builder. -/
theorem compensate (h : Represents ir₀ marked last edge s)
    (hcheck : ∀ s, Consistent s → check s = .ok ()) {stmt : Stmt} {u : Block}
    (hu : u < ir₀.blocks.length) (hmem : stmt ∈ (ir₀.blockD u).stmts)
    (hsafe : ir₀.isSafepoint stmt = true) (hnot : stmt ∉ marked)
    (hreset : stmt ∉ s.semanticResetAfter) :
    ∃ b s' last', s.insertCompensatingHaltCheckAfterSafepoint check stmt = .ok (b, s') ∧
      s'.semanticResetAfter = insert stmt s.semanticResetAfter ∧
      Represents ir₀ (insert stmt marked) last' edge s' := by
  have hsafe' : s.ir.isSafepoint stmt = true := by
    rw [h.refines.isSafepoint_eq]
    exact hsafe
  obtain ⟨block, i, hplace⟩ := (h.refines.covers u hu).place hmem
  have hpos := (h.consistent.positions stmt block i).2 ⟨hsafe', hplace⟩
  obtain ⟨data, hget, hi⟩ := hplace
  have hsame : Represents ir₀ marked last edge
      { s with semanticResetAfter := insert stmt s.semanticResetAfter } :=
    ⟨h.refines, ⟨h.consistent.edges, h.consistent.positions⟩, h.range, h.outgoing_lt,
      h.edges, h.only⟩
  obtain ⟨s', hrun, hreset', -, hrep⟩ := hsame.split hcheck
    (h.consistent.positions.onlyAt hsafe' hget hi) hnot
  refine ⟨s.ir.blocks.length, s', _, ?_, hreset', hrep⟩
  refine bind_eq_ok.2 ⟨(), require_eq_ok.2 hreset, ?_⟩
  exact bind_eq_ok.2 ⟨(block, i), mapGet_eq hpos, hrun⟩

/-- Draining the edge from `u` to `v`. -/
theorem drainEdge (h : Represents ir₀ marked last edge s)
    (hcheck : ∀ s, Consistent s → check s = .ok ()) {u v : Block} (hu : u < ir₀.blocks.length)
    {state : HaltState} (hstate : edge u v = some state) (states : List HaltState) :
    ∃ s', drainEdge check v (states, s) (last u) = .ok (states ++ [state], s') ∧
      s'.semanticResetAfter = s.semanticResetAfter ∧ s'.ir = s.ir ∧
      Represents ir₀ marked last (fun a b => if a = u ∧ b = v then none else edge a b) s' := by
  obtain ⟨map, hrun, hinv, hout, hedges⟩ := HaltStateMap.drainNext_spec h.consistent.edges
    ((h.edges u hu v).trans hstate)
  have hcons : Consistent { s with map } := ⟨hinv, h.consistent.positions⟩
  refine ⟨{ s with map }, ?_, rfl, rfl, h.refines, hcons, h.range, ?_, ?_, ?_⟩
  · exact bind_eq_ok.2 ⟨_, hrun, bind_eq_ok.2 ⟨(), hcheck _ hcons, rfl⟩⟩
  · exact fun b hb => h.outgoing_lt b (hout b hb)
  · intro a ha b
    show map.edge (last a) b = _
    rw [hedges, h.edges a ha b]
    have hiff : (last a = last u ∧ b = v) ↔ (a = u ∧ b = v) :=
      and_congr_left fun _ => ⟨h.refines.last_inj a ha u hu, congrArg last⟩
    simp only [hiff]
  · intro b w hsome
    replace hsome : (map.edge b w).isSome = true := hsome
    rw [hedges] at hsome
    split_ifs at hsome
    · cases hsome
    · exact h.only b w hsome

/-- Draining all edges into `v`. -/
theorem drainIncoming (h : Represents ir₀ marked last edge s)
    (hcheck : ∀ s, Consistent s → check s = .ok ()) {order : Block → Finset Block → List Block}
    (horder : Enumerates order) (v : Block) (states : List HaltState) :
    ∃ new s', drainIncoming check order (states, s) v = .ok (states ++ new, s') ∧
      (∀ state, state ∈ new ↔ ∃ u < ir₀.blocks.length, edge u v = some state) ∧
      s'.semanticResetAfter = s.semanticResetAfter ∧ s'.ir = s.ir ∧
      Represents ir₀ marked last (fun a b => if b = v then none else edge a b) s' := by
  unfold HaltCheck.drainIncoming
  simp only
  cases hin : s.map.incomingEdges v with
  | none =>
    have hnone : ∀ u < ir₀.blocks.length, edge u v = none := by
      intro u hu
      rw [← h.edges u hu, ← Option.not_isSome_iff_eq_none, ← h.consistent.edges]
      simp [HaltStateMap.sources, hin]
    refine ⟨[], s, by simp, ?_, rfl, rfl, ?_⟩
    · intro state
      simp only [List.not_mem_nil, false_iff]
      rintro ⟨u, hu, hstate⟩
      rw [hnone u hu] at hstate
      cases hstate
    · refine ⟨h.refines, h.consistent, h.range, h.outgoing_lt, fun u hu w => ?_, h.only⟩
      rw [h.edges u hu w]
      split_ifs with hw
      · rw [hw, hnone u hu]
      · rfl
  | some set =>
    have hmem : ∀ b, b ∈ order v set ↔ (s.map.edge b v).isSome = true := by
      intro b
      rw [horder.mem, ← h.consistent.edges, HaltStateMap.sources_of_some hin]
    -- the sources drained so far have no edge to `v` any more
    obtain ⟨⟨states', s'⟩, hrun, new, hstates, hnew, hreset, hir, hrep⟩ := foldlM_spec
      (l := order v set) (f := HaltCheck.drainEdge check v) (b := (states, s))
      (fun done (acc : List HaltState × HaltCheckInserter) => ∃ new, acc.1 = states ++ new ∧
        (∀ state, state ∈ new ↔ ∃ u < ir₀.blocks.length, last u ∈ done ∧ edge u v = some state) ∧
        acc.2.semanticResetAfter = s.semanticResetAfter ∧ acc.2.ir = s.ir ∧
        Represents ir₀ marked last
          (fun a b => if last a ∈ done ∧ b = v then none else edge a b) acc.2)
      ⟨[], by simp, by simp, rfl, rfl, by simpa using h⟩ (by
        rintro done b rest hl ⟨acc, s₁⟩ ⟨new, hacc, hnew, hreset, hir, hrep⟩
        have hb : b ∈ order v set := by
          rw [hl]
          simp
        have hsome := (hmem b).1 hb
        obtain ⟨u, hu, rfl⟩ := h.only b v hsome
        rw [h.edges u hu v, Option.isSome_iff_exists] at hsome
        obtain ⟨state, hstate⟩ := hsome
        have hnot : last u ∉ done := by
          have hnodup := horder.nodup v set
          rw [hl, List.nodup_append] at hnodup
          exact fun hmem => hnodup.2.2 _ hmem _ List.mem_cons_self rfl
        obtain ⟨s₂, hrun, hreset₂, hir₂, hrep₂⟩ := hrep.drainEdge hcheck (v := v) hu
          (by rw [if_neg (fun h => hnot h.1)]; exact hstate) acc
        refine ⟨(acc ++ [state], s₂), hrun, new ++ [state], ?_, ?_, hreset₂.trans hreset,
          hir₂.trans hir, ?_⟩
        · simp only at hacc
          rw [hacc, List.append_assoc]
        · intro st
          rw [List.mem_append, hnew, List.mem_singleton]
          constructor
          · rintro (⟨w, hw, hwd, hst⟩ | rfl)
            · exact ⟨w, hw, List.mem_append_left _ hwd, hst⟩
            · exact ⟨u, hu, by simp, hstate⟩
          · rintro ⟨w, hw, hwd, hst⟩
            rcases List.mem_append.1 hwd with hwd | hwd
            · exact .inl ⟨w, hw, hwd, hst⟩
            · rw [List.mem_singleton] at hwd
              obtain rfl := h.refines.last_inj w hw u hu hwd
              exact .inr (Option.some.inj (hst.symm.trans hstate))
        · refine ⟨hrep₂.refines, hrep₂.consistent, hrep₂.range, hrep₂.outgoing_lt, ?_, hrep₂.only⟩
          intro w hw x
          rw [hrep₂.edges w hw x]
          have hiff : last w = last u ↔ w = u := ⟨h.refines.last_inj w hw u hu, congrArg last⟩
          simp only [List.mem_append, List.mem_singleton, hiff]
          by_cases hx : x = v
          · by_cases hwu : w = u
            · simp [hx, hwu]
            · simp [hx, hwu]
          · simp [hx])
    refine ⟨new, s', ?_, ?_, hreset, hir, ?_⟩
    · rw [← hstates]
      exact hrun
    · intro state
      rw [hnew]
      refine exists_congr fun u => and_congr_right fun hu => ?_
      rw [and_iff_right_iff_imp]
      intro hstate
      rw [hmem, h.edges u hu, hstate]
      rfl
    · refine ⟨hrep.refines, hrep.consistent, hrep.range, hrep.outgoing_lt, ?_, hrep.only⟩
      intro u hu w
      rw [hrep.edges u hu w]
      by_cases hw : w = v
      · subst hw
        rw [if_pos rfl]
        split_ifs with hd
        · rfl
        · rw [← h.edges u hu, ← Option.not_isSome_iff_eq_none, ← hmem]
          exact fun hmem' => hd ⟨hmem', rfl⟩
      · rw [if_neg (fun h => hw h.2), if_neg hw]

/-- A new edge from the end of `u` to `v`. -/
theorem addEdge (h : Represents ir₀ marked last edge s)
    {u v : Block} (hu : u < ir₀.blocks.length) (hnone : edge u v = none) (state : HaltState) :
    (s.map.addEdge (last u) v state).1 = none ∧
      Represents ir₀ marked last (fun a b => if a = u ∧ b = v then some state else edge a b)
        { s with map := (s.map.addEdge (last u) v state).2 } := by
  obtain ⟨hold, hinv, hedges⟩ := HaltStateMap.addEdge_spec h.consistent.edges (last u) v state
  refine ⟨?_, h.refines, ⟨hinv, h.consistent.positions⟩, h.range, ?_, ?_, ?_⟩
  · rw [hold, h.edges u hu v, hnone]
  · intro b hb
    by_cases hbu : b = last u
    · rw [hbu]
      exact h.refines.last_lt u hu
    · refine h.outgoing_lt b ?_
      simpa [HaltStateMap.addEdge, hbu] using hb
  · intro a ha b
    rw [hedges, h.edges a ha b]
    have hiff : (last a = last u ∧ b = v) ↔ (a = u ∧ b = v) :=
      and_congr_left fun _ => ⟨h.refines.last_inj a ha u hu, congrArg last⟩
    simp only [hiff]
  · intro b w hsome
    rw [hedges] at hsome
    split_ifs at hsome with hb
    · exact ⟨u, hu, hb.1⟩
    · exact h.only b w hsome

end Represents

end RapidArm.HaltCheck
