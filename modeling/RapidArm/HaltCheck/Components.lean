import RapidArm.HaltCheck.Blocks

/-!
# Processing a component

The components are processed in topological order. Between two of them the invariant
`PassInv` holds: the edges with a state are those that leave the blocks done so far, the
states are right for every path to them, and no path through these blocks is too long
without a halt check.

Results:
* `acyclic_spec`, `cyclic_spec`: processing a component keeps the invariant.
* `processComponent_spec`: one round of the loop of `insert_halt_checks`.
-/

namespace RapidArm.HaltCheck

open RapidArm.Ir RapidArm.Lib

theorem Represents.congr {ir₀ : ExecIrBuilder} {marked : Finset Stmt} {last : Block → Block}
    {edge edge' : Block → Block → Option HaltState} {s : HaltCheckInserter}
    (h : Represents ir₀ marked last edge s)
    (heq : ∀ u < ir₀.blocks.length, ∀ v, edge u v = edge' u v) :
    Represents ir₀ marked last edge' s :=
  ⟨h.refines, h.consistent, h.range, h.outgoing_lt,
    fun u hu v => (h.edges u hu v).trans (heq u hu v),
    h.only⟩

/-- The blocks after which a component comes: no edge leads from later blocks into them or
    into the component. -/
structure IsNext (ir₀ : ExecIrBuilder) (done component : List Block) : Prop where
  lt : ∀ v ∈ component, v < ir₀.blocks.length
  nodup : component.Nodup
  fresh : ∀ v ∈ component, v ∉ done
  pred : ∀ u v, v ∈ component → v ∈ ir₀.succs u → u ∈ component ∨ u ∈ done
  closed : ∀ u v, v ∈ done → v ∈ ir₀.succs u → u ∈ done

/-- The invariant after the blocks `done`. -/
structure PassInv {ir₀ : ExecIrBuilder} (every : NonZeroUsize) (done : List Block) (k : Marks ir₀)
    (last : Block → Block) (edge : Block → Block → Option HaltState)
    (s : HaltCheckInserter) : Prop where
  stands : Stands k last edge s
  scanned : ∀ v, ∀ x ∈ blockSafepoints ir₀ v, x ∈ k.scanned → v ∈ done
  edges : ∀ u < ir₀.blocks.length, ∀ v, (edge u v).isSome = true ↔
    u ∈ done ∧ v ∈ ir₀.succs u ∧ v ∉ done
  sound : ∀ u < ir₀.blocks.length, ∀ v state, edge u v = some state → Sound every k state
  tracks : ∀ u < ir₀.blocks.length, ∀ v state l, edge u v = some state →
    Path ir₀ (blockSafepoints ir₀) u l → Tracks every k.marked l state
  bounded : ∀ u ∈ done, ∀ l, Path ir₀ (blockSafepoints ir₀) u l → Bounded every.val k.marked l

section Component

variable {ir₀ : ExecIrBuilder} {every : NonZeroUsize} {k : Marks ir₀} {last : Block → Block}
  {edge : Block → Block → Option HaltState} {s : HaltCheckInserter} {g : SccGraph} {id : ℕ}
  {check : HaltCheckInserter → Except Panic Unit} {order : Block → Finset Block → List Block}
  {done component : List Block}

/-! ## Into the component -/

/-- Draining the edges into all blocks of a component. -/
theorem drainComponent_spec (hcheck : ∀ s, Consistent s → check s = .ok ())
    (horder : Enumerates order) (hs : Stands k last edge s) (hnodup : component.Nodup) :
    ∃ incoming s', component.foldlM (drainIncoming check order) ([], s) = .ok (incoming, s') ∧
      (∀ state, state ∈ incoming ↔ ∃ v ∈ component, ∃ u < ir₀.blocks.length,
        edge u v = some state) ∧
      Stands k last (fun a b => if b ∈ component then none else edge a b) s' := by
  obtain ⟨⟨incoming, s'⟩, hrun, hmem, hstands⟩ := foldlM_spec (l := component)
    (f := drainIncoming check order) (b := ([], s))
    (fun seen (acc : List HaltState × HaltCheckInserter) =>
      (∀ state, state ∈ acc.1 ↔ ∃ v ∈ seen, ∃ u < ir₀.blocks.length, edge u v = some state) ∧
      Stands k last (fun a b => if b ∈ seen then none else edge a b) acc.2)
    ⟨by simp, by simpa using hs⟩ (by
      rintro seen v rest hl ⟨acc, s₁⟩ ⟨hmem, hstands⟩
      have hv : v ∉ seen := by
        rw [hl, List.nodup_append] at hnodup
        exact fun h => hnodup.2.2 v h v List.mem_cons_self rfl
      obtain ⟨new, s₂, hrun, hnew, hreset, -, hrep⟩ :=
        hstands.represents.drainIncoming hcheck horder v acc
      refine ⟨(acc ++ new, s₂), hrun, fun state => ?_, hrep.congr fun u _ w => ?_, ?_⟩
      · simp only [List.mem_append, hmem, hnew, if_neg hv]
        constructor
        · rintro (⟨w, hw, hex⟩ | hex)
          · exact ⟨w, .inl hw, hex⟩
          · exact ⟨v, .inr (List.mem_singleton.2 rfl), hex⟩
        · rintro ⟨w, hw | hw, hex⟩
          · exact .inl ⟨w, hw, hex⟩
          · rw [List.mem_singleton] at hw
            exact .inr (hw ▸ hex)
      · by_cases hw : w = v
        · simp [hw]
        · simp [hw]
      · rw [hreset]
        exact hstands.reset)
  exact ⟨incoming, s', hrun, hmem, hstands⟩

/-- Draining and merging: the state at the start of a component. -/
theorem enterComponent_spec (hcheck : ∀ s, Consistent s → check s = .ok ())
    (horder : Enumerates order) (h : PassInv every done k last edge s)
    (hnext : IsNext ir₀ done component) :
    ∃ incoming s₁ stateIn s₂ k₂ last₂,
      component.foldlM (drainIncoming check order) ([], s) = .ok (incoming, s₁) ∧
      HaltState.mergeHaltStates check s₁ every incoming = .ok (stateIn, s₂) ∧
      k.Le k₂ ∧ k₂.scanned = k.scanned ∧
      Stands k₂ last₂ (fun a b => if b ∈ component then none else edge a b) s₂ ∧
        Sound every k₂ stateIn ∧
      (∀ u v l, v ∈ component → v ∈ ir₀.succs u → u ∈ done → Path ir₀ (blockSafepoints ir₀) u l →
        Tracks every k₂.marked l stateIn) ∧
      ((∀ v ∈ component, ∀ u, v ∉ ir₀.succs u) → stateIn = HaltState.fromRemaining every) := by
  obtain ⟨incoming, s₁, hdrain, hmem, hstands₁⟩ :=
    drainComponent_spec hcheck horder h.stands hnext.nodup
  obtain ⟨stateIn, s₂, k₂, last₂, hmerge, hle, hscanned, hstands₂, hsound, hempty, htracks⟩ :=
    mergeHaltStates_spec hcheck hstands₁ incoming (by
      intro state hstate
      obtain ⟨v, -, u, hu, hedge⟩ := (hmem state).1 hstate
      exact h.sound u hu v state hedge)
  refine ⟨incoming, s₁, stateIn, s₂, k₂, last₂, hdrain, hmerge, hle, hscanned, hstands₂,
    hsound, ?_, ?_⟩
  · intro u v l hv huv hu hpath
    refine htracks l ?_
    have hlt : u < ir₀.blocks.length := by
      by_contra hge
      simp [ExecIrBuilder.succs, ExecIrBuilder.blockD, List.getD_eq_getElem?_getD,
        List.getElem?_eq_none (Nat.le_of_not_lt hge), BlockData.empty, Terminator.blockTargets,
        Terminator.targets] at huv
    obtain ⟨state, hstate⟩ := Option.isSome_iff_exists.1
      ((h.edges u hlt v).2 ⟨hu, huv, hnext.fresh v hv⟩)
    exact ⟨state, (hmem state).2 ⟨v, hv, u, hlt, hstate⟩, h.tracks u hlt v state l hstate hpath⟩
  · intro hnone
    refine hempty (List.eq_nil_iff_forall_not_mem.2 fun state hstate => ?_)
    obtain ⟨v, hv, u, hu, hedge⟩ := (hmem state).1 hstate
    refine hnone v hv u ((h.edges u hu v).1 ?_).2.1
    rw [hedge]
    rfl

/-! ## Out of a block -/

/-- The edges out of a block that was processed. -/
theorem addEdges_spec (hcheck : ∀ s, Consistent s → check s = .ok ())
    (hs : Stands k last edge s) {v : Block} (hv : v < ir₀.blocks.length) {inside : Block → Bool}
    (hinside : ∀ w ∈ ir₀.succs v, staysInside g id w = .ok (inside w))
    (hnone : ∀ w ∈ ir₀.succs v, inside w = false → edge v w = none) (state : HaltState) :
    ∃ s', (ir₀.succs v).foldlM (addSuccessorEdge check g id (last v) state) s = .ok s' ∧
      Stands k last (fun a b => if a = v ∧ b ∈ ir₀.succs v ∧ inside b = false then some state
        else edge a b) s' := by
  have hnodup : (ir₀.succs v).Nodup := Terminator.blockTargets_nodup _
  refine foldlM_spec (fun seen s' => Stands k last (fun a b =>
    if a = v ∧ b ∈ seen ∧ inside b = false then some state else edge a b) s') (by simpa using hs) ?_
  intro seen w rest hl s₁ hs₁
  have hw : w ∈ ir₀.succs v := by
    rw [hl]
    simp
  have hnot : w ∉ seen := by
    rw [hl, List.nodup_append] at hnodup
    exact fun h => hnodup.2.2 w h w List.mem_cons_self rfl
  unfold addSuccessorEdge
  rw [hinside w hw, ok_bind]
  cases hin : inside w with
  | true =>
    refine ⟨s₁, rfl, hs₁.represents.congr fun u _ x => ?_, hs₁.reset⟩
    by_cases hx : x = w
    · simp [hx, hin]
    · simp [hx]
  | false =>
    obtain ⟨hold, hrep⟩ := hs₁.represents.addEdge (v := w) hv
      (by rw [if_neg (fun h => hnot h.2.1)]; exact hnone w hw hin) state
    refine ⟨{ s₁ with map := (s₁.map.addEdge (last v) w state).2 }, ?_, hrep.congr fun u _ x => ?_,
      hs₁.reset⟩
    · have hisNone : (s₁.map.addEdge (last v) w state).1.isNone = true := by
        rw [hold]
        rfl
      refine bind_eq_ok.2 ⟨(), require_eq_ok.2 hisNone, ?_⟩
      exact bind_eq_ok.2 ⟨(), hcheck _ hrep.consistent, rfl⟩
    · by_cases hx : x = w
      · subst hx
        by_cases hu : u = v
        · simp [hu, hin]
        · simp [hu]
      · simp [hx]

/-- Processing one block of a component, with the edges out of it. -/
theorem processComponentBlock_spec (hcheck : ∀ s, Consistent s → check s = .ok ()) (hwf : WF ir₀)
    {v : Block} {J : List Stmt → Marks ir₀ → BlockHalter → Prop} (hJ : HalterStep every v J)
    (hv : v < ir₀.blocks.length) (hs : Stands k last edge s)
    (hnew : ∀ x ∈ blockSafepoints ir₀ v, x ∉ k.scanned) {halter : BlockHalter} (hj : J [] k halter)
    {inside : Block → Bool} (hinside : ∀ w ∈ ir₀.succs v, staysInside g id w = .ok (inside w))
    (hnone : ∀ w ∈ ir₀.succs v, inside w = false → edge v w = none) :
    ∃ halter' s' k' last', processComponentBlock check g every id (halter, s) v =
        .ok (halter'.takeCurrentState.2, s') ∧ k.Le k' ∧
      k'.scanned = k.scanned ∪ (blockSafepoints ir₀ v).toFinset ∧ k'.reset = k.reset ∧
      Stands k' last' (fun a b => if a = v ∧ b ∈ ir₀.succs v ∧ inside b = false then
        some halter'.takeCurrentState.1 else edge a b) s' ∧
          J (blockSafepoints ir₀ v) k' halter' := by
  obtain ⟨halter', s₁, k', last', hrun, hle, hscanned, hreset, hstands, hj'⟩ :=
    processBlock_spec hcheck hJ hwf hv hs hnew hj
  obtain ⟨s', hrun', hstands'⟩ :=
    addEdges_spec hcheck hstands hv hinside hnone halter'.takeCurrentState.1
  refine ⟨halter', s', k', last', ?_, hle, hscanned, hreset, hstands', hj'⟩
  have hsuccs : s₁.ir.successors (last' v) = .ok (ir₀.succs v) := by
    rw [successors_eq (hstands.represents.refines.last_lt v hv)]
    unfold ExecIrBuilder.succs
    rw [hstands.represents.refines.terminator v hv]
  exact bind_eq_ok.2 ⟨_, hrun, bind_eq_ok.2 ⟨_, hsuccs, bind_eq_ok.2 ⟨s', hrun', rfl⟩⟩⟩

/-! ## Acyclic components -/

theorem acyclic_spec (hcheck : ∀ s, Consistent s → check s = .ok ()) (hwf : WF ir₀) {v : Block}
    (h : PassInv every done k last edge s) (hnext : IsNext ir₀ done [v]) (hself : v ∉ ir₀.succs v)
    (hacyclic : g.componentIsCyclic id = false) {k₂ : Marks ir₀} {last₂ : Block → Block}
    {s₂ : HaltCheckInserter} {stateIn : HaltState} (hle : k.Le k₂)
    (hscanned₂ : k₂.scanned = k.scanned)
    (hs : Stands k₂ last₂ (fun a b => if b ∈ [v] then none else edge a b) s₂)
    (hsound : Sound every k₂ stateIn)
    (htracks : ∀ u w l, w ∈ [v] → w ∈ ir₀.succs u → u ∈ done → Path ir₀ (blockSafepoints ir₀) u l →
      Tracks every k₂.marked l stateIn)
    (hfresh : (∀ w ∈ [v], ∀ u, w ∉ ir₀.succs u) → stateIn = HaltState.fromRemaining every) :
    ∃ halter s' k' last' edge', [v].foldlM (processComponentBlock check g every id)
        (.acyclic stateIn, s₂) = .ok (halter, s') ∧
      @PassInv ir₀ every (done ++ [v]) k' last' edge' s' := by
  have hv : v < ir₀.blocks.length := hnext.lt v List.mem_cons_self
  have hvdone : v ∉ done := hnext.fresh v List.mem_cons_self
  -- what is known at the start of the block, on every path to it
  have hstart : AcyclicInv every (PathIn ir₀ (blockSafepoints ir₀) v) [] k₂ (.acyclic stateIn) := by
    refine ⟨stateIn, rfl, hsound, fun l hl => ?_⟩
    rw [List.append_nil]
    rcases hl with ⟨rfl, rfl⟩ | ⟨u, huv, hpath⟩
    · rw [hfresh fun w hw u hwu => (succs_lt hwf hwu).1 (List.mem_singleton.1 hw)]
      refine ⟨⟨List.nil_suffix, ?_⟩, bounded_nil every.2⟩
      simp [HaltState.fromRemaining]
    · have hu : u ∈ done := by
        refine (hnext.pred u v List.mem_cons_self huv).resolve_left fun hmem => ?_
        rw [List.mem_singleton] at hmem
        exact hself (hmem ▸ huv)
      exact ⟨htracks u v l List.mem_cons_self huv hu hpath,
        (h.bounded u hu l hpath).mono hle.marked⟩
  have hinside : ∀ w ∈ ir₀.succs v, staysInside g id w = .ok false := by
    intro w _
    unfold staysInside
    rw [if_neg (by simp [hacyclic])]
  have hnoedge : ∀ w, edge v w = none := by
    intro w
    rw [← Option.not_isSome_iff_eq_none, h.edges v hv w]
    exact fun hmem => hvdone hmem.1
  obtain ⟨halter, s', k', last', hrun, hle', hscanned', -, hstands', state, rfl, hsound', hpaths⟩ :=
    processComponentBlock_spec hcheck hwf (acyclic_step every v _) hv hs (by
      intro x hx hmem
      rw [hscanned₂] at hmem
      exact hvdone (h.scanned v x hx hmem)) hstart hinside (by
      intro w _ _
      rw [hnoedge w]
      simp)
  refine ⟨.acyclic state, s', k', last', _, ?_, hstands', ?_, ?_, ?_, ?_, ?_⟩
  · rw [List.foldlM_cons, hrun]
    rfl
  · intro w x hx hmem
    rw [hscanned', Finset.mem_union, List.mem_toFinset, hscanned₂] at hmem
    rcases hmem with hmem | hmem
    · exact List.mem_append_left _ (h.scanned w x hx hmem)
    · obtain rfl := block_unique hwf (mem_safepointsOf.1 hx).1 (mem_safepointsOf.1 hmem).1
      simp
  · intro u hu w
    simp only [and_true, List.mem_append, List.mem_singleton]
    by_cases huv : u = v
    · subst huv
      by_cases hw : w ∈ ir₀.succs u
      · rw [if_pos ⟨rfl, hw⟩]
        have hwu : w ≠ u := fun heq => hself (heq ▸ hw)
        have hwdone : w ∉ done := fun hmem => hvdone (hnext.closed u w hmem hw)
        simp [hw, hwu, hwdone]
      · rw [if_neg (fun hmem => hw hmem.2), hnoedge w]
        simp [hw]
    · rw [if_neg (fun hmem => huv hmem.1)]
      by_cases hwv : w = v
      · simp [hwv]
      · rw [if_neg hwv, h.edges u hu w]
        simp [huv, hwv]
  · intro u hu w st hst
    simp only [and_true] at hst
    split_ifs at hst with hnew hw
    · obtain rfl := Option.some.inj hst
      exact hsound'
    · exact ((h.sound u hu w st hst).mono hle).mono hle'
  · intro u hu w st l hst hpath
    simp only [and_true] at hst
    split_ifs at hst with hnew hw
    · obtain rfl := Option.some.inj hst
      obtain ⟨rfl, -⟩ := hnew
      obtain ⟨l₀, hin, rfl⟩ := path_cases.1 hpath
      exact (hpaths l₀ hin).1
    · exact (h.tracks u hu w st l hst hpath).mono (hle.marked.trans hle'.marked)
  · intro u hu l hpath
    rcases List.mem_append.1 hu with hu | hu
    · exact (h.bounded u hu l hpath).mono (hle.marked.trans hle'.marked)
    · rw [List.mem_singleton] at hu
      subst hu
      obtain ⟨l₀, hin, rfl⟩ := path_cases.1 hpath
      exact (hpaths l₀ hin).2

/-! ## Cyclic components -/

/-- The state on the edges out of a block of a cyclic component. -/
def cyclicState (ir₀ : ExecIrBuilder) (every remaining : NonZeroUsize) (v : Block) : HaltState :=
  .fromRemaining (if blockSafepoints ir₀ v = [] then remaining else every)

/-- The edges after the blocks `seen` of a cyclic component. -/
def cyclicEdge (ir₀ : ExecIrBuilder) (every remaining : NonZeroUsize) (component seen : List Block)
    (edge : Block → Block → Option HaltState) (a b : Block) : Option HaltState :=
  if a ∈ seen ∧ b ∈ ir₀.succs a ∧ b ∉ component then some (cyclicState ir₀ every remaining a)
  else if b ∈ component then none else edge a b

/-- The blocks of a cyclic component: every safepoint gets a halt check. -/
theorem cyclicBlocks_spec (hcheck : ∀ s, Consistent s → check s = .ok ()) (hwf : WF ir₀)
    (h : PassInv every done k last edge s) (hnext : IsNext ir₀ done component)
    (hinside : ∀ w < ir₀.blocks.length, staysInside g id w = .ok (decide (w ∈ component)))
    {k₂ : Marks ir₀} {last₂ : Block → Block} {s₂ : HaltCheckInserter} (remaining : NonZeroUsize)
    (hscanned₂ : k₂.scanned = k.scanned)
    (hs : Stands k₂ last₂ (fun a b => if b ∈ component then none else edge a b) s₂) :
    ∃ s' k' last', component.foldlM (processComponentBlock check g every id)
      (.cyclic none remaining, s₂) =
        .ok (.cyclic none remaining, s') ∧ k₂.Le k' ∧
      Stands k' last' (cyclicEdge ir₀ every remaining component component edge) s' ∧
      (∀ x ∈ k'.scanned, x ∈ k.scanned ∨ ∃ w ∈ component, x ∈ blockSafepoints ir₀ w) ∧
      ∀ w ∈ component, ∀ x ∈ blockSafepoints ir₀ w, x ∈ k'.marked := by
  have hnoedge : ∀ v ∈ component, ∀ w, edge v w = none := by
    intro v hv w
    rw [← Option.not_isSome_iff_eq_none, h.edges v (hnext.lt v hv) w]
    exact fun hmem => hnext.fresh v hv hmem.1
  obtain ⟨⟨halter, s'⟩, hrun, rfl, k', last', hle, hstands, hscanned, hmarked⟩ := foldlM_spec
    (l := component) (f := processComponentBlock check g every id)
      (b := (.cyclic none remaining, s₂))
    (fun seen (acc : BlockHalter × HaltCheckInserter) => acc.1 = .cyclic none remaining ∧
      ∃ (k' : Marks ir₀) (last' : Block → Block), k₂.Le k' ∧
        Stands k' last' (cyclicEdge ir₀ every remaining component seen edge) acc.2 ∧
        (∀ x ∈ k'.scanned, x ∈ k.scanned ∨ ∃ w ∈ seen, x ∈ blockSafepoints ir₀ w) ∧
        ∀ w ∈ seen, ∀ x ∈ blockSafepoints ir₀ w, x ∈ k'.marked)
    ⟨rfl, k₂, last₂, .refl k₂, ⟨hs.represents.congr fun u _ w => by simp [cyclicEdge], hs.reset⟩,
      fun x hx => .inl (hscanned₂ ▸ hx), by simp⟩ (by
      rintro seen v rest hl ⟨halter, s₃⟩ ⟨rfl, k₃, last₃, hle₃, hstands₃, hscanned₃, hmarked₃⟩
      have hvc : v ∈ component := by
        rw [hl]
        simp
      have hvseen : v ∉ seen := by
        have hnodup := hnext.nodup
        rw [hl, List.nodup_append] at hnodup
        exact fun hmem => hnodup.2.2 v hmem v List.mem_cons_self rfl
      have hv := hnext.lt v hvc
      obtain ⟨halter', s₄, k₄, last₄, hrun, hle₄, hscanned₄, -, hstands₄, rfl, hseen⟩ :=
        processComponentBlock_spec hcheck hwf (cyclic_step every remaining v) hv hstands₃ (by
          intro x hx hmem
          rcases hscanned₃ x hmem with hold | ⟨w, hw, hxw⟩
          · exact hnext.fresh v hvc (h.scanned v x hx hold)
          · obtain rfl := block_unique hwf (mem_safepointsOf.1 hx).1 (mem_safepointsOf.1 hxw).1
            exact hvseen hw) ⟨rfl, by simp⟩
          (fun w hw => hinside w (succs_lt hwf hw).2.2) (by
            intro w _ hout
            unfold cyclicEdge
            rw [if_neg (fun hmem => hvseen hmem.1), if_neg (of_decide_eq_false hout),
              hnoedge v hvc])
      refine ⟨(.cyclic none remaining, s₄), hrun, rfl, k₄, last₄, hle₃.trans hle₄,
        ⟨hstands₄.represents.congr fun u _ w => ?_, hstands₄.reset⟩, ?_, ?_⟩
      · unfold cyclicEdge
        by_cases huv : u = v
        · subst huv
          have hstate :
              (BlockHalter.cyclic (if blockSafepoints ir₀ u = [] then none else some every)
              remaining).takeCurrentState.1 = cyclicState ir₀ every remaining u := by
            unfold BlockHalter.takeCurrentState cyclicState
            split_ifs
            · rfl
            · rfl
          simp [hstate, hvseen]
        · simp [huv]
      · intro x hx
        rw [hscanned₄, Finset.mem_union, List.mem_toFinset] at hx
        rcases hx with hx | hx
        · rcases hscanned₃ x hx with hold | ⟨w, hw, hxw⟩
          · exact .inl hold
          · exact .inr ⟨w, List.mem_append_left _ hw, hxw⟩
        · exact .inr ⟨v, by simp, hx⟩
      · intro w hw x hx
        rcases List.mem_append.1 hw with hw | hw
        · exact hle₄.marked (hmarked₃ w hw x hx)
        · rw [List.mem_singleton] at hw
          subst hw
          exact hseen x hx)
  exact ⟨s', k', last', hrun, hle, hstands, hscanned, hmarked⟩

/-- The paths to a block of a component whose safepoints are all marked: what was met
    before the component, and marked safepoints. -/
theorem cyclic_path {marked : Finset Stmt} {remaining : NonZeroUsize}
    (hnext : IsNext ir₀ done component) (hrem : remaining ≤ every)
    (hmarked : ∀ w ∈ component, ∀ x ∈ blockSafepoints ir₀ w, x ∈ marked)
    (henter : ∀ u v l, v ∈ component → v ∈ ir₀.succs u → u ∈ done →
      Path ir₀ (blockSafepoints ir₀) u l → gap marked l + remaining.val ≤ every.val ∧
        Bounded every.val marked l) {v : Block} {l : List Stmt}
    (hpath : Path ir₀ (blockSafepoints ir₀) v l) (hv : v ∈ component) :
    ∃ before inner, l = before ++ (inner ++ blockSafepoints ir₀ v) ∧ (∀ x ∈ inner, x ∈ marked) ∧
      gap marked before + remaining.val ≤ every.val ∧ Bounded every.val marked before := by
  induction hpath with
  | entry =>
    refine ⟨[], [], rfl, by simp, ?_, bounded_nil every.2⟩
    rw [gap_nil, Nat.zero_add]
    exact hrem
  | @step u v l path edge ih =>
    rcases hnext.pred u v hv edge with hu | hu
    · obtain ⟨before, inner, rfl, hinner, hgap, hbound⟩ := ih hu
      refine ⟨before, inner ++ blockSafepoints ir₀ u, by simp, fun x hx => ?_, hgap, hbound⟩
      rcases List.mem_append.1 hx with hx | hx
      · exact hinner x hx
      · exact hmarked u hu x hx
    · obtain ⟨hgap, hbound⟩ := henter u v l hv edge hu path
      exact ⟨l, [], by simp, by simp, hgap, hbound⟩

theorem cyclic_spec (hcheck : ∀ s, Consistent s → check s = .ok ()) (hwf : WF ir₀)
    (h : PassInv every done k last edge s) (hnext : IsNext ir₀ done component)
    (hinside : ∀ w < ir₀.blocks.length, staysInside g id w = .ok (decide (w ∈ component)))
    {k₂ : Marks ir₀} {last₂ : Block → Block} {s₂ : HaltCheckInserter} {stateIn : HaltState}
    (hle : k.Le k₂) (hscanned₂ : k₂.scanned = k.scanned)
    (hs : Stands k₂ last₂ (fun a b => if b ∈ component then none else edge a b) s₂)
    (hsound : Sound every k₂ stateIn)
    (htracks : ∀ u w l, w ∈ component → w ∈ ir₀.succs u → u ∈ done →
      Path ir₀ (blockSafepoints ir₀) u l → Tracks every k₂.marked l stateIn) :
    ∃ halter s' k' last' edge', component.foldlM (processComponentBlock check g every id)
        (.cyclic none stateIn.remaining, s₂) = .ok (halter, s') ∧
      @PassInv ir₀ every (done ++ component) k' last' edge' s' := by
  obtain ⟨s', k', last', hrun, hle', hstands', hscanned', hmarked⟩ :=
    cyclicBlocks_spec hcheck hwf h hnext hinside stateIn.remaining hscanned₂ hs
  have hrem : stateIn.remaining ≤ every := by
    have := hsound.count
    show stateIn.remaining.val ≤ every.val
    lia
  have hpaths := fun v l hpath hv => cyclic_path (v := v) (l := l) hnext hrem hmarked
    (fun u w l hw huw hu hpath => ⟨((htracks u w l hw huw hu hpath).mono hle'.marked).gap,
      ((h.bounded u hu l hpath).mono hle.marked).mono hle'.marked⟩) hpath hv
  refine ⟨_, s', k', last', _, hrun, hstands', ?_, ?_, ?_, ?_, ?_⟩
  · intro w x hx hmem
    rcases hscanned' x hmem with hold | ⟨v, hv, hxv⟩
    · exact List.mem_append_left _ (h.scanned w x hx hold)
    · obtain rfl := block_unique hwf (mem_safepointsOf.1 hx).1 (mem_safepointsOf.1 hxv).1
      exact List.mem_append_right _ hv
  · intro u hu w
    unfold cyclicEdge
    by_cases huc : u ∈ component
    · have hedge : edge u w = none := by
        rw [← Option.not_isSome_iff_eq_none, h.edges u hu w]
        exact fun hmem => hnext.fresh u huc hmem.1
      by_cases hw : w ∈ ir₀.succs u
      · have hwdone : w ∉ done := fun hmem => hnext.fresh u huc (hnext.closed u w hmem hw)
        by_cases hwc : w ∈ component
        · simp [hwc]
        · simp [huc, hw, hwc, hwdone]
      · simp [hw, hedge]
    · by_cases hwc : w ∈ component
      · simp [hwc]
      · simp [huc, hwc, h.edges u hu w]
  · intro u hu w st hst
    unfold cyclicEdge at hst
    split_ifs at hst with hnew hw
    · obtain rfl := Option.some.inj hst
      unfold cyclicState
      split_ifs
      · exact sound_fromRemaining hrem
      · exact sound_fromRemaining (le_refl _)
    · exact ((h.sound u hu w st hst).mono hle).mono hle'
  · intro u hu w st l hst hpath
    unfold cyclicEdge at hst
    split_ifs at hst with hnew hw
    · obtain rfl := Option.some.inj hst
      obtain ⟨before, inner, rfl, hinner, hgap, -⟩ := hpaths u l hpath hnew.1
      refine ⟨List.nil_suffix, ?_⟩
      unfold cyclicState HaltState.fromRemaining
      split_ifs with hnil
      · -- no safepoint in this block
        rw [hnil, List.append_nil]
        by_cases hempty : inner = []
        · rw [hempty, List.append_nil]
          exact hgap
        · rw [gap_append_marked before hinner hempty, Nat.zero_add]
          exact hrem
      · rw [← List.append_assoc, gap_append_marked _ (hmarked u hnew.1) hnil, Nat.zero_add]
    · exact (h.tracks u hu w st l hst hpath).mono (hle.marked.trans hle'.marked)
  · intro u hu l hpath
    rcases List.mem_append.1 hu with hu | hu
    · exact (h.bounded u hu l hpath).mono (hle.marked.trans hle'.marked)
    · obtain ⟨before, inner, rfl, hinner, -, hbound⟩ := hpaths u l hpath hu
      refine hbound.append_marked (fun x hx => ?_) every.2
      rcases List.mem_append.1 hx with hx | hx
      · exact hinner x hx
      · exact hmarked u hu x hx

end Component

end RapidArm.HaltCheck
