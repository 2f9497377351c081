import RapidArm.HaltCheck.Countdown
import RapidArm.HaltCheck.Paths

/-!
# Processing a block

`process_block` scans the safepoints of a block in order and splits the block after those
that the halter asks for. What the halter knows about the safepoints seen so far is a
parameter `J`, kept by each safepoint; the run over the whole block keeps it.

Results:
* `processBlock_spec`: the rule for a whole block.
* `acyclic_step`, `cyclic_step`: what the two halters keep.
-/

namespace RapidArm.HaltCheck

open RapidArm.Ir RapidArm.Lib

/-- What a halter keeps: `J seen k halter` after the safepoints `seen` of the block `v`. -/
def HalterStep {ir₀ : ExecIrBuilder} (every : NonZeroUsize) (v : Block)
    (J : List Stmt → Marks ir₀ → BlockHalter → Prop) : Prop :=
  ∀ seen (k : Marks ir₀) halter x (hv : v < ir₀.blocks.length) (hx : x ∈ (ir₀.blockD v).stmts)
    (hsafe : ir₀.isSafepoint x = true), x ∉ k.scanned → J seen k halter →
    ∃ halt halter', halter.processSafepoint every x = .ok (halt, halter') ∧
      J (seen ++ [x]) (k.scan x halt hv hx hsafe) halter'

section Block

variable {ir₀ : ExecIrBuilder} {every : NonZeroUsize} {v : Block}
  {J : List Stmt → Marks ir₀ → BlockHalter → Prop}

/-- The marks after a scan that stopped at a halt check, or went through. -/
structure Scanned (k k' : Marks ir₀) (seen : List Stmt) (halt : Option Stmt) : Prop where
  le : k.Le k'
  scanned : k'.scanned = k.scanned ∪ seen.toFinset
  marked : k'.marked = halt.elim k.marked fun x => insert x k.marked
  reset : k'.reset = k.reset

/-- One scan over statements of the block `v` that were not scanned before. -/
theorem scan_spec (hJ : HalterStep every v J) (hv : v < ir₀.blocks.length) {ir : ExecIrBuilder}
    (hsame : ∀ x, ir.isSafepoint x = ir₀.isSafepoint x) (stmts : List Stmt) :
    ∀ (i : ℕ) (seen : List Stmt) (k : Marks ir₀) (halter : BlockHalter), J seen k halter →
      (∀ x ∈ stmts, x ∈ (ir₀.blockD v).stmts ∧ x < ir.stmts.length) → stmts.Nodup →
      (∀ x ∈ stmts, x ∉ k.scanned) →
      ∃ split halter' k', BlockHalter.scan ir every stmts i halter = .ok (split, halter') ∧
        ((split = none ∧ Scanned k k' (safepointsOf ir₀ stmts) none ∧
            J (seen ++ safepointsOf ir₀ stmts) k' halter') ∨
          ∃ before x after, stmts = before ++ x :: after ∧ split = some (i + before.length) ∧
            ir₀.isSafepoint x = true ∧ Scanned k k' (safepointsOf ir₀ (before ++ [x])) (some x) ∧
            J (seen ++ safepointsOf ir₀ (before ++ [x])) k' halter') := by
  induction stmts with
  | nil =>
    intro i seen k halter hj _ _ _
    refine ⟨none, halter, k, rfl, .inl ⟨rfl, ⟨.refl k, ?_, rfl, rfl⟩, ?_⟩⟩
    · simp [safepointsOf]
    · simpa [safepointsOf] using hj
  | cons x stmts ih =>
    intro i seen k halter hj hmem hnodup hnew
    obtain ⟨hx, hlt⟩ := hmem x List.mem_cons_self
    have hmem' : ∀ y ∈ stmts, y ∈ (ir₀.blockD v).stmts ∧ y < ir.stmts.length :=
      fun y hy => hmem y (List.mem_cons_of_mem _ hy)
    have hnew' : ∀ y ∈ stmts, y ∉ k.scanned := fun y hy => hnew y (List.mem_cons_of_mem _ hy)
    rw [List.nodup_cons] at hnodup
    unfold BlockHalter.scan
    rw [stmtIsSafepoint_eq hlt, ok_bind, hsame]
    cases hsafe : ir₀.isSafepoint x with
    | false =>
      obtain ⟨split, halter', k', hrun, hcases⟩ := ih (i + 1) seen k halter hj hmem' hnodup.2 hnew'
      refine ⟨split, halter', k', hrun, ?_⟩
      rw [safepointsOf_cons_false hsafe]
      rcases hcases with hnone | ⟨before, y, after, hsplit, hpos, hsafe', hscan, hj'⟩
      · exact .inl hnone
      · refine .inr ⟨x :: before, y, after, by rw [hsplit]; rfl, ?_, hsafe', ?_, ?_⟩
        · rw [hpos, List.length_cons]
          congr 1
          lia
        · rw [List.cons_append, safepointsOf_cons_false hsafe]
          exact hscan
        · rw [List.cons_append, safepointsOf_cons_false hsafe]
          exact hj'
    | true =>
      have hxnew : x ∉ k.scanned := hnew x List.mem_cons_self
      obtain ⟨halt, halter₁, hstep, hj₁⟩ := hJ seen k halter x hv hx hsafe hxnew hj
      have hle := k.le_scan halt hv hx hsafe hxnew
      rw [if_pos rfl, hstep, ok_bind]
      cases halt with
      | true =>
        refine ⟨some i, halter₁, _, rfl,
          .inr ⟨[], x, stmts, rfl, rfl, hsafe, ⟨hle, ?_, rfl, rfl⟩, ?_⟩⟩
        · simp [Marks.scan, safepointsOf, hsafe]
        · simpa [safepointsOf, hsafe] using hj₁
      | false =>
        have hnew₁ : ∀ y ∈ stmts, y ∉ (k.scan x false hv hx hsafe).scanned := by
          intro y hy hmem
          rcases Finset.mem_insert.1 hmem with rfl | hold
          · exact hnodup.1 hy
          · exact hnew' y hy hold
        obtain ⟨split, halter', k', hrun, hcases⟩ :=
          ih (i + 1) (seen ++ [x]) _ halter₁ hj₁ hmem' hnodup.2
          hnew₁
        refine ⟨split, halter', k', hrun, ?_⟩
        rw [safepointsOf_cons_true hsafe]
        rcases hcases with ⟨hnone, hscan, hj'⟩ | ⟨before, y, after, hsplit, hpos,
          hsafe', hscan, hj'⟩
        · refine .inl ⟨hnone, ⟨hle.trans hscan.le, ?_, hscan.marked, hscan.reset⟩, ?_⟩
          · rw [hscan.scanned]
            ext y
            simp [Marks.scan]
          · simpa using hj'
        · refine .inr ⟨x :: before, y, after, by rw [hsplit]; rfl, ?_, hsafe',
            ⟨hle.trans hscan.le, ?_, hscan.marked, hscan.reset⟩, ?_⟩
          · rw [hpos, List.length_cons]
            congr 1
            lia
          · rw [hscan.scanned, List.cons_append, safepointsOf_cons_true hsafe]
            ext y
            simp [Marks.scan]
          · rw [List.cons_append, safepointsOf_cons_true hsafe]
            simpa using hj'

variable {check : HaltCheckInserter → Except Panic Unit} {edge : Block → Block → Option HaltState}

/-- The rounds of `process_block` from the part of `v` that is the last one by now. -/
theorem breakDownLoop_spec (hcheck : ∀ s, Consistent s → check s = .ok ())
    (hJ : HalterStep every v J) (hv : v < ir₀.blocks.length) (fuel : ℕ) :
    ∀ (seen : List Stmt) (k : Marks ir₀) (last : Block → Block) (s : HaltCheckInserter)
      (halter : BlockHalter) (data : BlockData), Stands k last edge s →
      s.ir.blocks[last v]? = some data → data.stmts.length < fuel →
      (∀ x ∈ data.stmts, x ∈ (ir₀.blockD v).stmts) → data.stmts.Nodup →
      (∀ x ∈ data.stmts, x ∉ k.scanned) → J seen k halter →
      ∃ halter' s' k' last', BlockHalter.breakDownLoop check every fuel halter s (last v) =
          .ok (last' v, halter', s') ∧ k.Le k' ∧
        k'.scanned = k.scanned ∪ (safepointsOf ir₀ data.stmts).toFinset ∧ k'.reset = k.reset ∧
        Stands k' last' edge s' ∧ J (seen ++ safepointsOf ir₀ data.stmts) k' halter' := by
  induction fuel with
  | zero => exact fun _ _ _ _ _ _ _ _ hlt => (Nat.not_lt_zero _ hlt).elim
  | succ fuel ih =>
    intro seen k last s halter data hs hget hfuel hmem hnodup hnew hj
    have hsame := hs.represents.refines.isSafepoint_eq
    obtain ⟨split, halter₁, k₁, hrun, hcases⟩ := scan_spec hJ hv hsame data.stmts 0 seen k halter hj
      (fun x hx => ⟨hmem x hx, hs.represents.range _ data hget x hx⟩) hnodup hnew
    unfold BlockHalter.breakDownLoop
    rcases hcases with ⟨rfl, hscan, hj₁⟩ | ⟨before, x, after, hsplit, rfl, hsafe, hscan, hj₁⟩
    · refine ⟨halter₁, s, k₁, last, ?_, hscan.le, hscan.scanned, hscan.reset, ⟨?_, ?_⟩, hj₁⟩
      · exact bind_eq_ok.2 ⟨data, arenaGet_eq_ok.2 hget, bind_eq_ok.2 ⟨_, hrun, rfl⟩⟩
      · rw [hscan.marked]
        exact hs.represents
      · rw [hscan.reset]
        exact hs.reset
    · -- the part is split after `x`; the rounds go on in the continuation
      have hhere : data.stmts[before.length]? = some x := by
        rw [hsplit]
        simp
      have hxmem : x ∈ data.stmts := List.mem_of_getElem? hhere
      have hat := hs.represents.consistent.positions.onlyAt ((hsame x).trans hsafe) hget hhere
      have hnot : x ∉ k.marked := fun hm => hnew x hxmem (k.marked_sub hm)
      obtain ⟨s₁, hrun₁, hreset₁, ⟨d, hd, hdstmts⟩, hrep₁⟩ := hs.represents.split hcheck hat hnot
      have hlast : moveLast s.ir (last v) (last v) = s.ir.blocks.length := if_pos rfl
      have hafter : d.stmts = after := by
        rw [hdstmts, hsplit, List.append_cons]
        exact List.drop_left' (by simp)
      have hsub : ∀ y ∈ after, y ∈ data.stmts := by
        intro y hy
        rw [hsplit]
        exact List.mem_append_right _ (List.mem_cons_of_mem _ hy)
      have hdisj : x ∉ after ∧ ∀ y ∈ after, y ∉ before := by
        rw [hsplit, List.nodup_append, List.nodup_cons] at hnodup
        exact ⟨hnodup.2.1.1, fun y hy hb => hnodup.2.2 y hb y (List.mem_cons_of_mem _ hy) rfl⟩
      have hstands₁ : Stands k₁ (fun u => moveLast s.ir (last v) (last u)) edge s₁ := by
        refine ⟨?_, ?_⟩
        · rw [hscan.marked]
          exact hrep₁
        · rw [hreset₁, hs.reset, hscan.reset]
      obtain ⟨halter', s', k', last', hrun', hle', hscanned', hreset', hstands', hj'⟩ := ih
        (seen ++ safepointsOf ir₀ (before ++ [x])) k₁ _ s₁ halter₁ d hstands₁
          (by rw [hlast]; exact hd)
        (by
          rw [hafter]
          have := congrArg List.length hsplit
          simp at this
          lia)
        (fun y hy => hmem y (hsub y (hafter ▸ hy)))
        (by
          rw [hafter]
          rw [hsplit, List.nodup_append, List.nodup_cons] at hnodup
          exact hnodup.2.1.2)
        (by
          intro y hy hyk
          rw [hafter] at hy
          rw [hscan.scanned, Finset.mem_union, List.mem_toFinset, mem_safepointsOf] at hyk
          rcases hyk with hyk | ⟨hyk, -⟩
          · exact hnew y (hsub y hy) hyk
          · rcases List.mem_append.1 hyk with hb | hb
            · exact hdisj.2 y hy hb
            · rw [List.mem_singleton] at hb
              exact hdisj.1 (hb ▸ hy))
        hj₁
      have hall : safepointsOf ir₀ data.stmts =
          safepointsOf ir₀ (before ++ [x]) ++ safepointsOf ir₀ d.stmts := by
        rw [← safepointsOf_append, hafter, hsplit, List.append_cons]
      refine ⟨halter', s', k', last', ?_, hscan.le.trans hle', ?_, hreset'.trans hscan.reset,
        hstands', ?_⟩
      · refine bind_eq_ok.2 ⟨data, arenaGet_eq_ok.2 hget, bind_eq_ok.2 ⟨_, hrun, ?_⟩⟩
        rw [hlast] at hrun'
        refine bind_eq_ok.2 ⟨(s.ir.blocks.length, s₁), ?_, hrun'⟩
        rw [Nat.zero_add]
        exact hrun₁
      · rw [hscanned', hscan.scanned, hall, List.toFinset_append, Finset.union_assoc]
      · rw [hall, ← List.append_assoc]
        exact hj'

/-- A block none of whose safepoints is marked has not been split. -/
theorem Covers.unsplit {ir : ExecIrBuilder} {marked : Finset Stmt} {b e : Block} {ss : List Stmt}
    (h : Covers ir₀ ir marked b ss e) (hno : ∀ x ∈ ss, x ∉ marked) :
    e = b ∧ ∃ data, ir.blocks[b]? = some data ∧ data.stmts = ss := by
  cases h with
  | last get stmts _ => exact ⟨rfl, _, get, stmts⟩
  | @check _ _ _ _ _ _ seg rest _ s _ _ _ _ _ mark _ _ _ _ _ _ _ _ split =>
    refine (hno s ?_ mark).elim
    rw [split]
    simp

/-- The whole block `v`, none of whose safepoints was scanned before. -/
theorem processBlock_spec (hcheck : ∀ s, Consistent s → check s = .ok ())
    (hJ : HalterStep every v J) (hwf : WF ir₀) (hv : v < ir₀.blocks.length) {k : Marks ir₀}
    {last : Block → Block} {s : HaltCheckInserter} (hs : Stands k last edge s)
    (hnew : ∀ x ∈ blockSafepoints ir₀ v, x ∉ k.scanned) {halter : BlockHalter}
    (hj : J [] k halter) :
    ∃ halter' s' k' last', halter.processBlock check every s v =
        .ok (last' v, halter'.takeCurrentState.1, halter'.takeCurrentState.2, s') ∧ k.Le k' ∧
      k'.scanned = k.scanned ∪ (blockSafepoints ir₀ v).toFinset ∧ k'.reset = k.reset ∧
      Stands k' last' edge s' ∧ J (blockSafepoints ir₀ v) k' halter' := by
  have hno : ∀ x ∈ (ir₀.blockD v).stmts, x ∉ k.scanned := by
    intro x hx hk
    exact hnew x (mem_safepointsOf.2 ⟨hx, (k.safepoint x hk).1⟩) hk
  obtain ⟨hlast, data, hget, hstmts⟩ := (hs.represents.refines.covers v hv).unsplit
    fun x hx hm => hno x hx (k.marked_sub hm)
  obtain ⟨halter', s', k', last', hrun, hle, hscanned, hreset, hstands, hj'⟩ :=
    breakDownLoop_spec hcheck hJ hv (data.stmts.length + 1) [] k last s halter data hs
      (by rw [hlast]; exact hget) (Nat.lt_succ_self _) (fun x hx => hstmts ▸ hx)
      (hstmts ▸ block_nodup hwf v) (fun x hx => hno x (hstmts ▸ hx)) hj
  rw [hstmts] at hscanned hj'
  refine ⟨halter', s', k', last', ?_, hle, hscanned, hreset, hstands, hj'⟩
  rw [hlast] at hrun
  exact bind_eq_ok.2 ⟨data, arenaGet_eq_ok.2 hget, bind_eq_ok.2 ⟨_, hrun, rfl⟩⟩

end Block

/-! ## The two halters -/

/-- In an acyclic component: the state is right for all paths so far, and they are bounded. -/
def AcyclicInv {ir₀ : ExecIrBuilder} (every : NonZeroUsize) (paths : List Stmt → Prop)
    (seen : List Stmt)
    (k : Marks ir₀) (halter : BlockHalter) : Prop :=
  ∃ state, halter = .acyclic state ∧ Sound every k state ∧ ∀ l, paths l →
    Tracks every k.marked (l ++ seen) state ∧ Bounded every.val k.marked (l ++ seen)

theorem acyclic_step {ir₀ : ExecIrBuilder} (every : NonZeroUsize) (v : Block)
    (paths : List Stmt → Prop) : HalterStep every v (@AcyclicInv ir₀ every paths) := by
  rintro seen k halter x hv hx hsafe hnew ⟨state, rfl, hsound, hpaths⟩
  have hrem := state.remaining.2
  have hcount := hsound.count
  have hle := fun halt => k.le_scan halt hv hx hsafe hnew
  by_cases hone : state.remaining.val - 1 = 0
  · -- the countdown is over
    have hnone : NonZeroUsize.new (state.remaining.val - 1) = none := dif_neg (by lia)
    refine ⟨true, .acyclic ⟨every, []⟩, bind_eq_ok.2 ⟨_, strictSub_eq hrem, by rw [hnone]; rfl⟩,
      ⟨every, []⟩, rfl, sound_fromRemaining (le_refl _), fun l hl => ?_⟩
    obtain ⟨-, hbound⟩ := hpaths l hl
    have hgap : gap (k.scan x true hv hx hsafe).marked (l ++ seen ++ [x]) = 0 := by
      rw [gap_concat, k.scan_true_marked, if_pos (Finset.mem_insert_self _ _)]
    rw [← List.append_assoc]
    refine ⟨⟨List.nil_suffix, ?_⟩, (hbound.mono (hle true).marked).concat ?_⟩
    · rw [hgap]
      simp
    · rw [hgap]
      exact every.2
  · have hpos : 0 < state.remaining.val - 1 := Nat.pos_of_ne_zero hone
    have hnotMarked : x ∉ k.marked := fun hm => hnew (k.marked_sub hm)
    have hlen : ¬ every.val < (state.suffixSafepoints ++ [x]).length := by
      simp only [List.length_append, List.length_singleton]
      lia
    refine ⟨false, .acyclic ⟨⟨state.remaining.val - 1, hpos⟩, state.suffixSafepoints ++ [x]⟩,
      bind_eq_ok.2 ⟨_, strictSub_eq hrem, ?_⟩, _, rfl, ⟨?_, ?_⟩, fun l hl => ?_⟩
    · rw [NonZeroUsize.new_pos hpos]
      simp only [if_neg hlen]
      rfl
    · simp only [List.length_append, List.length_singleton]
      lia
    · intro y hy
      rcases List.mem_append.1 hy with hy | hy
      · exact (hsound.mono (hle false)).scanned y hy
      · rw [List.mem_singleton] at hy
        subst hy
        exact ⟨Finset.mem_insert_self _ _, fun hm => (hnotMarked hm).elim⟩
    · obtain ⟨htrack, hbound⟩ := hpaths l hl
      have htgap := htrack.gap
      have hgap : gap (k.scan x false hv hx hsafe).marked (l ++ seen ++ [x]) =
          gap k.marked (l ++ seen) + 1 := by
        rw [gap_concat, k.scan_false_marked, if_neg hnotMarked]
      rw [← List.append_assoc]
      refine ⟨⟨?_, ?_⟩, hbound.concat ?_⟩
      · obtain ⟨pre, hpre⟩ := htrack.suffix
        exact ⟨pre, by rw [← hpre]; simp⟩
      · rw [hgap]
        simp only
        lia
      · rw [gap_concat, if_neg hnotMarked]
        lia

/-- In a cyclic component: every safepoint is marked. -/
def CyclicInv {ir₀ : ExecIrBuilder} (every stateInRemaining : NonZeroUsize) (seen : List Stmt)
    (k : Marks ir₀) (halter : BlockHalter) : Prop :=
  halter = .cyclic (if seen = [] then none else some every) stateInRemaining ∧ ∀ x ∈ seen,
    x ∈ k.marked

theorem cyclic_step {ir₀ : ExecIrBuilder} (every stateInRemaining : NonZeroUsize) (v : Block) :
    HalterStep every v (@CyclicInv ir₀ every stateInRemaining) := by
  rintro seen k halter x hv hx hsafe hnew ⟨rfl, hseen⟩
  refine ⟨true, _, rfl, ?_, ?_⟩
  · simp
  · intro y hy
    rcases List.mem_append.1 hy with hy | hy
    · exact Finset.mem_insert_of_mem (hseen y hy)
    · rw [List.mem_singleton] at hy
      subst hy
      exact Finset.mem_insert_self _ _

end RapidArm.HaltCheck
