import RapidArm.HaltCheck.Inserter
import RapidArm.Lib.Gaps

/-!
# The countdown

What the state of a path promises: `remaining` bounds how many more safepoints the path may
meet, and the suffix lists its last safepoints. A state is `Sound` by itself and `Tracks`
each of the paths that lead to its edge, a path being the list of the safepoints met.

Results:
* `canonicalize_spec`: canonicalization against the compensating checks keeps both, and
  leaves no reset in the suffix.
* `mergeHaltStates_spec`: the merge of states never fails, and the merged state tracks
  every path that one of the states tracked.
-/

namespace RapidArm.HaltCheck

open RapidArm.Ir RapidArm.Lib

/-! ## Safepoints scanned and marked -/

/-- The safepoints that were scanned, those of them with a halt check, and those of these
    that got it as compensation. -/
structure Marks (ir₀ : ExecIrBuilder) where
  scanned : Finset Stmt
  marked : Finset Stmt
  reset : Finset Stmt
  reset_sub : reset ⊆ marked
  marked_sub : marked ⊆ scanned
  safepoint : ∀ x ∈ scanned, ir₀.isSafepoint x = true ∧
    ∃ u < ir₀.blocks.length, x ∈ (ir₀.blockD u).stmts

namespace Marks

variable {ir₀ : ExecIrBuilder}

/-- The marks before the first component. -/
def init (ir₀ : ExecIrBuilder) : Marks ir₀ where
  scanned := ∅
  marked := ∅
  reset := ∅
  reset_sub := by simp
  marked_sub := by simp
  safepoint := by simp

/-- The marks after a compensating check. -/
def compensate (k : Marks ir₀) (x : Stmt) (hx : x ∈ k.scanned) : Marks ir₀ where
  scanned := k.scanned
  marked := insert x k.marked
  reset := insert x k.reset
  reset_sub := Finset.insert_subset_insert _ k.reset_sub
  marked_sub := Finset.insert_subset hx k.marked_sub
  safepoint := k.safepoint

/-- The marks after the safepoint `x` of the block `u` was scanned. -/
def scan (k : Marks ir₀) (x : Stmt) (halt : Bool) {u : Block} (hu : u < ir₀.blocks.length)
    (hx : x ∈ (ir₀.blockD u).stmts) (hsafe : ir₀.isSafepoint x = true) : Marks ir₀ where
  scanned := insert x k.scanned
  marked := if halt then insert x k.marked else k.marked
  reset := k.reset
  reset_sub := by
    split_ifs
    · exact k.reset_sub.trans (Finset.subset_insert _ _)
    · exact k.reset_sub
  marked_sub := by
    split_ifs
    · exact Finset.insert_subset_insert _ k.marked_sub
    · exact k.marked_sub.trans (Finset.subset_insert _ _)
  safepoint := by
    intro y hy
    rcases Finset.mem_insert.1 hy with rfl | hy
    · exact ⟨hsafe, u, hu, hx⟩
    · exact k.safepoint y hy

@[simp] theorem scan_true_marked (k : Marks ir₀) {x : Stmt} {u : Block} (hu : u < ir₀.blocks.length)
    (hx : x ∈ (ir₀.blockD u).stmts) (hsafe : ir₀.isSafepoint x = true) :
    (k.scan x true hu hx hsafe).marked = insert x k.marked := rfl

@[simp]
theorem scan_false_marked (k : Marks ir₀) {x : Stmt} {u : Block} (hu : u < ir₀.blocks.length)
    (hx : x ∈ (ir₀.blockD u).stmts) (hsafe : ir₀.isSafepoint x = true) :
    (k.scan x false hu hx hsafe).marked = k.marked := rfl

/-- Later marks: a safepoint scanned before gets its halt check only as compensation. -/
structure Le (k k' : Marks ir₀) : Prop where
  scanned : k.scanned ⊆ k'.scanned
  marked : k.marked ⊆ k'.marked
  reset : k.reset ⊆ k'.reset
  compensated : ∀ x ∈ k.scanned, x ∈ k'.marked → x ∈ k.marked ∨ x ∈ k'.reset

theorem Le.refl (k : Marks ir₀) : k.Le k :=
  ⟨fun _ h => h, fun _ h => h, fun _ h => h, fun _ _ => .inl⟩

theorem Le.trans {k k' k'' : Marks ir₀} (h : k.Le k') (h' : k'.Le k'') : k.Le k'' := by
  refine ⟨h.scanned.trans h'.scanned, h.marked.trans h'.marked, h.reset.trans h'.reset, ?_⟩
  intro x hx hmark
  rcases h'.compensated x (h.scanned hx) hmark with hmark | hreset
  · rcases h.compensated x hx hmark with hmark | hreset
    · exact .inl hmark
    · exact .inr (h'.reset hreset)
  · exact .inr hreset

theorem le_compensate (k : Marks ir₀) {x : Stmt} (hx : x ∈ k.scanned) :
    k.Le (k.compensate x hx) := by
  refine ⟨fun _ h => h, Finset.subset_insert _ _, Finset.subset_insert _ _, fun y _ hmark => ?_⟩
  rcases Finset.mem_insert.1 hmark with rfl | hmark
  · exact .inr (Finset.mem_insert_self _ _)
  · exact .inl hmark

theorem le_scan (k : Marks ir₀) {x : Stmt} (halt : Bool) {u : Block} (hu : u < ir₀.blocks.length)
    (hx : x ∈ (ir₀.blockD u).stmts) (hsafe : ir₀.isSafepoint x = true) (hnew : x ∉ k.scanned) :
    k.Le (k.scan x halt hu hx hsafe) := by
  refine ⟨Finset.subset_insert _ _, ?_, fun _ h => h, fun y hy hmark => ?_⟩
  · unfold scan
    simp only
    split_ifs
    · exact Finset.subset_insert _ _
    · exact fun _ h => h
  · unfold scan at hmark
    simp only at hmark
    split_ifs at hmark
    · rcases Finset.mem_insert.1 hmark with rfl | hmark
      · exact (hnew hy).elim
      · exact .inl hmark
    · exact .inl hmark

end Marks

/-! ## States -/

/-- What holds of a state whatever the paths to it. -/
structure Sound {ir₀ : ExecIrBuilder} (every : NonZeroUsize) (k : Marks ir₀)
    (state : HaltState) : Prop where
  count : state.suffixSafepoints.length + state.remaining.val ≤ every.val
  scanned : ∀ x ∈ state.suffixSafepoints, x ∈ k.scanned ∧ (x ∈ k.marked → x ∈ k.reset)

/-- The state is right for a path along the safepoints `l`. -/
structure Tracks (every : NonZeroUsize) (marked : Finset Stmt) (l : List Stmt)
    (state : HaltState) : Prop where
  suffix : state.suffixSafepoints <:+ l
  gap : gap marked l + state.remaining.val ≤ every.val

section States

variable {ir₀ : ExecIrBuilder} {every : NonZeroUsize} {k k' : Marks ir₀} {state : HaltState}
  {l : List Stmt}

theorem Sound.mono (h : Sound every k state) (hle : k.Le k') : Sound every k' state := by
  refine ⟨h.count, fun x hx => ?_⟩
  obtain ⟨hscanned, hreset⟩ := h.scanned x hx
  refine ⟨hle.scanned hscanned, fun hmark => ?_⟩
  rcases hle.compensated x hscanned hmark with hold | hnew
  · exact hle.reset (hreset hold)
  · exact hnew

theorem Tracks.mono {marked marked' : Finset Stmt} (h : Tracks every marked l state)
    (hsub : marked ⊆ marked') : Tracks every marked' l state :=
  ⟨h.suffix, (Nat.add_le_add_right (gap_mono hsub l) _).trans h.gap⟩

/-- A state without history. -/
theorem sound_fromRemaining {r : NonZeroUsize} (h : r ≤ every) :
    Sound every k (HaltState.fromRemaining r) :=
  ⟨by simpa [HaltState.fromRemaining] using h, by simp [HaltState.fromRemaining]⟩

/-- Forgetting the history, and some of the count. -/
theorem Tracks.fromRemaining {marked : Finset Stmt} (h : Tracks every marked l state)
    {r : NonZeroUsize}
    (hr : r ≤ state.remaining) : Tracks every marked l (HaltState.fromRemaining r) :=
  ⟨List.nil_suffix, (Nat.add_le_add_left hr _).trans h.gap⟩

theorem NonZeroUsize.new_pos {n : ℕ} (h : 0 < n) : NonZeroUsize.new n = some ⟨n, h⟩ := dif_pos h

theorem strictSub_eq {a b : ℕ} (h : b ≤ a) : strictSub a b = .ok (a - b) :=
  bind_eq_ok.2 ⟨(), require_eq_ok.2 h, rfl⟩

/-! ## Canonicalization -/

/-- What the loop of `canonicalize_against_resets` finds: nothing, or the last reset. -/
theorem afterReset_spec (resetAfter : Finset Stmt) (suffix : List Stmt) :
    (suffix.foldl (HaltState.afterReset resetAfter) (false, []) = (false, []) ∧
        ∀ x ∈ suffix, x ∉ resetAfter) ∨
      ∃ before x after, suffix.foldl (HaltState.afterReset resetAfter) (false, []) = (true, after) ∧
        suffix = before ++ x :: after ∧ x ∈ resetAfter ∧ ∀ y ∈ after, y ∉ resetAfter := by
  induction suffix using List.reverseRecOn with
  | nil => exact .inl ⟨rfl, by simp⟩
  | append_singleton suffix y ih =>
    rw [List.foldl_append, List.foldl_cons, List.foldl_nil]
    by_cases hy : y ∈ resetAfter
    · refine .inr ⟨suffix, y, [], ?_, rfl, hy, by simp⟩
      unfold HaltState.afterReset
      rw [if_pos hy]
    · rcases ih with ⟨hrun, hno⟩ | ⟨before, x, after, hrun, rfl, hx, hno⟩
      · left
        rw [hrun]
        unfold HaltState.afterReset
        refine ⟨by rw [if_neg hy]; rfl, fun z hz => ?_⟩
        rcases List.mem_append.1 hz with hz | hz
        · exact hno z hz
        · rw [List.mem_singleton] at hz
          exact hz ▸ hy
      · refine .inr ⟨before, x, after ++ [y], ?_, by simp, hx, fun z hz => ?_⟩
        · rw [hrun]
          unfold HaltState.afterReset
          rw [if_neg hy]
          rfl
        · rcases List.mem_append.1 hz with hz | hz
          · exact hno z hz
          · rw [List.mem_singleton] at hz
            exact hz ▸ hy

/-- Canonicalization against resets that all have a halt check. -/
theorem canonicalize_spec (h : Sound every k state) :
    ∃ state', state.canonicalizeAgainstResets every k.reset = .ok state' ∧ Sound every k state' ∧
      (∀ x ∈ state'.suffixSafepoints, x ∉ k.reset) ∧
      (state' = state ∨ state'.suffixSafepoints.length + state'.remaining.val = every.val) ∧
      (∀ before x after, state.suffixSafepoints = before ++ x :: after → x ∈ k.reset →
        every.val ≤ after.length + state'.remaining.val) ∧
      ∀ l, Tracks every k.marked l state → Tracks every k.marked l state' := by
  unfold HaltState.canonicalizeAgainstResets
  by_cases hempty : state.suffixSafepoints = [] ∨ k.reset = ∅
  · rw [if_pos hempty]
    have hno : ∀ x ∈ state.suffixSafepoints, x ∉ k.reset := by
      intro x hx
      rcases hempty with hnil | hnil
      · rw [hnil] at hx
        cases hx
      · simp [hnil]
    refine ⟨state, rfl, h, hno, .inl rfl, fun before x after hsplit hx => ?_, fun l hl => hl⟩
    exact (hno x (by rw [hsplit]; simp) hx).elim
  · rw [if_neg hempty]
    rcases afterReset_spec k.reset state.suffixSafepoints with ⟨hrun, hno⟩ |
      ⟨before, x, after, hrun, hsplit, hx, hno⟩
    · rw [hrun]
      refine ⟨state, rfl, h, hno, .inl rfl, fun before x after hsplit hx => ?_, fun l hl => hl⟩
      exact (hno x (by rw [hsplit]; simp) hx).elim
    · have hlen : after.length < state.suffixSafepoints.length := by
        rw [hsplit]
        simp
        lia
      have hcount := h.count
      have hpos := state.remaining.2
      have hlt : after.length < every.val := by lia
      have hrem : 0 < every.val - after.length := Nat.sub_pos_of_lt hlt
      refine ⟨⟨⟨every.val - after.length, hrem⟩, after⟩, ?_, ⟨?_, ?_⟩, hno, .inr ?_, ?_, ?_⟩
      · rw [hrun]
        simp only [Bool.true_eq_false, if_false]
        refine bind_eq_ok.2 ⟨(), require_eq_ok.2 hlt, bind_eq_ok.2 ⟨(), require_eq_ok.2 hlen, ?_⟩⟩
        refine bind_eq_ok.2 ⟨_, strictSub_eq (Nat.le_of_lt hlt), ?_⟩
        rw [NonZeroUsize.new_pos hrem]
      · simp only
        lia
      · intro y hy
        refine h.scanned y ?_
        rw [hsplit]
        exact List.mem_append_right _ (List.mem_cons_of_mem _ hy)
      · simp only
        lia
      · -- a reset is never in the new suffix, so it stands before it
        intro before' x' after' hsplit' hx'
        have hle : after.length ≤ after'.length := by
          by_contra hgt
          have hsuffix : x' :: after' <:+ after :=
            List.suffix_of_suffix_length_le (show _ <:+ state.suffixSafepoints from
              ⟨before', hsplit'.symm⟩) ⟨before ++ [x], by rw [hsplit]; simp⟩
              (by simp only [List.length_cons]; lia)
          exact hno x' (hsuffix.subset List.mem_cons_self) hx'
        simp only
        lia
      · intro l hl
        have hsuffix : x :: after <:+ l := by
          refine List.IsSuffix.trans ?_ hl.suffix
          exact ⟨before, hsplit.symm⟩
        obtain ⟨pre, rfl⟩ := hsuffix
        refine ⟨⟨pre ++ [x], by simp⟩, ?_⟩
        have hgap := gap_le_of_marked (k.reset_sub hx) pre after
        simp only
        lia

/-! ## Compensating checks -/

theorem hasInsertionPoint_eq (h : Sound every k state) {target : NonZeroUsize}
    (ht : target ≤ every) :
    state.hasInsertionPoint every target = .ok (decide (state.remaining < target ∧
      state.suffixSafepoints.length + state.remaining.val = every.val)) := by
  have hcount := h.count
  have hrem : state.remaining.val ≤ every.val := by lia
  unfold HaltState.hasInsertionPoint
  by_cases hle : target ≤ state.remaining
  · rw [if_pos hle]
    simp [not_lt.2 hle, pure, Except.pure]
  · rw [if_neg hle]
    have hlt : state.remaining < target := not_le.1 hle
    have hlt' : state.remaining.val < target.val := hlt
    have hcomplete : state.hasCompleteSuffix every =
        .ok (decide (state.suffixSafepoints.length = every.val - state.remaining.val)) :=
      bind_eq_ok.2 ⟨_, strictSub_eq hrem, rfl⟩
    rw [hcomplete, ok_bind]
    by_cases hfull : state.suffixSafepoints.length + state.remaining.val = every.val
    · have hlen : state.suffixSafepoints.length = every.val - state.remaining.val := by lia
      rw [decide_eq_true hlen, decide_eq_true (show _ ∧ _ from ⟨hlt, hfull⟩)]
      have hsub : ¬ state.suffixSafepoints.length ≤ every.val - target.val := by
        have ht' : target.val ≤ every.val := ht
        lia
      refine bind_eq_ok.2 ⟨_, strictSub_eq ht, ?_⟩
      rw [if_neg hsub]
      rfl
    · have hlen : ¬ state.suffixSafepoints.length = every.val - state.remaining.val := by lia
      rw [decide_eq_false hlen, decide_eq_false (fun h => hfull h.2)]
      rfl

theorem canNormalize_eq (h : Sound every k state) {target : NonZeroUsize} (ht : target ≤ every) :
    state.canNormalize every target = .ok (decide (target ≤ state.remaining ∨
      state.suffixSafepoints.length + state.remaining.val = every.val)) := by
  unfold HaltState.canNormalize
  by_cases hle : target ≤ state.remaining
  · rw [if_pos hle, decide_eq_true (.inl hle)]
  · rw [if_neg hle, hasInsertionPoint_eq h ht]
    simp [hle, not_le.1 hle]

/-- A complete suffix has a safepoint to insert the check after. -/
theorem compensatingInsertionSafepoint_spec (h : Sound every k state) {target : NonZeroUsize}
    (ht : target ≤ every) (hlt : state.remaining < target)
    (hfull : state.suffixSafepoints.length + state.remaining.val = every.val) :
    ∃ before x after, state.compensatingInsertionSafepoint every target = .ok x ∧
      state.suffixSafepoints = before ++ x :: after ∧ after.length + target.val = every.val := by
  have ht' : target.val ≤ every.val := ht
  have hlt' : state.remaining.val < target.val := hlt
  let skip := state.suffixSafepoints.length - (every.val - target.val) - 1
  have hidx : skip < state.suffixSafepoints.length := by
    simp only [skip]
    lia
  refine ⟨state.suffixSafepoints.take skip, state.suffixSafepoints[skip],
    state.suffixSafepoints.drop (skip + 1), ?_, ?_, ?_⟩
  · refine bind_eq_ok.2 ⟨true, ?_, ?_⟩
    · rw [hasInsertionPoint_eq h ht, decide_eq_true ⟨hlt, hfull⟩]
    · refine bind_eq_ok.2 ⟨(), require_eq_ok.2 rfl, bind_eq_ok.2 ⟨_, strictSub_eq ht, ?_⟩⟩
      refine bind_eq_ok.2 ⟨_, strictSub_eq (by lia), bind_eq_ok.2 ⟨_, strictSub_eq (by lia), ?_⟩⟩
      have hget :
          state.suffixSafepoints[state.suffixSafepoints.length - (every.val - target.val) - 1]? =
          some state.suffixSafepoints[skip] := List.getElem?_eq_getElem hidx
      rw [hget]
      rfl
  · rw [List.cons_getElem_drop_succ, List.take_append_drop]
  · rw [List.length_drop]
    simp only [skip]
    lia

end States

/-- The inserter stands for these marks and edges. -/
structure Stands {ir₀ : ExecIrBuilder} (k : Marks ir₀) (last : Block → Block)
    (edge : Block → Block → Option HaltState) (s : HaltCheckInserter) : Prop where
  represents : Represents ir₀ k.marked last edge s
  reset : s.semanticResetAfter = k.reset

section Merge

variable {ir₀ : ExecIrBuilder} {every : NonZeroUsize} {k : Marks ir₀} {last : Block → Block}
  {edge : Block → Block → Option HaltState} {s : HaltCheckInserter}
  {check : HaltCheckInserter → Except Panic Unit}

/-- Raising one canonical state to `target`. -/
theorem insertCompensatingCheck_spec (hcheck : ∀ s, Consistent s → check s = .ok ())
    (h : Stands k last edge s) {state : HaltState} (hsound : Sound every k state)
    (hno : ∀ x ∈ state.suffixSafepoints, x ∉ k.reset) {target : NonZeroUsize} (ht : target ≤ every)
    (hcan : target ≤ state.remaining ∨
      state.suffixSafepoints.length + state.remaining.val = every.val) :
    ∃ state' s' k' last', state.insertCompensatingCheck check every target s = .ok (state', s') ∧
      k.Le k' ∧ k'.scanned = k.scanned ∧ Stands k' last' edge s' ∧ Sound every k' state' ∧
      target ≤ state'.remaining ∧
      ∀ l, Tracks every k.marked l state → Tracks every k'.marked l state' := by
  unfold HaltState.insertCompensatingCheck
  by_cases hle : target ≤ state.remaining
  · rw [if_pos hle]
    exact ⟨state, s, k, last, rfl, .refl k, rfl, h, hsound, hle, fun l hl => hl⟩
  · rw [if_neg hle]
    obtain ⟨before, x, after, hpoint, hsplit, hlen⟩ := compensatingInsertionSafepoint_spec hsound ht
      (not_le.1 hle) (hcan.resolve_left hle)
    have hx : x ∈ state.suffixSafepoints := by
      rw [hsplit]
      simp
    obtain ⟨hscanned, hmark⟩ := hsound.scanned x hx
    obtain ⟨hsafe, u, hu, hmem⟩ := k.safepoint x hscanned
    -- no halt check stands after this safepoint: it would be a reset
    have hnot : x ∉ k.marked := fun hm => hno x hx (hmark hm)
    obtain ⟨b, s', last', hrun, hreset, hrep⟩ := h.represents.compensate hcheck hu hmem hsafe hnot
      (by rw [h.reset]; exact hno x hx)
    have hle' := k.le_compensate hscanned
    obtain ⟨state', hcanon, hsound', -, -, hrem, htracks⟩ := canonicalize_spec (hsound.mono hle')
    have hreset' : s'.semanticResetAfter = (k.compensate x hscanned).reset := by
      rw [hreset, h.reset]
      rfl
    have htarget : target ≤ state'.remaining := by
      have := hrem before x after hsplit (Finset.mem_insert_self _ _)
      show target.val ≤ state'.remaining.val
      lia
    refine ⟨state', s', k.compensate x hscanned, last', ?_, hle', rfl, ⟨hrep, hreset'⟩, hsound',
      htarget, fun l hl => htracks l (hl.mono hle'.marked)⟩
    refine bind_eq_ok.2 ⟨x, hpoint, bind_eq_ok.2 ⟨(b, s'), hrun, ?_⟩⟩
    refine bind_eq_ok.2 ⟨state', ?_, bind_eq_ok.2 ⟨(), require_eq_ok.2 htarget, rfl⟩⟩
    rw [hreset']
    exact hcanon

/-- The normalizing loop raises every state to `target`. -/
theorem normalize_spec (hcheck : ∀ s, Consistent s → check s = .ok ()) (h : Stands k last edge s)
    {states : List HaltState} (hsound : ∀ state ∈ states, Sound every k state)
    (hno : ∀ state ∈ states, ∀ x ∈ state.suffixSafepoints, x ∉ k.reset) {target : NonZeroUsize}
    (ht : target ≤ every) (hcan : ∀ state ∈ states, target ≤ state.remaining ∨
      state.suffixSafepoints.length + state.remaining.val = every.val) :
    ∃ states' s' k' last',
      states.zipIdx.foldlM (HaltState.normalize check every target) ([], s) = .ok (states', s') ∧
      k.Le k' ∧ k'.scanned = k.scanned ∧ Stands k' last' edge s' ∧
      (∀ state ∈ states', target ≤ state.remaining) ∧
      ∀ l, (∃ state ∈ states, Tracks every k.marked l state) →
        ∃ state ∈ states', Tracks every k'.marked l state := by
  obtain ⟨⟨states', s'⟩, hrun, k', last', hle, hscanned, hstands, -, htarget, htracks⟩ :=
    foldlM_spec
    (l := states.zipIdx) (f := HaltState.normalize check every target) (b := ([], s))
    (fun done (acc : List HaltState × HaltCheckInserter) =>
      ∃ (k' : Marks ir₀) (last' : Block → Block),
      k.Le k' ∧ k'.scanned = k.scanned ∧ Stands k' last' edge acc.2 ∧ (done = [] → k' = k) ∧
      (∀ state ∈ acc.1, target ≤ state.remaining) ∧
      ∀ l, (∃ p ∈ done, Tracks every k.marked l p.1) → ∃ state ∈ acc.1,
        Tracks every k'.marked l state)
    ⟨k, last, .refl k, rfl, h, fun _ => rfl, by simp, by simp⟩ (by
      rintro done ⟨state, i⟩ rest hl ⟨acc, s₁⟩ ⟨k₁, last₁, hle₁, hscanned₁, hstands₁,
        hfirst, htarget₁, htracks₁⟩
      have hzip : (state, i) ∈ states.zipIdx := by
        rw [hl]
        simp
      have hmem : state ∈ states := (List.mem_zipIdx' hzip).2 ▸ List.getElem_mem _
      have hindex : i = done.length := by
        have hget : states.zipIdx[done.length]? = some (state, i) := by
          rw [hl]
          simp
        rw [List.getElem?_zipIdx, Option.map_eq_some_iff] at hget
        obtain ⟨a, -, ha⟩ := hget
        simpa using (Prod.mk.inj ha).2.symm
      have hsound₁ := (hsound state hmem).mono hle₁
      -- the state as it enters the insertion: canonical for the checks inserted so far
      have hcanon : ∃ state₁, HaltState.recanonicalize every s₁.semanticResetAfter (state, i) =
          .ok state₁ ∧
          Sound every k₁ state₁ ∧
          (∀ x ∈ state₁.suffixSafepoints, x ∉ k₁.reset) ∧
          (target ≤ state₁.remaining ∨
            state₁.suffixSafepoints.length + state₁.remaining.val = every.val) ∧
          ∀ l, Tracks every k₁.marked l state → Tracks every k₁.marked l state₁ := by
        unfold HaltState.recanonicalize
        by_cases hi : i = 0
        · rw [if_neg (not_not.2 hi)]
          have hnil : done = [] := List.length_eq_zero_iff.1 (hindex.symm.trans hi)
          rw [hfirst hnil]
          exact ⟨state, rfl, hsound state hmem, hno state hmem, hcan state hmem, fun l hl => hl⟩
        · rw [if_pos hi, hstands₁.reset]
          obtain ⟨state₁, hrun₁, hsound₂, hno₂, hsame, -, htracks₂⟩ := canonicalize_spec hsound₁
          refine ⟨state₁, hrun₁, hsound₂, hno₂, ?_, htracks₂⟩
          rcases hsame with rfl | hfull
          · exact hcan _ hmem
          · exact .inr hfull
      obtain ⟨state₁, hrun₁, hsound₂, hno₂, hcan₂, htracks₂⟩ := hcanon
      obtain ⟨state₂, s₂, k₂, last₂, hrun₂, hle₂, hscanned₂, hstands₂, -, htarget₂, htracks₃⟩ :=
        insertCompensatingCheck_spec hcheck hstands₁ hsound₂ hno₂ ht hcan₂
      refine ⟨(acc ++ [state₂], s₂),
        bind_eq_ok.2 ⟨state₁, hrun₁, bind_eq_ok.2 ⟨_, hrun₂, rfl⟩⟩, k₂, last₂,
        hle₁.trans hle₂, hscanned₂.trans hscanned₁, hstands₂, by simp, ?_, ?_⟩
      · intro st hst
        rcases List.mem_append.1 hst with hst | hst
        · exact htarget₁ st hst
        · rw [List.mem_singleton] at hst
          exact hst ▸ htarget₂
      · rintro l ⟨p, hp, htrack⟩
        rcases List.mem_append.1 hp with hp | hp
        · obtain ⟨st, hst, htrack'⟩ := htracks₁ l ⟨p, hp, htrack⟩
          exact ⟨st, List.mem_append_left _ hst, htrack'.mono hle₂.marked⟩
        · rw [List.mem_singleton] at hp
          subst hp
          exact ⟨state₂, by simp, htracks₃ l (htracks₂ l (htrack.mono hle₁.marked))⟩)
  refine ⟨states', s', k', last', hrun, hle, hscanned, hstands, htarget, ?_⟩
  rintro l ⟨state, hstate, htrack⟩
  obtain ⟨i, hi⟩ := List.getElem?_of_mem hstate
  exact htracks l ⟨(state, i), List.mem_zipIdx_iff_getElem?.2 hi, htrack⟩

theorem shouldNormalize_spec {states : List HaltState} {rLo rHi : NonZeroUsize} (hle : rLo ≤ rHi)
    (hhi : rHi ≤ every) (hsound : ∀ state ∈ states, Sound every k state) :
    ∃ normalizes, HaltState.shouldNormalize every rLo rHi states = .ok normalizes ∧
      (normalizes = true → ∀ state ∈ states, rHi ≤ state.remaining ∨
        state.suffixSafepoints.length + state.remaining.val = every.val) := by
  unfold HaltState.shouldNormalize
  rw [strictSub_eq hle, ok_bind]
  by_cases hlt : (every.val + 1) / 2 < rHi.val - rLo.val
  · refine ⟨_, (if_pos hlt).trans (allM_ok fun state hstate =>
      canNormalize_eq (hsound state hstate) hhi),
      fun htrue state hstate => ?_⟩
    rw [List.all_eq_true] at htrue
    exact of_decide_eq_true (htrue state hstate)
  · exact ⟨false, if_neg hlt, fun h => (by cases h)⟩

theorem foldl_min_le (states : List HaltState) (r : NonZeroUsize) :
    states.foldl (fun r state => min r state.remaining) r ≤ r ∧
      ∀ state ∈ states, states.foldl (fun r state => min r state.remaining) r ≤
        state.remaining := by
  induction states generalizing r with
  | nil => simp
  | cons state states ih =>
    obtain ⟨hle, hall⟩ := ih (min r state.remaining)
    refine ⟨hle.trans (min_le_left _ _), fun st hst => ?_⟩
    rcases List.mem_cons.1 hst with rfl | hst
    · exact hle.trans (min_le_right _ _)
    · exact hall st hst

theorem foldl_max_le (states : List HaltState) (r bound : NonZeroUsize) (hr : r ≤ bound)
    (h : ∀ state ∈ states, state.remaining ≤ bound) :
    r ≤ states.foldl (fun r state => max r state.remaining) r ∧
      states.foldl (fun r state => max r state.remaining) r ≤ bound := by
  induction states generalizing r with
  | nil => exact ⟨le_refl _, hr⟩
  | cons state states ih =>
    obtain ⟨hge, hle⟩ := ih (max r state.remaining) (max_le hr (h state List.mem_cons_self))
      fun st hst => h st (List.mem_cons_of_mem _ hst)
    exact ⟨(le_max_left _ _).trans hge, hle⟩

/-- The merge never fails, and the merged state is right for every path to it. -/
theorem mergeHaltStates_spec (hcheck : ∀ s, Consistent s → check s = .ok ())
    (h : Stands k last edge s) (incoming : List HaltState)
    (hsound : ∀ state ∈ incoming, Sound every k state) :
    ∃ state s' k' last', HaltState.mergeHaltStates check s every incoming = .ok (state, s') ∧
      k.Le k' ∧ k'.scanned = k.scanned ∧ Stands k' last' edge s' ∧ Sound every k' state ∧
      (incoming = [] → state = HaltState.fromRemaining every) ∧
      ∀ l, (∃ state₀ ∈ incoming, Tracks every k.marked l state₀) →
        Tracks every k'.marked l state := by
  have hcanon : ∀ state ∈ incoming, ∃ state', state.canonicalizeAgainstResets every
      s.semanticResetAfter = .ok state' ∧ Sound every k state' ∧
      (∀ x ∈ state'.suffixSafepoints, x ∉ k.reset) ∧
      ∀ l, Tracks every k.marked l state → Tracks every k.marked l state' := by
    intro state hstate
    rw [h.reset]
    obtain ⟨state', hrun, hsound', hno, -, -, htracks⟩ := canonicalize_spec (hsound state hstate)
    exact ⟨state', hrun, hsound', hno, htracks⟩
  choose! canon hrun hsoundC hnoC htracksC using hcanon
  have hmap : incoming.mapM (HaltState.canonicalizeAgainstResets every s.semanticResetAfter) =
      .ok (incoming.map canon) := mapM_ok hrun
  have hsound' : ∀ state ∈ incoming.map canon, Sound every k state := by
    intro state hstate
    obtain ⟨state₀, hstate₀, rfl⟩ := List.mem_map.1 hstate
    exact hsoundC state₀ hstate₀
  have hno' : ∀ state ∈ incoming.map canon, ∀ x ∈ state.suffixSafepoints, x ∉ k.reset := by
    intro state hstate
    obtain ⟨state₀, hstate₀, rfl⟩ := List.mem_map.1 hstate
    exact hnoC state₀ hstate₀
  have htracks' : ∀ l, (∃ state₀ ∈ incoming, Tracks every k.marked l state₀) →
      ∃ state ∈ incoming.map canon, Tracks every k.marked l state := by
    rintro l ⟨state₀, hstate₀, htrack⟩
    exact ⟨canon state₀, List.mem_map_of_mem hstate₀, htracksC state₀ hstate₀ l htrack⟩
  unfold HaltState.mergeHaltStates
  rw [hmap, ok_bind]
  have hnil : incoming.map canon = [] ↔ incoming = [] := List.map_eq_nil_iff
  rcases hstates : incoming.map canon with _ | ⟨first, _ | ⟨second, rest⟩⟩
  · rw [hstates] at htracks'
    refine ⟨_, s, k, last, rfl, .refl k, rfl, h, sound_fromRemaining (le_refl _), fun _ => rfl, ?_⟩
    intro l hl
    obtain ⟨state, hmem, -⟩ := htracks' l hl
    cases hmem
  · rw [hstates] at htracks' hsound' hnil
    refine ⟨first, s, k, last, rfl, .refl k, rfl, h, hsound' first List.mem_cons_self, ?_, ?_⟩
    · intro hempty
      cases hnil.2 hempty
    · intro l hl
      obtain ⟨state, hmem, htrack⟩ := htracks' l hl
      rw [List.mem_singleton] at hmem
      exact hmem ▸ htrack
  · rw [hstates] at htracks' hsound' hno' hnil
    simp only
    have hne : incoming ≠ [] := by
      intro hempty
      cases hnil.2 hempty
    generalize second :: rest = others at htracks' hsound' hno'
    have hbound : ∀ state ∈ first :: others, state.remaining ≤ every := by
      intro state hstate
      have := (hsound' state hstate).count
      show state.remaining.val ≤ every.val
      lia
    obtain ⟨hmin₁, hmin₂⟩ := foldl_min_le others first.remaining
    obtain ⟨hmax₁, hmax₂⟩ :=
      foldl_max_le others first.remaining every (hbound first List.mem_cons_self)
      fun state hstate => hbound state (List.mem_cons_of_mem _ hstate)
    have hlo : ∀ state ∈ first :: others,
        others.foldl (fun r state => min r state.remaining) first.remaining ≤ state.remaining := by
      intro state hstate
      rcases List.mem_cons.1 hstate with rfl | hstate
      · exact hmin₁
      · exact hmin₂ state hstate
    obtain ⟨normalizes, hshould, hcan⟩ := shouldNormalize_spec (hmin₁.trans hmax₁) hmax₂ hsound'
    rw [hshould, ok_bind]
    cases normalizes with
    | false =>
      refine ⟨_, s, k, last, rfl, .refl k, rfl, h,
        sound_fromRemaining ((hlo first List.mem_cons_self).trans
          (hbound first List.mem_cons_self)),
        fun hempty => (hne hempty).elim, fun l hl => ?_⟩
      obtain ⟨state, hmem, htrack⟩ := htracks' l hl
      exact htrack.fromRemaining (hlo state hmem)
    | true =>
      obtain ⟨states', s', k', last', hloop, hle, hscanned, hstands, htarget, htracks⟩ :=
        normalize_spec hcheck h hsound' hno' hmax₂ (hcan rfl)
      refine ⟨_, s', k', last', ?_, hle, hscanned, hstands, sound_fromRemaining hmax₂,
        fun hempty => (hne hempty).elim, fun l hl => ?_⟩
      · exact bind_eq_ok.2 ⟨_, hloop, bind_eq_ok.2 ⟨(), require_eq_ok.2 htarget, rfl⟩⟩
      · obtain ⟨state, hmem, htrack⟩ := htracks l (htracks' l hl)
        exact htrack.fromRemaining (htarget state hmem)

end Merge

end RapidArm.HaltCheck
