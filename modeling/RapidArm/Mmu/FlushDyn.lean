import RapidArm.Mmu.ICache

/-!
# The dirty-flag hand-over

`PageEntry::flush_dyn` (`io-mmu/src/page_table.rs`, lines 480–576) and `Page::set_dirty`
(`emu-abi/src/memory.rs`, lines 335–343) on one page, with any number of calls and writers
that interleave at their atomic operations. A writer stores its bytes and then sets the
dirty flag once. A call takes the gate of the page, loads the flags, moves the dirty bit
to the flushing bit by an exclusive or or an and, invalidates the page, clears the flushing
bit and drops the gate. An invalidation may panic: then the gate is dropped and the
flushing bit stays.

The log records what the hand-over is about: the marks, and the invalidations that start,
complete and panic.

Results:
* `flush_handover`: in every reachable state, if both bits are clear, then after the mark of
  each writer an invalidation has started that has completed; no call is in a branch that
  reports an exclusive-access error or in the unreachable one.
-/

namespace RapidArm.Mmu.FlushDyn

open RapidArm.Mmu

/-! ## Calls and writers -/

/-- Where a call of `flush_dyn` is. `loaded` has the masked flags; `xored`, `anded` and
    `cleared` have the old flags of a read-modify-write whose assertion is still to come. -/
inductive FlushPc
  | start
  | locked
  | loaded (bits : BitVec 8)
  | xored (old : BitVec 8)
  | anded (old : BitVec 8)
  | flushing
  | invalidating
  | invalidated
  | cleared (old : BitVec 8)
  | finished
  | panicked
  | exclusiveAccessError
  | unreachable
  deriving DecidableEq, Repr

/-- Where a writer is: it stores its bytes, or has set the dirty flag. -/
inductive WriterPc
  | storing
  | marked
  deriving DecidableEq, Repr

/-- What the log records. -/
inductive Event (C W : Type)
  | stored (writer : W)
  | marked (writer : W)
  | started (call : C)
  | completed (call : C)
  | panicked (call : C)
  deriving DecidableEq

/-- The flags and the gate of the page, and all calls and writers. -/
structure State (C W : Type) where
  flags : BitVec 8
  gate : Option C
  calls : C → FlushPc
  writers : W → WriterPc
  log : List (Event C W)

/-- One atomic step: a writer stores a byte or marks the page, a call goes on, or its
    invalidation panics. -/
inductive Action (C W : Type)
  | store (writer : W)
  | mark (writer : W)
  | advance (call : C)
  | panic (call : C)

namespace State

variable {C W : Type} [DecidableEq C] [DecidableEq W]

/-- A page with these flags, before any call or store. -/
def init (flags : BitVec 8) : State C W := ⟨flags, none, fun _ => .start, fun _ => .storing, []⟩

/-- The call goes on to `pc`. -/
def goto (s : State C W) (c : C) (pc : FlushPc) : State C W :=
  { s with calls := Function.update s.calls c pc }

/-- The call changes the flags and goes on to `pc`. -/
def rmw (s : State C W) (c : C) (flags : BitVec 8) (pc : FlushPc) : State C W :=
  { s with flags := flags, calls := Function.update s.calls c pc }

/-- The call drops the gate and ends. -/
def unlock (s : State C W) (c : C) (pc : FlushPc) : State C W :=
  { s with gate := none, calls := Function.update s.calls c pc }

/-- The call goes on to `pc`, and this is recorded. -/
def record (s : State C W) (e : Event C W) : State C W := { s with log := s.log ++ [e] }

/-- The next step of a call; none while the gate is taken, and after its end. -/
def advance (s : State C W) (c : C) : Option (State C W) :=
  match s.calls c with
  | .start => if s.gate = none then some { s.goto c .locked with gate := some c } else none
  | .locked => some (s.goto c (.loaded (s.flags &&& BOTH_DIRTY_MASK)))
  | .loaded bits =>
    if bits = 0 then some (s.unlock c .finished)
    else if bits = IS_DIRTY_FLAG then some (s.rmw c (s.flags ^^^ BOTH_DIRTY_MASK) (.xored s.flags))
    else if bits = BOTH_DIRTY_MASK then
      some (s.rmw c (s.flags &&& ~~~IS_DIRTY_FLAG) (.anded s.flags))
    else if bits = IS_FLUSHING_DIRTY_PAGE then some (s.goto c .flushing)
    else some (s.goto c .unreachable)
  | .xored old =>
    if (old ^^^ BOTH_DIRTY_MASK) &&& BOTH_DIRTY_MASK ≠ IS_FLUSHING_DIRTY_PAGE then
      some (s.goto c .exclusiveAccessError)
    else some (s.goto c .flushing)
  | .anded old =>
    if (old &&& ~~~IS_DIRTY_FLAG) &&& BOTH_DIRTY_MASK ≠ IS_FLUSHING_DIRTY_PAGE then
      some (s.goto c .exclusiveAccessError)
    else some (s.goto c .flushing)
  | .flushing => some ((s.goto c .invalidating).record (.started c))
  | .invalidating => some ((s.goto c .invalidated).record (.completed c))
  | .invalidated => some (s.rmw c (s.flags &&& ~~~IS_FLUSHING_DIRTY_PAGE) (.cleared s.flags))
  | .cleared old =>
    if old &&& IS_FLUSHING_DIRTY_PAGE = 0 then some (s.goto c .exclusiveAccessError)
    else some (s.unlock c .finished)
  | .finished | .panicked | .exclusiveAccessError | .unreachable => none

/-- One step, if it is possible. -/
def step (s : State C W) : Action C W → Option (State C W)
  | .store w => if s.writers w = .storing then some (s.record (.stored w)) else none
  | .mark w =>
    if s.writers w = .storing then
      some { s.record (.marked w) with
        flags := s.flags ||| IS_DIRTY_FLAG
        writers := Function.update s.writers w .marked }
    else none
  | .advance c => s.advance c
  | .panic c =>
    if s.calls c = .invalidating then some ((s.unlock c .panicked).record (.panicked c)) else none

/-- The state after a sequence of steps, if all are possible. -/
def run (s : State C W) : List (Action C W) → Option (State C W)
  | [] => some s
  | a :: actions => (s.step a).bind fun s' => s'.run actions

end State

/-! ## The two bits -/

/-- The dirty bit. -/
def isDirty (flags : BitVec 8) : Bool := flags &&& IS_DIRTY_FLAG != 0

/-- The flushing bit. -/
def isFlushing (flags : BitVec 8) : Bool := flags &&& IS_FLUSHING_DIRTY_PAGE != 0

theorem clear_iff (flags : BitVec 8) :
    flags &&& BOTH_DIRTY_MASK = 0 ↔ isDirty flags = false ∧ isFlushing flags = false := by
  revert flags
  decide

theorem mark_bits (flags : BitVec 8) : isDirty (flags ||| IS_DIRTY_FLAG) = true ∧
    isFlushing (flags ||| IS_DIRTY_FLAG) = isFlushing flags := by
  revert flags
  decide

theorem masked_bits (flags : BitVec 8) : isDirty (flags &&& BOTH_DIRTY_MASK) = isDirty flags ∧
    isFlushing (flags &&& BOTH_DIRTY_MASK) = isFlushing flags ∧
    flags &&& BOTH_DIRTY_MASK &&& BOTH_DIRTY_MASK = flags &&& BOTH_DIRTY_MASK := by
  revert flags
  decide

/-- The four values of the masked flags. -/
theorem masked_cases {bits : BitVec 8} (h : bits &&& BOTH_DIRTY_MASK = bits) :
    bits = 0 ∨ bits = IS_DIRTY_FLAG ∨ bits = BOTH_DIRTY_MASK ∨ bits = IS_FLUSHING_DIRTY_PAGE := by
  revert bits
  decide

/-- The exclusive or on a page that is dirty and not being flushed. -/
theorem xor_bits {flags : BitVec 8} (hdirty : isDirty flags = true)
    (hflush : isFlushing flags = false) :
    isFlushing (flags ^^^ BOTH_DIRTY_MASK) = true ∧
      (flags ^^^ BOTH_DIRTY_MASK) &&& BOTH_DIRTY_MASK = IS_FLUSHING_DIRTY_PAGE := by
  revert flags
  decide

/-- The and on a page that is being flushed. -/
theorem and_bits {flags : BitVec 8} (hflush : isFlushing flags = true) :
    isFlushing (flags &&& ~~~IS_DIRTY_FLAG) = true ∧
      (flags &&& ~~~IS_DIRTY_FLAG) &&& BOTH_DIRTY_MASK = IS_FLUSHING_DIRTY_PAGE := by
  revert flags
  decide

theorem clear_bits (flags : BitVec 8) :
    isDirty (flags &&& ~~~IS_FLUSHING_DIRTY_PAGE) = isDirty flags := by
  revert flags
  decide

/-! ## The invariant -/

variable {C W : Type}

/-- After the mark of the writer the invalidation of the call has started. -/
def Begun (log : List (Event C W)) (w : W) (c : C) : Prop :=
  ∃ before mid after, log = before ++ .marked w :: mid ++ .started c :: after

/-- After the mark of the writer an invalidation has started that has completed. -/
def Covered (log : List (Event C W)) (w : W) : Prop :=
  ∃ c before mid after, log = before ++ .marked w :: mid ++ .started c :: after ∧
    .completed c ∈ after

theorem Begun.append {log : List (Event C W)} {w : W} {c : C} (h : Begun log w c)
    (later : List (Event C W)) : Begun (log ++ later) w c := by
  obtain ⟨before, mid, after, rfl⟩ := h
  exact ⟨before, mid, after ++ later, by simp⟩

theorem Covered.append {log : List (Event C W)} {w : W} (h : Covered log w)
    (later : List (Event C W)) : Covered (log ++ later) w := by
  obtain ⟨c, before, mid, after, rfl, hc⟩ := h
  exact ⟨c, before, mid, after ++ later, by simp, List.mem_append_left _ hc⟩

theorem Begun.covered {log : List (Event C W)} {w : W} {c : C} (h : Begun log w c) :
    Covered (log ++ [.completed c]) w := by
  obtain ⟨before, mid, after, rfl⟩ := h
  exact ⟨c, before, mid, after ++ [.completed c], by simp, by simp⟩

theorem begun_of_mem {log : List (Event C W)} {w : W} (h : .marked w ∈ log) (c : C) :
    Begun (log ++ [.started c]) w c := by
  obtain ⟨before, mid, rfl⟩ := List.append_of_mem h
  exact ⟨before, mid, [], by simp⟩

/-- The call has the gate. -/
def FlushPc.Holding : FlushPc → Prop
  | start | finished | panicked => False
  | _ => True

/-- What a call knows of the flags. -/
def PcOk (flags : BitVec 8) : FlushPc → Prop
  | .start | .locked | .finished | .panicked => True
  | .loaded bits => bits &&& BOTH_DIRTY_MASK = bits ∧ isFlushing bits = isFlushing flags ∧
      (isDirty bits = true → isDirty flags = true)
  | .xored old => (old ^^^ BOTH_DIRTY_MASK) &&& BOTH_DIRTY_MASK = IS_FLUSHING_DIRTY_PAGE ∧
      isFlushing flags = true
  | .anded old => (old &&& ~~~IS_DIRTY_FLAG) &&& BOTH_DIRTY_MASK = IS_FLUSHING_DIRTY_PAGE ∧
      isFlushing flags = true
  | .flushing | .invalidating | .invalidated => isFlushing flags = true
  | .cleared old => isFlushing old = true
  | .exclusiveAccessError | .unreachable => False

/-- What a call that is invalidating, or has just done so, means for a mark that the
    flushing bit stands for. -/
def Awaits (log : List (Event C W)) (w : W) (c : C) : FlushPc → Prop
  | .invalidating => Begun log w c
  | .invalidated => False
  | _ => True

/-- A mark is covered, or one of the bits still stands for it. -/
def Accounted (s : State C W) (w : W) : Prop :=
  Covered s.log w ∨ isDirty s.flags = true ∨
    isFlushing s.flags = true ∧ ∀ c, Awaits s.log w c (s.calls c)

/-- The gate excludes other calls, every call is right about the flags, and every mark is
    accounted for. -/
structure Inv (s : State C W) : Prop where
  gate : ∀ c, (s.calls c).Holding → s.gate = some c
  calls : ∀ c, PcOk s.flags (s.calls c)
  marks : ∀ w, .marked w ∈ s.log → Accounted s w

theorem awaits_of_not_holding {log : List (Event C W)} {w : W} {c : C} {pc : FlushPc}
    (h : ¬ pc.Holding) : Awaits log w c pc := by
  cases pc <;> first | exact trivial | exact absurd trivial h

theorem pcOk_of_not_holding {flags : BitVec 8} {pc : FlushPc} (h : ¬ pc.Holding) :
    PcOk flags pc := by
  cases pc <;> first | exact trivial | exact absurd trivial h

theorem Awaits.append {log : List (Event C W)} {w : W} {c : C} {pc : FlushPc}
    (h : Awaits log w c pc)
    (later : List (Event C W)) : Awaits (log ++ later) w c pc := by
  cases pc with
  | invalidating => exact Begun.append h later
  | _ => exact h

/-- A mark changes nothing that a call relies on. -/
theorem PcOk.mark {flags : BitVec 8} {pc : FlushPc} (h : PcOk flags pc) :
    PcOk (flags ||| IS_DIRTY_FLAG) pc := by
  obtain ⟨hdirty, hflush⟩ := mark_bits flags
  cases pc with
  | loaded bits => exact ⟨h.1, h.2.1.trans hflush.symm, fun _ => hdirty⟩
  | xored old => exact ⟨h.1, hflush.trans h.2⟩
  | anded old => exact ⟨h.1, hflush.trans h.2⟩
  | flushing => exact hflush.trans h
  | invalidating => exact hflush.trans h
  | invalidated => exact hflush.trans h
  | _ => exact h

section Steps

variable {s s' : State C W} {c : C} {pc : FlushPc}

theorem inv_init (flags : BitVec 8) : Inv (State.init flags : State C W) := by
  constructor
  · exact fun c h => h.elim
  · exact fun c => trivial
  · exact fun w hw => absurd hw List.not_mem_nil

theorem Inv.others (h : Inv s) (hc : (s.calls c).Holding) : ∀ c' ≠ c, ¬ (s.calls c').Holding := by
  intro c' hne hc'
  exact hne (Option.some.inj ((h.gate c' hc').symm.trans (h.gate c hc)))

variable [DecidableEq C]

/-- One call moves while no other has the gate. -/
theorem Inv.of_move (hothers : ∀ c' ≠ c, ¬ (s.calls c').Holding)
    (hcalls : s'.calls = Function.update s.calls c pc) (hgate : pc.Holding → s'.gate = some c)
    (hpc : PcOk s'.flags pc)
    (hmarks : ∀ w, .marked w ∈ s'.log → Covered s'.log w ∨ isDirty s'.flags = true ∨
      isFlushing s'.flags = true ∧ Awaits s'.log w c pc) : Inv s' := by
  have hpcs : ∀ c', s'.calls c' = if c' = c then pc else s.calls c' := by
    intro c'
    rw [hcalls, Function.update_apply]
  constructor
  · intro c' hc'
    rw [hpcs] at hc'
    by_cases heq : c' = c
    · rw [if_pos heq] at hc'
      rw [heq]
      exact hgate hc'
    · rw [if_neg heq] at hc'
      exact absurd hc' (hothers c' heq)
  · intro c'
    rw [hpcs]
    by_cases heq : c' = c
    · rw [if_pos heq]
      exact hpc
    · rw [if_neg heq]
      exact pcOk_of_not_holding (hothers c' heq)
  · intro w hw
    refine (hmarks w hw).imp_right (Or.imp_right fun ⟨hflush, hawaits⟩ => ⟨hflush, fun c' => ?_⟩)
    rw [hpcs]
    by_cases heq : c' = c
    · rw [if_pos heq, heq]
      exact hawaits
    · rw [if_neg heq]
      exact awaits_of_not_holding (hothers c' heq)

/-- The same, if neither the flags nor the log change and the call neither starts nor
    completes an invalidation. -/
theorem Inv.goto (h : Inv s) (hothers : ∀ c' ≠ c, ¬ (s.calls c').Holding)
    (hcalls : s'.calls = Function.update s.calls c pc) (hgate : pc.Holding → s'.gate = some c)
    (hflags : s'.flags = s.flags) (hlog : s'.log = s.log) (hpc : PcOk s.flags pc)
    (hawaits : ∀ w, Awaits s.log w c (s.calls c) → Awaits s.log w c pc) : Inv s' := by
  refine Inv.of_move hothers hcalls hgate (by rw [hflags]; exact hpc) fun w hw => ?_
  rw [hlog] at hw ⊢
  rw [hflags]
  exact (h.marks w hw).imp_right (Or.imp_right fun ⟨hflush, hall⟩ => ⟨hflush, hawaits w (hall c)⟩)

theorem Inv.advance (h : Inv s) (hs : s.advance c = some s') : Inv s' := by
  have hok := h.calls c
  have hothers := @Inv.others _ _ s c h
  have hgate := h.gate c
  unfold State.advance at hs
  cases hpc : s.calls c with
  | start =>
    rw [hpc] at hs
    simp only at hs
    split_ifs at hs with hfree
    obtain rfl := Option.some.inj hs
    have hnone : ∀ c' ≠ c, ¬ (s.calls c').Holding := by
      intro c' _ hc'
      have := h.gate c' hc'
      rw [hfree] at this
      cases this
    exact h.goto hnone rfl (fun _ => rfl) rfl rfl trivial fun _ _ => trivial
  | locked =>
    rw [hpc] at hs hothers hgate
    obtain rfl := Option.some.inj hs
    obtain ⟨hdirty, hflush, hmask⟩ := masked_bits s.flags
    refine h.goto (hothers trivial) rfl (fun _ => hgate trivial) rfl rfl ?_ fun _ _ => trivial
    exact ⟨hmask, hflush, fun hd => hdirty.symm.trans hd⟩
  | loaded bits =>
    rw [hpc] at hs hothers hgate hok
    obtain ⟨hmask, hflush, hdirty⟩ := hok
    simp only at hs
    split_ifs at hs with h0 h1 h3 h2
    · obtain rfl := Option.some.inj hs
      exact h.goto (hothers trivial) rfl nofun rfl rfl trivial fun _ _ => trivial
    · -- the dirty bit becomes the flushing bit
      obtain rfl := Option.some.inj hs
      rw [h1] at hflush hdirty
      obtain ⟨hnew, herror⟩ := xor_bits (hdirty (by decide)) (hflush.symm.trans (by decide))
      exact Inv.of_move (hothers trivial) rfl (fun _ => hgate trivial) ⟨herror, hnew⟩
        fun _ _ => .inr (.inr ⟨hnew, trivial⟩)
    · -- both runs become one
      obtain rfl := Option.some.inj hs
      rw [h3] at hflush
      obtain ⟨hnew, herror⟩ := and_bits (hflush.symm.trans (by decide))
      exact Inv.of_move (hothers trivial) rfl (fun _ => hgate trivial) ⟨herror, hnew⟩
        fun _ _ => .inr (.inr ⟨hnew, trivial⟩)
    · obtain rfl := Option.some.inj hs
      rw [h2] at hflush
      exact h.goto (hothers trivial) rfl (fun _ => hgate trivial) rfl rfl
        (hflush.symm.trans (by decide)) fun _ _ => trivial
    · rcases masked_cases hmask with hb | hb | hb | hb
      · exact absurd hb h0
      · exact absurd hb h1
      · exact absurd hb h3
      · exact absurd hb h2
  | xored old =>
    rw [hpc] at hs hothers hgate hok
    simp only [hok.1, ne_eq, not_true_eq_false, if_false] at hs
    obtain rfl := Option.some.inj hs
    exact h.goto (hothers trivial) rfl (fun _ => hgate trivial) rfl rfl hok.2 fun _ _ => trivial
  | anded old =>
    rw [hpc] at hs hothers hgate hok
    simp only [hok.1, ne_eq, not_true_eq_false, if_false] at hs
    obtain rfl := Option.some.inj hs
    exact h.goto (hothers trivial) rfl (fun _ => hgate trivial) rfl rfl hok.2 fun _ _ => trivial
  | flushing =>
    rw [hpc] at hs hothers hgate hok
    obtain rfl := Option.some.inj hs
    refine Inv.of_move (hothers trivial) rfl (fun _ => hgate trivial) hok fun w hw => ?_
    have hw' : .marked w ∈ s.log := by simpa [State.record, State.goto] using hw
    exact .inr (.inr ⟨hok, begun_of_mem hw' c⟩)
  | invalidating =>
    rw [hpc] at hs hothers hgate hok
    obtain rfl := Option.some.inj hs
    refine Inv.of_move (hothers trivial) rfl (fun _ => hgate trivial) hok fun w hw => ?_
    have hw' : .marked w ∈ s.log := by simpa [State.record, State.goto] using hw
    rcases h.marks w hw' with hcovered | hdirty | ⟨-, hall⟩
    · exact .inl (hcovered.append _)
    · exact .inr (.inl hdirty)
    · have hbegun := hall c
      rw [hpc] at hbegun
      exact .inl (Begun.covered hbegun)
  | invalidated =>
    rw [hpc] at hs hothers hgate hok
    obtain rfl := Option.some.inj hs
    refine Inv.of_move (hothers trivial) rfl (fun _ => hgate trivial) hok fun w hw => ?_
    rcases h.marks w hw with hcovered | hdirty | ⟨-, hall⟩
    · exact .inl hcovered
    · exact .inr (.inl ((clear_bits s.flags).trans hdirty))
    · have hno := hall c
      rw [hpc] at hno
      exact hno.elim
  | cleared old =>
    rw [hpc] at hs hothers hgate hok
    have hset : ¬ old &&& IS_FLUSHING_DIRTY_PAGE = 0 := by
      intro hzero
      have hold : (old &&& IS_FLUSHING_DIRTY_PAGE != 0) = true := hok
      rw [hzero] at hold
      exact absurd hold (by decide)
    simp only [if_neg hset] at hs
    obtain rfl := Option.some.inj hs
    exact h.goto (hothers trivial) rfl nofun rfl rfl trivial fun _ _ => trivial
  | finished =>
    rw [hpc] at hs
    cases hs
  | panicked =>
    rw [hpc] at hs
    cases hs
  | exclusiveAccessError =>
    rw [hpc] at hs
    cases hs
  | unreachable =>
    rw [hpc] at hs
    cases hs

variable [DecidableEq W]

theorem Inv.step (h : Inv s) {a : Action C W} (hs : s.step a = some s') : Inv s' := by
  cases a with
  | store w =>
    simp only [State.step] at hs
    split_ifs at hs
    obtain rfl := Option.some.inj hs
    refine ⟨h.gate, h.calls, fun v hv => ?_⟩
    have hv' : .marked v ∈ s.log := by simpa [State.record] using hv
    rcases h.marks v hv' with hcovered | hdirty | ⟨hflush, hall⟩
    · exact .inl (hcovered.append _)
    · exact .inr (.inl hdirty)
    · exact .inr (.inr ⟨hflush, fun c => (hall c).append _⟩)
  | mark w =>
    simp only [State.step] at hs
    split_ifs at hs
    obtain rfl := Option.some.inj hs
    -- now the dirty bit stands for every mark
    exact ⟨h.gate, fun c => (h.calls c).mark, fun v _ => .inr (.inl (mark_bits s.flags).1)⟩
  | advance c => exact h.advance hs
  | panic c =>
    simp only [State.step] at hs
    split_ifs at hs with hpc
    obtain rfl := Option.some.inj hs
    have hhold : (s.calls c).Holding := by
      rw [hpc]
      trivial
    have hflush : isFlushing s.flags = true := by
      have hok := h.calls c
      rw [hpc] at hok
      exact hok
    exact Inv.of_move (h.others hhold) rfl nofun trivial fun _ _ => .inr (.inr ⟨hflush, trivial⟩)

theorem Inv.run (h : Inv s) {actions : List (Action C W)} (hrun : s.run actions = some s') :
    Inv s' := by
  induction actions generalizing s with
  | nil =>
    obtain rfl := Option.some.inj hrun
    exact h
  | cons a actions ih =>
    obtain ⟨mid, hstep, hrest⟩ := Option.bind_eq_some_iff.1 hrun
    exact ih (h.step hstep) hrest

/-- In every state that any interleaving of any calls and writers reaches: if both bits are
    clear, then after each mark an invalidation has started that has completed; and no call
    reports an exclusive-access error or is in the unreachable branch. -/
theorem flush_handover {flags : BitVec 8} {actions : List (Action C W)} {s : State C W}
    (hrun : (State.init flags).run actions = some s) :
    (s.flags &&& BOTH_DIRTY_MASK = 0 → ∀ w, .marked w ∈ s.log → Covered s.log w) ∧
      ∀ c, s.calls c ≠ .exclusiveAccessError ∧ s.calls c ≠ .unreachable := by
  have h : Inv s := (inv_init flags).run hrun
  constructor
  · intro hclear w hw
    obtain ⟨hdirty, hflush⟩ := (clear_iff s.flags).1 hclear
    rcases h.marks w hw with hcovered | hd | ⟨hf, -⟩
    · exact hcovered
    · rw [hdirty] at hd
      cases hd
    · rw [hflush] at hf
      cases hf
  · intro c
    have hok := h.calls c
    refine ⟨fun heq => ?_, fun heq => ?_⟩
    · rw [heq] at hok
      exact hok
    · rw [heq] at hok
      exact hok

end Steps

/-- Writer 0 marks the page, the invalidation of call 0 panics while writer 1 marks it again,
    and call 1 flushes both. -/
def panicThenFlush : List (Action ℕ ℕ) :=
  [.store 0, .mark 0] ++ List.replicate 5 (.advance 0) ++ [.store 1, .mark 1, .panic 0] ++
    List.replicate 8 (.advance 1)

/-- At its end both bits are clear and both marks covered. -/
theorem flush_handover_panicThenFlush :
    ∃ s, (State.init 0 : State ℕ ℕ).run panicThenFlush = some s ∧ s.flags = 0 ∧
      s.calls 0 = .panicked ∧ s.calls 1 = .finished ∧ Covered s.log 0 ∧ Covered s.log 1 := by
  refine ⟨_, rfl, rfl, rfl, rfl, ?_, ?_⟩
  · exact (@flush_handover ℕ ℕ _ _ 0 panicThenFlush _ rfl).1 rfl 0 (by decide)
  · exact (@flush_handover ℕ ℕ _ _ 0 panicThenFlush _ rfl).1 rfl 1 (by decide)

end RapidArm.Mmu.FlushDyn
