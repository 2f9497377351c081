import RapidArm.Tar.Budget

/-!
# The thread that reads an archive

The thread of `open_archive_inner` (`tar_ball.rs`, lines 339–459). The archive is the list
of what its iterator yields: an error of an entry or its path, or a file whose reads fail
after some bytes, if at all. A round of each of the two loops is a program, and `LoopState`
has the local variables between two rounds.

Results:
* `LoopState.round_ensures`: a round of either loop keeps `LoopOk`, the balance among it.
* `openArchive_ensures`: what comes before the first round establishes it.
-/

namespace RapidArm.Tar

open RapidArm.Lib

/-! ## The code -/

/-- What the iterator over the entries yields. -/
inductive Item
  | error
  | file (bytes : List Byte) (failsAfter : Option ℕ)
  deriving DecidableEq, Repr

/-- The files among some items. -/
def filesOf : List Item → List (List Byte)
  | [] => []
  | .error :: items => filesOf items
  | .file bytes _ :: items => bytes :: filesOf items

/-- `read_to_end` of at most `limit` bytes of what is left of a file; `none` is an error. It
    fails where a read fails that it makes, at the latest the one that finds the end. -/
def readChunk (rest : List Byte) (failsAfter : Option ℕ) (limit : ℕ) : Option (List Byte) :=
  match failsAfter with
  | some p => if p < limit ∧ p ≤ rest.length then none else some (rest.take limit)
  | none => some (rest.take limit)

/-- `MAX_BUFFERED_FILE_BYTES`. -/
def MAX_BUFFERED_FILE_BYTES : ℕ+ := ⟨32 * 1024 * 1024, by decide⟩

/-- The local variables of the reading loop. -/
structure ReadingLoop where
  entries : List Item
  budgetCalc : BudgetCalculator
  readerTx : ℕ
  rest : List Byte
  failsAfter : Option ℕ
  budgetForSend : ℕ+
  inFlight : Option ℕ+

/-- Where the thread is between two rounds of its loops. -/
inductive LoopState
  | betweenEntries (entries : List Item) (budgetCalc : BudgetCalculator)
  | reading (s : ReadingLoop)
  | finished

/-- `flush_in_flight`, and the `replace` of the bytes in flight. -/
def flushInFlight (inFlight : Option ℕ+) (budgetCalc : BudgetCalculator) :
    Reader BudgetCalculator :=
  match inFlight with
  | some remaining => budgetCalc.addBudget remaining
  | none => return budgetCalc

/-- What follows the reading loop: the sender is enqueued with the bytes in flight, or
    dropped. -/
def endEntry (entries : List Item) (budgetCalc : BudgetCalculator) (readerTx : ℕ)
    (inFlight : Option ℕ+) :
    Reader LoopState := do
  match inFlight with
  | some inFlight => return .betweenEntries entries (← budgetCalc.enqueue inFlight readerTx)
  | none =>
    dropSender readerTx
    return .betweenEntries entries budgetCalc

/-- What follows the loop over the entries. -/
def endArchive (budgetCalc : BudgetCalculator) : Reader LoopState := do
  budgetCalc.assertBudgetComplete
  return .finished

/-- A round of the loop over the entries, up to the reading loop. -/
def nextEntry (entries : List Item) (budgetCalc : BudgetCalculator) : Reader LoopState :=
  match entries with
  | [] => endArchive budgetCalc
  | .error :: entries => do
    if ← sendError then return .betweenEntries entries budgetCalc else endArchive budgetCalc
  | .file bytes failsAfter :: entries => do
    let readerTx ← channel bytes
    if ← sendEntry readerTx then
      let (budgetForSend, budgetCalc) ← budgetCalc.getAvailableBudget
      return .reading ⟨entries, budgetCalc, readerTx, bytes, failsAfter, budgetForSend, none⟩
    else
      dropSender readerTx
      endArchive budgetCalc

namespace ReadingLoop

/-- A chunk of the file was read. -/
def sendData (s : ReadingLoop) (data : List Byte) (res : ℕ+) : Reader LoopState := do
  if ← send s.readerTx (.newData data) then
    let budgetCalc ← flushInFlight s.inFlight s.budgetCalc
    let (flushedInFlight, newBudget, budgetCalc) ← budgetCalc.consume res s.readerTx
    return .reading { s with
      budgetCalc, rest := s.rest.drop data.length, failsAfter := s.failsAfter.map (· - data.length),
      budgetForSend := newBudget, inFlight := if flushedInFlight then none else some res }
  else
    let budgetCalc ← flushInFlight s.inFlight s.budgetCalc
    endEntry s.entries budgetCalc s.readerTx none

/-- A read failed. -/
def sendFailure (s : ReadingLoop) : Reader LoopState := do
  let _ ← send s.readerTx .error
  let budgetCalc ← flushInFlight s.inFlight s.budgetCalc
  endEntry s.entries budgetCalc s.readerTx none

/-- A round of the reading loop. -/
def round (s : ReadingLoop) : Reader LoopState :=
  match readChunk s.rest s.failsAfter s.budgetForSend with
  | none => s.sendFailure
  | some data =>
    match nonZero data.length with
    | none => endEntry s.entries s.budgetCalc s.readerTx s.inFlight
    | some res => s.sendData data res

end ReadingLoop

/-- A round of the loop that the thread is in. -/
def LoopState.round : LoopState → Reader LoopState
  | betweenEntries entries budgetCalc => nextEntry entries budgetCalc
  | reading s => s.round
  | finished => return .finished

/-- The thread, before its loops; `entries` of the archive may fail. -/
def openArchive : Option (List Item) → Reader LoopState
  | none => do
    let _ ← sendError
    return .finished
  | some entries => return .betweenEntries entries (.new MAX_BUFFERED_FILE_BYTES)

/-! ## What the rounds keep -/

/-- The channel of the entry that is read: its sender is in use, nothing is pending on it,
    and what was sent and what is left are the file. -/
structure ReadingLoop.ChannelOk (s : ReadingLoop) (g : List Feed) : Prop where
  active : s.readerTx ∉ s.budgetCalc.pendingOperations.map Prod.snd
  feed : ∃ f, g[s.readerTx]? = some f ∧ f.dropped = false ∧ f.sent ++ s.rest = f.file

/-- The invariant of the reading loop. -/
structure ReadingLoop.Ok (files : List (List Byte)) (s : ReadingLoop) (g : List Feed) : Prop where
  balanced : s.budgetCalc.Balanced s.inFlight g
  budget : (s.budgetForSend : ℕ) = s.budgetCalc.currentBudget
  channel : s.ChannelOk g
  files : g.map Feed.file ++ filesOf s.entries = files

/-- The invariant of both loops. -/
def LoopOk (files : List (List Byte)) (s : LoopState) (g : List Feed) : Prop :=
  match s with
  | .betweenEntries entries budgetCalc =>
    budgetCalc.Balanced none g ∧ g.map Feed.file ++ filesOf entries = files
  | .reading s => s.Ok files g
  | .finished => True

variable {files : List (List Byte)} {g g' : List Feed}

theorem readChunk_eq_some {rest data : List Byte} {failsAfter : Option ℕ} {limit : ℕ}
    (h : readChunk rest failsAfter limit = some data) : data = rest.take limit := by
  unfold readChunk at h
  cases failsAfter with
  | none => exact (Option.some.inj h).symm
  | some p =>
    dsimp only at h
    by_cases hc : p < limit ∧ p ≤ rest.length
    · rw [if_pos hc] at h
      cases h
    · rw [if_neg hc] at h
      exact (Option.some.inj h).symm

theorem BudgetCalculator.Balanced.frame {b : BudgetCalculator} {inFlight : Option ℕ+} {ch : ℕ}
    (h : b.Balanced inFlight g) (hframe : Framed [ch] g g')
    (hactive : ch ∉ b.pendingOperations.map Prod.snd) :
    b.Balanced inFlight g' where
  total := h.total
  balance := h.balance
  pending := h.pending.frame hframe fun p hp hmem =>
    hactive (List.mem_map.2 ⟨p, hp, List.mem_singleton.1 hmem⟩)

/-- The bytes in flight are free again. -/
theorem flushInFlight_ensures {b : BudgetCalculator} {inFlight : Option ℕ+}
    (h : b.Balanced inFlight g) {post : BudgetCalculator → List Feed → Prop}
    (hpost : ∀ b' : BudgetCalculator, b'.Balanced none g →
      b'.pendingOperations = b.pendingOperations →
      b.currentBudget ≤ b'.currentBudget → post b' g) :
    (flushInFlight inFlight b).Ensures (channels files) post g := by
  cases inFlight with
  | none => exact hpost b h rfl (Nat.le_refl _)
  | some n =>
    exact BudgetCalculator.addBudget_ensures h fun hb => hpost _ hb rfl (Nat.le_add_right _ _)

theorem endEntry_ensures {entries : List Item} {b : BudgetCalculator} {ch : ℕ}
    {inFlight : Option ℕ+} (hb : b.Balanced inFlight g)
    (hactive : ch ∉ b.pendingOperations.map Prod.snd)
    (hfeed : ∃ f, g[ch]? = some f ∧ f.dropped = false ∧ f.Complete)
    (hfiles : g.map Feed.file ++ filesOf entries = files) :
    (endEntry entries b ch inFlight).Ensures (channels files) (LoopOk files) g := by
  cases inFlight with
  | none =>
    refine Program.Ensures.bind (Program.ensures_perform hfeed ?_)
    intro _ g' hg'
    have hframe : Framed [ch] g g' := by
      rw [show g' = _ from hg']
      exact framed_modify _ _ fun _ => rfl
    refine ⟨hb.frame hframe hactive, ?_⟩
    rw [hframe.files]
    exact hfiles
  | some n =>
    refine Program.Ensures.bind ((BudgetCalculator.enqueue_ensures hb hfeed hactive).mono ?_)
    rintro b' g' ⟨rfl, hb'⟩
    exact ⟨hb', hfiles⟩

theorem endArchive_ensures {b : BudgetCalculator} (hb : b.Balanced none g) :
    (endArchive b).Ensures (channels files) (LoopOk files) g :=
  Program.Ensures.bind
    ((BudgetCalculator.assertBudgetComplete_ensures hb).mono fun _ _ _ => trivial)

/-- A round of the loop over the entries. -/
theorem nextEntry_ensures {entries : List Item} {b : BudgetCalculator} (hb : b.Balanced none g)
    (hfiles : g.map Feed.file ++ filesOf entries = files) :
    (nextEntry entries b).Ensures (channels files) (LoopOk files) g := by
  rcases entries with _ | ⟨_ | ⟨bytes, failsAfter⟩, entries⟩
  · exact endArchive_ensures hb
  · refine Program.Ensures.bind (Program.ensures_perform trivial ?_)
    intro (sent : Bool) g' hg'
    obtain rfl : g' = g := hg'
    cases sent with
    | true => exact ⟨hb, hfiles⟩
    | false => exact endArchive_ensures hb
  · have hnew : g.map Feed.file ++ [bytes] ++ filesOf entries = files := by
      rw [← hfiles, List.append_assoc]
      rfl
    refine Program.Ensures.bind (Program.ensures_perform ⟨_, hnew⟩ ?_)
    intro (ch : ℕ) g' hanswer
    obtain ⟨rfl, rfl⟩ := hanswer
    have hget : (g ++ [Feed.new bytes])[g.length]? = some (.new bytes) :=
      List.getElem?_concat_length
    have hold : ∀ i < g.length, (g ++ [Feed.new bytes])[i]? = g[i]? :=
      fun i hi => List.getElem?_append_left hi
    have hlt : ∀ p ∈ b.pendingOperations, p.2 < g.length := by
      intro p hp
      obtain ⟨f, hf, -⟩ := hb.pending.feed p hp
      exact (List.getElem?_eq_some_iff.1 hf).1
    have hb' : b.Balanced none (g ++ [Feed.new bytes]) := by
      refine ⟨hb.total, hb.balance, hb.pending.nodup, ?_⟩
      intro p hp
      rw [hold _ (hlt p hp)]
      exact hb.pending.feed p hp
    have hactive : g.length ∉ b.pendingOperations.map Prod.snd := by
      intro hmem
      obtain ⟨p, hp, heq⟩ := List.mem_map.1 hmem
      have := hlt p hp
      omega
    refine Program.Ensures.bind (Program.ensures_perform ⟨_, hget, rfl⟩ ?_)
    intro (sent : Bool) g' hg'
    cases sent with
    | true =>
      obtain rfl : g' = g ++ [Feed.new bytes] := hg'
      refine Program.Ensures.bind ((BudgetCalculator.getAvailableBudget_ensures hb').mono ?_)
      rintro ⟨budget, b''⟩ g'' ⟨hb'', hbudget, hsub, hframe⟩
      refine ⟨hb'', hbudget, ⟨fun hmem => hactive ((hsub.map _).mem hmem), _,
        (hframe.feed _ hactive).trans hget, rfl, rfl⟩, ?_⟩
      rw [hframe.files, List.map_append]
      exact hnew
    | false =>
      obtain rfl : g' = (g ++ [Feed.new bytes]).modify g.length fun f => { f with lost := true } :=
        hg'
      have hget' :
          ((g ++ [Feed.new bytes]).modify g.length fun f => { f with lost := true })[g.length]? =
          some { Feed.new bytes with lost := true } := by
        rw [List.getElem?_modify_eq, hget]
        rfl
      refine Program.Ensures.bind (Program.ensures_perform ⟨_, hget', rfl, .inr (.inr rfl)⟩ ?_)
      intro _ g'' hg''
      obtain rfl : g'' = _ := hg''
      have hframe :=
        framed_modify (g ++ [Feed.new bytes]) g.length (f := fun f => { f with lost := true })
        fun _ => rfl
      have hframe' :=
        framed_modify ((g ++ [Feed.new bytes]).modify g.length fun f => { f with lost := true })
        g.length (f := fun f => { f with dropped := true }) fun _ => rfl
      exact endArchive_ensures ((hb'.frame hframe hactive).frame hframe' hactive)

namespace ReadingLoop

variable {s : ReadingLoop}

/-- What is sent next is the next of the file. -/
theorem ChannelOk.requires (h : s.ChannelOk g) {packet : Packet} (hne : packet ≠ .newData [])
    (hdata : packet.data <+: s.rest) :
    ∃ f, g[s.readerTx]? = some f ∧ f.dropped = false ∧ packet ≠ .newData [] ∧
      f.sent ++ packet.data <+: f.file := by
  obtain ⟨f, hf, hdropped, hfile⟩ := h.feed
  refine ⟨f, hf, hdropped, hne, ?_⟩
  rw [← hfile]
  exact (List.prefix_append_right_inj _).2 hdata

/-- The end of the reading loop with nothing left to send, in every case but the end of the
    file: what was in flight is free again. -/
theorem flush_and_end (hs : s.Ok files g) {change : Feed → Feed}
    (hchange : ∀ f, (change f).file = f.file ∧ (change f).dropped = f.dropped ∧
      (change f).Complete) :
    Program.Ensures (channels files) (LoopOk files) (do
      let budgetCalc ← flushInFlight s.inFlight s.budgetCalc
      endEntry s.entries budgetCalc s.readerTx none) (g.modify s.readerTx change) := by
  have hframe : Framed [s.readerTx] g (g.modify s.readerTx change) :=
    framed_modify _ _ fun f => (hchange f).1
  obtain ⟨f, hf, hdropped, -⟩ := hs.channel.feed
  have hget : (g.modify s.readerTx change)[s.readerTx]? = some (change f) := by
    rw [List.getElem?_modify_eq, hf]
    rfl
  refine Program.Ensures.bind
    (flushInFlight_ensures (hs.balanced.frame hframe hs.channel.active) ?_)
  intro b' hb' hpending _
  refine endEntry_ensures hb' ?_ ⟨_, hget, (hchange f).2.1.trans hdropped, (hchange f).2.2⟩ ?_
  · rw [hpending]
    exact hs.channel.active
  · rw [hframe.files]
    exact hs.files

/-- A chunk was sent: it is in flight, and what was in flight before is not. -/
theorem sent_ensures (hs : s.Ok files g) {data : List Byte} {res : ℕ+}
    (hres : (res : ℕ) = data.length) (hdata : data = s.rest.take s.budgetForSend) :
    Program.Ensures (channels files) (LoopOk files) (do
      let budgetCalc ← flushInFlight s.inFlight s.budgetCalc
      let (flushedInFlight, newBudget, budgetCalc) ← budgetCalc.consume res s.readerTx
      return .reading { s with
        budgetCalc, rest := s.rest.drop data.length, failsAfter :=
          s.failsAfter.map (· - data.length),
        budgetForSend := newBudget, inFlight := if flushedInFlight then none else some res })
      (g.modify s.readerTx fun f => f.send (.newData data)) := by
  have hframe : Framed [s.readerTx] g (g.modify s.readerTx fun f => f.send (.newData data)) :=
    framed_modify _ _ fun _ => rfl
  obtain ⟨f, hf, hdropped, hfile⟩ := hs.channel.feed
  have hget : (g.modify s.readerTx fun f => f.send (.newData data))[s.readerTx]? =
      some (f.send (.newData data)) := by
    rw [List.getElem?_modify_eq, hf]
    rfl
  refine Program.Ensures.bind
    (flushInFlight_ensures (hs.balanced.frame hframe hs.channel.active) ?_)
  intro b' hb' hpending hle
  have hn : (res : ℕ) ≤ b'.currentBudget := by
    have hlength : data.length ≤ s.budgetForSend := by
      rw [hdata]
      exact List.length_take_le _ _
    have hbudget := hs.budget
    omega
  have hactive : s.readerTx ∉ b'.pendingOperations.map Prod.snd := by
    rw [hpending]
    exact hs.channel.active
  refine Program.Ensures.bind
    ((BudgetCalculator.consume_ensures hb' hn ⟨_, hget, hdropped⟩ hactive).mono ?_)
  rintro ⟨flushed, newBudget, b''⟩ g' ⟨hb'', hbudget, hsub, hframe'⟩
  refine ⟨hb'', hbudget, ⟨fun hmem => hactive ((hsub.map _).mem hmem), _,
    (hframe'.feed _ hactive).trans hget, hdropped, ?_⟩, ?_⟩
  · show f.sent ++ data ++ s.rest.drop data.length = f.file
    have hsplit : data ++ s.rest.drop data.length = s.rest := by
      have hprefix : data <+: s.rest := hdata ▸ List.take_prefix _ _
      obtain ⟨tail, htail⟩ := hprefix
      rw [← htail, List.drop_left]
    rw [List.append_assoc, hsplit, hfile]
  · rw [hframe'.files, hframe.files]
    exact hs.files

theorem sendData_ensures (hs : s.Ok files g) {data : List Byte} {res : ℕ+}
    (hres : (res : ℕ) = data.length) (hdata : data = s.rest.take s.budgetForSend) :
    (s.sendData data res).Ensures (channels files) (LoopOk files) g := by
  have hne : Packet.newData data ≠ .newData [] := by
    intro heq
    have hempty : data = [] := Packet.newData.inj heq
    have hpos := res.pos
    rw [hres, hempty] at hpos
    exact absurd hpos (Nat.lt_irrefl 0)
  have hprefix : (Packet.newData data).data <+: s.rest := hdata ▸ List.take_prefix _ _
  refine Program.Ensures.bind (Program.ensures_perform (hs.channel.requires hne hprefix) ?_)
  intro (sent : Bool) g' hg'
  obtain rfl : g' = _ := hg'
  cases sent with
  | true => exact sent_ensures hs hres hdata
  | false => exact flush_and_end hs fun f => ⟨rfl, rfl, .inr (.inr rfl)⟩

theorem sendFailure_ensures (hs : s.Ok files g) :
    s.sendFailure.Ensures (channels files) (LoopOk files) g := by
  have hne : Packet.error ≠ .newData [] := fun heq => nomatch heq
  refine Program.Ensures.bind (Program.ensures_perform (hs.channel.requires hne List.nil_prefix) ?_)
  intro (sent : Bool) g' hg'
  obtain rfl : g' = _ := hg'
  refine flush_and_end hs fun f => ?_
  cases sent with
  | true => exact ⟨rfl, rfl, .inr (.inl (Bool.or_true _))⟩
  | false => exact ⟨rfl, rfl, .inr (.inr rfl)⟩

/-- A round of the reading loop. -/
theorem round_ensures (hs : s.Ok files g) : s.round.Ensures (channels files) (LoopOk files) g := by
  unfold round
  cases hread : readChunk s.rest s.failsAfter s.budgetForSend with
  | none => exact sendFailure_ensures hs
  | some data =>
    have hdata := readChunk_eq_some hread
    show Program.Ensures _ _ (match nonZero data.length with
      | none => endEntry s.entries s.budgetCalc s.readerTx s.inFlight
      | some res => s.sendData data res) g
    rcases Nat.eq_zero_or_pos data.length with hzero | hpos
    · -- the end of the file: all of it was sent
      rw [hzero, nonZero_zero]
      obtain ⟨f, hf, hdropped, hfile⟩ := hs.channel.feed
      have hrest : s.rest = [] := by
        have hbudget := s.budgetForSend.pos
        rw [hdata, List.length_take] at hzero
        apply List.eq_nil_of_length_eq_zero
        omega
      refine endEntry_ensures hs.balanced hs.channel.active ⟨f, hf, hdropped, .inl ?_⟩ hs.files
      rw [← hfile, hrest, List.append_nil]
    · rw [nonZero_pos hpos]
      exact sendData_ensures hs rfl hdata

end ReadingLoop

/-- Every round of both loops keeps the invariant. -/
theorem LoopState.round_ensures {s : LoopState} (h : LoopOk files s g) :
    s.round.Ensures (channels files) (LoopOk files) g := by
  cases s with
  | betweenEntries entries b => exact nextEntry_ensures h.1 h.2
  | reading s => exact ReadingLoop.round_ensures h
  | finished => exact trivial

/-- Before the loops, the whole budget is free. -/
theorem openArchive_ensures (archive : Option (List Item)) :
    (openArchive archive).Ensures (channels (filesOf (archive.getD [])))
    (LoopOk (filesOf (archive.getD []))) [] := by
  cases archive with
  | none => exact Program.Ensures.bind (Program.ensures_perform trivial fun _ _ _ => trivial)
  | some entries =>
    refine ⟨⟨?_, rfl, List.nodup_nil, fun p hp => nomatch hp⟩, rfl⟩
    show 32 * 1024 * 1024 < 2 ^ 64
    omega

end RapidArm.Tar
