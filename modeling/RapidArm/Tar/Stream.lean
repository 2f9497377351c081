import RapidArm.Tar.Archive
import Mathlib.Logic.Relation

/-!
# The stream of an archive

The thread of the reader and the consumer of its stream, one step at a time in any order.
The channels are first-in-first-out queues: the stream's holds 192 entries, one of an entry
holds one packet. The consumer takes entries from the stream and reads each in any way, or
drops it or the stream.

Results:
* `Step.keeps`: every step keeps the invariant.
* `stream_conserves`: in every reachable state the budget is balanced, nothing has
  panicked, and every entry has delivered the bytes of its file, in order.
-/

namespace RapidArm.Tar

open RapidArm.Lib Relation

/-! ## The channels -/

/-- The entries, by the number of their channel, and the stream: of an item the channel of
    its entry, or an error. -/
structure World where
  entries : List Entry
  stream : List (Option ℕ)
  streamAlive : Bool
  deriving DecidableEq, Repr

/-- Before the thread starts. -/
def World.new : World := ⟨[], [], true⟩

/-- One entry changes. -/
def World.modify (w : World) (ch : ℕ) (change : Entry → Entry) : World :=
  { w with entries := w.entries.modify ch change }

/-- The feeds of all channels. -/
def World.feeds (w : World) : List Feed := w.entries.map Entry.feed

/-- A call of the reader's thread with its answer. A send to a channel that is full waits,
    unless there is no receiver. -/
inductive World.Performs (w : World) : (op : Op) → Res op → World → Prop
  | channel (file : List Byte) :
      Performs w (.channel file) w.entries.length { w with entries := w.entries ++ [.new file] }
  | entrySent (ch : ℕ) : w.streamAlive → w.stream.length < 192 →
      Performs w (.sendEntry ch) true { w with stream := w.stream ++ [some ch] }
  | entryLost (ch : ℕ) : w.streamAlive = false →
    Performs w (.sendEntry ch) false (w.modify ch Entry.lose)
  | errorSent : w.streamAlive → w.stream.length < 192 →
      Performs w .sendError true { w with stream := w.stream ++ [none] }
  | errorLost : w.streamAlive = false → Performs w .sendError false w
  | sent {ch : ℕ} {e : Entry} (packet : Packet) : w.entries[ch]? = some e → e.alive → e.queue = [] →
      Performs w (.send ch packet) true (w.modify ch fun e => e.push packet)
  | lost {ch : ℕ} {e : Entry} (packet : Packet) : w.entries[ch]? = some e → e.alive = false →
      Performs w (.send ch packet) false (w.modify ch Entry.lose)
  | flushed {ch : ℕ} {e : Entry} : w.entries[ch]? = some e → e.alive → e.queue = [] →
      Performs w (.trySendFlush ch) .ok (w.modify ch fun e => e.push .flushBuffer)
  | disconnected {ch : ℕ} {e : Entry} : w.entries[ch]? = some e → e.alive = false →
      Performs w (.trySendFlush ch) .disconnected w
  | full {ch : ℕ} {e : Entry} : w.entries[ch]? = some e → e.alive → e.queue ≠ [] →
      Performs w (.trySendFlush ch) .full w
  | selected {chs : List ℕ} {i ch : ℕ} {e : Entry} : chs[i]? = some ch →
    w.entries[ch]? = some e → e.alive →
      e.queue = [] → Performs w (.selectFlush chs) i (w.modify ch fun e => e.push .flushBuffer)
  | selectedLost {chs : List ℕ} {i ch : ℕ} {e : Entry} : chs[i]? = some ch →
    w.entries[ch]? = some e →
      e.alive = false → Performs w (.selectFlush chs) i w
  | senderDropped (ch : ℕ) : Performs w (.dropSender ch) () (w.modify ch Entry.dropSender)
  | slabKey {len i : ℕ} : i ≤ len → Performs w (.slabKey len) i w

/-- The consumer calls a method of an entry. -/
inductive TarFileEntry.Calls (t : TarFileEntry) : TarFileEntry → Prop
  | fillBuf : Calls t t.fillBuf
  | consume (amount : ℕ) : Calls t (t.consume amount)
  | read (len : ℕ) : Calls t (t.read len)
  | readToEnd (buf : List Byte) : Calls t (t.readToEnd buf)

/-- What the consumer may do: take the next item from the stream, drop the stream, call a
    method of an entry that it has, receive a packet for a call under way, and drop an
    entry. Entries in a stream without a receiver are dropped at any time. -/
inductive World.Consumes (w : World) : World → Prop
  | nextEntry {ch : ℕ} {rest : List (Option ℕ)} : w.streamAlive → w.stream = some ch :: rest →
      Consumes w ({ w with stream := rest }.modify ch fun e => { e with received := true })
  | nextError {rest : List (Option ℕ)} : w.streamAlive → w.stream = none :: rest →
      Consumes w { w with stream := rest }
  | dropStream : Consumes w { w with streamAlive := false }
  | call (ch : ℕ) {e : Entry} {t : TarFileEntry} : w.entries[ch]? = some e → e.alive → e.received →
      e.reader.call = .idle → e.reader.Calls t →
        Consumes w (w.modify ch fun e => { e with reader := t })
  | receive (ch : ℕ) (adopt : Bool) {e e' : Entry} : w.entries[ch]? = some e → e.alive →
    e.reader.call ≠ .idle →
      e.receive adopt = some e' → Consumes w (w.modify ch fun _ => e')
  | dropEntry (ch : ℕ) {e : Entry} : w.entries[ch]? = some e → e.received ∨ w.streamAlive = false →
      Consumes w (w.modify ch fun e => { e with alive := false })

/-! ## The steps -/

/-- The thread is between two rounds, or in one. -/
inductive Thread
  | loop (s : LoopState)
  | running (p : Reader LoopState)

/-- The thread and what it shares with the consumer. -/
structure Config where
  thread : Thread
  world : World

/-- A step: the thread begins a round, gets an answer or ends a round, or the consumer does
    something. -/
inductive Step : Config → Config → Prop
  | round (s : LoopState) (w : World) : Step ⟨.loop s, w⟩ ⟨.running s.round, w⟩
  | answer {op : Op} {next : Res op → Reader LoopState} {r : Res op} {w w' : World} :
    w.Performs op r w' →
      Step ⟨.running (.call op next), w⟩ ⟨.running (next r), w'⟩
  | ret (s : LoopState) (w : World) : Step ⟨.running (.ret s), w⟩ ⟨.loop s, w⟩
  | consumer {thread : Thread} {w w' : World} : w.Consumes w' → Step ⟨thread, w⟩ ⟨thread, w'⟩

/-- `open_archive_inner` returns the stream, and its thread starts. -/
def start (archive : Option (List Item)) : Config := ⟨.running (openArchive archive), .new⟩

/-- The states of all runs on an archive. -/
def Reachable (archive : Option (List Item)) (c : Config) : Prop :=
  ReflTransGen Step (start archive) c

/-! ## The invariant -/

/-- What the thread does, whatever it is answered, is allowed and keeps the balance. -/
def Thread.Ok (files : List (List Byte)) (g : List Feed) : Thread → Prop
  | loop s => LoopOk files s g
  | running p => p.Ensures (channels files) (LoopOk files) g

/-- The invariant: of the thread and its channels, and of every entry. -/
structure Config.Ok (files : List (List Byte)) (c : Config) : Prop where
  thread : c.thread.Ok files c.world.feeds
  entries : ∀ e ∈ c.world.entries, e.Sound
  files : c.world.feeds.map Feed.file <+: files

/-! ## The thread keeps it -/

variable {files : List (List Byte)} {w w' : World}

theorem World.feeds_getElem {ch : ℕ} {e : Entry} (h : w.entries[ch]? = some e) :
    w.feeds[ch]? = some e.feed := by
  unfold World.feeds
  rw [List.getElem?_map, h]
  rfl

theorem World.feeds_modify {ch : ℕ} {change : Entry → Entry} {f : Feed → Feed}
    (hf : ∀ e, w.entries[ch]? = some e → (change e).feed = f e.feed) :
    (w.modify ch change).feeds = w.feeds.modify ch f :=
  map_modify_comm hf

theorem World.feeds_modify_same {ch : ℕ} {change : Entry → Entry}
    (hf : ∀ e, w.entries[ch]? = some e → (change e).feed = e.feed) :
    (w.modify ch change).feeds = w.feeds :=
  (World.feeds_modify hf).trans (List.modify_id _ _)

/-- A flush carries no bytes. -/
theorem Feed.send_flush (f : Feed) : f.send .flushBuffer = f := by
  show { f with sent := f.sent ++ [], errored := f.errored || false } = f
  rw [List.append_nil, Bool.or_false]

/-- The channels answer as the thread expects it. -/
theorem World.Performs.answers {op : Op} {r : Res op} (h : w.Performs op r w') :
    (channels files).answers w.feeds op r w'.feeds := by
  have hflush : ∀ ch, (w.modify ch fun e => e.push .flushBuffer).feeds = w.feeds := fun ch =>
    World.feeds_modify_same fun e _ => e.feed.send_flush
  cases h with
  | channel file => exact ⟨List.length_map _ |>.symm, List.map_append⟩
  | entrySent ch halive hroom => exact rfl
  | entryLost ch hgone => exact World.feeds_modify fun _ _ => rfl
  | errorSent halive hroom => exact rfl
  | errorLost hgone => exact rfl
  | sent packet he halive hempty => exact World.feeds_modify fun _ _ => rfl
  | lost packet he hgone => exact World.feeds_modify fun _ _ => rfl
  | flushed he halive hempty => exact hflush _
  | disconnected he hgone => exact rfl
  | full he halive hfull => exact rfl
  | selected hi he halive hempty => exact ⟨(List.getElem?_eq_some_iff.1 hi).1, hflush _⟩
  | selectedLost hi he hgone => exact ⟨(List.getElem?_eq_some_iff.1 hi).1, rfl⟩
  | senderDropped ch => exact World.feeds_modify fun _ _ => rfl
  | slabKey hi => exact ⟨hi, rfl⟩

theorem World.sound_modify {ch : ℕ} {change : Entry → Entry} (hentries : ∀ e ∈ w.entries, e.Sound)
    (hchange : ∀ e, w.entries[ch]? = some e → e.Sound → (change e).Sound) :
    ∀ e ∈ (w.modify ch change).entries, e.Sound := by
  intro e he
  rcases mem_modify he with hold | ⟨e, hget, rfl⟩
  · exact hentries e hold
  · exact hchange e hget (hentries e (List.mem_of_getElem? hget))

theorem Open.dropped {ch : ℕ} (h : Open w.feeds ch) {e : Entry} (he : w.entries[ch]? = some e) :
    e.feed.dropped = false := by
  obtain ⟨f, hf, hdropped⟩ := h
  obtain rfl := Option.some.inj (hf.symm.trans (World.feeds_getElem he))
  exact hdropped

/-- A flush of an entry whose sender is in use. -/
theorem World.sound_flush {ch : ℕ} (hopen : Open w.feeds ch) (hentries : ∀ e ∈ w.entries, e.Sound) :
    ∀ e ∈ (w.modify ch fun e => e.push .flushBuffer).entries, e.Sound := by
  refine World.sound_modify hentries ?_
  intro e he hsound
  refine hsound.push (hopen.dropped he) (fun heq => nomatch heq) ?_
  show e.feed.sent ++ [] <+: e.feed.file
  rw [List.append_nil]
  exact hsound.sent

/-- Calls that are allowed keep every entry sound. -/
theorem World.Performs.sound {op : Op} {r : Res op} (h : w.Performs op r w')
    (hrequires : (channels files).requires w.feeds op) (hentries : ∀ e ∈ w.entries, e.Sound) :
    ∀ e ∈ w'.entries, e.Sound := by
  cases h with
  | channel file =>
    intro e he
    rcases List.mem_append.1 he with hold | hnew
    · exact hentries e hold
    · rw [List.mem_singleton.1 hnew]
      exact Entry.Sound.new file
  | entrySent ch halive hroom => exact hentries
  | entryLost ch hgone =>
    exact World.sound_modify hentries fun e he hsound => hsound.lose (Open.dropped hrequires he)
  | errorSent halive hroom => exact hentries
  | errorLost hgone => exact hentries
  | sent packet he halive hempty =>
    obtain ⟨f, hf, hdropped, hne, hsent⟩ := hrequires
    refine World.sound_modify hentries ?_
    intro e he hsound
    obtain rfl := Option.some.inj (hf.symm.trans (World.feeds_getElem he))
    exact hsound.push hdropped hne hsent
  | lost packet he hgone =>
    obtain ⟨f, hf, hdropped, -⟩ := hrequires
    exact World.sound_modify hentries fun e he hsound =>
      hsound.lose (Open.dropped ⟨f, hf, hdropped⟩ he)
  | flushed he halive hempty => exact World.sound_flush hrequires hentries
  | disconnected he hgone => exact hentries
  | full he halive hfull => exact hentries
  | selected hi he halive hempty =>
    exact World.sound_flush (hrequires.2 _ (List.mem_of_getElem? hi)) hentries
  | selectedLost hi he hgone => exact hentries
  | senderDropped ch =>
    obtain ⟨f, hf, -, hcomplete⟩ := hrequires
    refine World.sound_modify hentries ?_
    intro e he hsound
    obtain rfl := Option.some.inj (hf.symm.trans (World.feeds_getElem he))
    exact hsound.dropSender hcomplete
  | slabKey hi => exact hentries

/-- The channels are those of the first files of the archive. -/
theorem channels_files {op : Op} {r : Res op} {g g' : List Feed}
    (hrequires : (channels files).requires g op) (hanswers : (channels files).answers g op r g')
    (hfiles : g.map Feed.file <+: files) :
    g'.map Feed.file <+: files := by
  have hmodify : ∀ ch (f : Feed → Feed), (∀ feed, (f feed).file = feed.file) → g' = g.modify ch f →
      g'.map Feed.file <+: files := by
    intro ch f hf hg'
    rw [hg', map_modify _ _ hf]
    exact hfiles
  have hsame : g' = g → g'.map Feed.file <+: files := fun hg' => hg' ▸ hfiles
  cases op with
  | channel file =>
    have hg' : g' = g ++ [.new file] := hanswers.2
    rw [hg', List.map_append]
    exact hrequires
  | sendEntry ch =>
    have hg' : g' = if r then g else g.modify ch fun f => { f with lost := true } := hanswers
    cases r with
    | true => exact hsame hg'
    | false => exact hmodify ch (fun f => { f with lost := true }) (fun _ => rfl) hg'
  | sendError => exact hsame hanswers
  | send ch packet =>
    refine hmodify ch _ (fun feed => ?_) hanswers
    cases r <;> rfl
  | trySendFlush ch => exact hsame hanswers
  | selectFlush chs => exact hsame hanswers.2
  | dropSender ch => exact hmodify ch (fun f => { f with dropped := true }) (fun _ => rfl) hanswers
  | slabKey len => exact hsame hanswers.2

/-! ## The consumer keeps it -/

theorem TarFileEntry.Calls.sound {e : Entry} {t : TarFileEntry} (h : e.reader.Calls t)
    (hsound : e.Sound)
    (hidle : e.reader.call = .idle) : { e with reader := t }.Sound := by
  cases h with
  | fillBuf => exact hsound.start hidle (.inl rfl)
  | consume amount => exact hsound.consume hidle amount
  | read len =>
    unfold TarFileEntry.read
    by_cases hlen : len = 0
    · rw [if_pos hlen]
      exact hsound
    · rw [if_neg hlen]
      exact hsound.start hidle (.inr ⟨len, rfl⟩)
  | readToEnd buf => exact hsound.readToEnd hidle buf

theorem Entry.receive_feed {e e' : Entry} {adopt : Bool} (h : e.receive adopt = some e') :
    e'.feed = e.feed := by
  unfold Entry.receive at h
  cases hqueue : e.queue with
  | cons packet queue =>
    rw [hqueue] at h
    obtain rfl := Option.some.inj h
    rfl
  | nil =>
    rw [hqueue] at h
    dsimp only at h
    by_cases hdropped : e.feed.dropped
    · rw [if_pos hdropped] at h
      obtain rfl := Option.some.inj h
      rfl
    · rw [if_neg hdropped] at h
      cases h

/-- The consumer changes nothing of the feeds. -/
theorem World.Consumes.feeds (h : w.Consumes w') : w'.feeds = w.feeds := by
  cases h with
  | nextEntry halive hstream =>
    exact World.feeds_modify_same (w := { w with stream := _ }) fun _ _ => rfl
  | nextError halive hstream => exact rfl
  | dropStream => exact rfl
  | call ch he halive hreceived hidle hcalls => exact World.feeds_modify_same fun _ _ => rfl
  | receive ch adopt he halive hwaits hrun =>
    refine World.feeds_modify_same ?_
    intro e he'
    obtain rfl := Option.some.inj (he'.symm.trans he)
    exact Entry.receive_feed hrun
  | dropEntry ch he hmay => exact World.feeds_modify_same fun _ _ => rfl

/-- Nor does it break what holds of the entries. -/
theorem World.Consumes.sound (h : w.Consumes w') (hentries : ∀ e ∈ w.entries, e.Sound) :
    ∀ e ∈ w'.entries, e.Sound := by
  cases h with
  | nextEntry halive hstream =>
    exact World.sound_modify (w := { w with stream := _ }) hentries fun _ _ hsound => hsound.take
  | nextError halive hstream => exact hentries
  | dropStream => exact hentries
  | call ch he halive hreceived hidle hcalls =>
    refine World.sound_modify hentries ?_
    intro e he' hsound
    obtain rfl := Option.some.inj (he'.symm.trans he)
    exact hcalls.sound hsound hidle
  | receive ch adopt he halive hwaits hrun =>
    refine World.sound_modify hentries ?_
    intro e he' hsound
    obtain rfl := Option.some.inj (he'.symm.trans he)
    exact hsound.receive halive hwaits hrun
  | dropEntry ch he hmay => exact World.sound_modify hentries fun _ _ hsound => hsound.drop

/-! ## Every run -/

/-- Every step keeps the invariant. -/
theorem Step.keeps {c c' : Config} (hc : c.Ok files) (h : Step c c') : c'.Ok files := by
  cases h with
  | round s w => exact ⟨LoopState.round_ensures hc.thread, hc.entries, hc.files⟩
  | answer hperform =>
    obtain ⟨hrequires, hnext⟩ := hc.thread
    exact ⟨hnext _ _ hperform.answers, hperform.sound hrequires hc.entries,
      channels_files hrequires hperform.answers hc.files⟩
  | ret s w => exact ⟨hc.thread, hc.entries, hc.files⟩
  | consumer hconsumes =>
    have hfeeds := hconsumes.feeds
    refine ⟨?_, hconsumes.sound hc.entries, ?_⟩
    · show Thread.Ok files _ _
      rw [hfeeds]
      exact hc.thread
    · rw [hfeeds]
      exact hc.files

/-- Every reachable state satisfies the invariant. -/
theorem Reachable.ok {archive : Option (List Item)} {c : Config} (h : Reachable archive c) :
    c.Ok (filesOf (archive.getD [])) := by
  induction h with
  | refl => exact ⟨openArchive_ensures archive, (fun e he => nomatch he), List.nil_prefix⟩
  | tail _ hstep ih => exact hstep.keeps ih

/-- Streaming conserves the budget and the data, on every archive and with every consumer:
    between entries and in every round of the reading loop, the free budget, the bytes in
    flight and those of the pending operations are the total budget; no check of the thread
    fails, nor the one of `read_to_end`; and every entry delivers the bytes of its file in
    order, and all of them if it is read to its end without an error. -/
theorem stream_conserves {archive : Option (List Item)} {c : Config} (h : Reachable archive c) :
    (∀ entries b, c.thread = .loop (.betweenEntries entries b) →
      b.currentBudget + pendingBytes b.pendingOperations = b.totalBudget) ∧
    (∀ s, c.thread = .loop (.reading s) →
      s.budgetCalc.currentBudget + BudgetCalculator.flightBytes s.inFlight +
        pendingBytes s.budgetCalc.pendingOperations = s.budgetCalc.totalBudget) ∧
    c.thread ≠ .running .panic ∧
    ∀ (ch : ℕ) (e : Entry), c.world.entries[ch]? = some e →
      e.reader.call ≠ .panicked ∧ ∃ file, (filesOf (archive.getD []))[ch]? = some file ∧
        e.reader.delivered <+: file ∧
          (e.reader.ended → e.reader.failed = false → e.reader.delivered = file) := by
  have hok := h.ok
  have hthread := hok.thread
  refine ⟨?_, ?_, ?_, ?_⟩
  · intro entries b hloop
    rw [hloop] at hthread
    exact hthread.1.balance
  · intro s hloop
    rw [hloop] at hthread
    exact hthread.balanced.balance
  · intro hpanic
    rw [hpanic] at hthread
    exact Program.Ensures.ne_panic hthread rfl
  · intro ch e he
    have hsound := hok.entries e (List.mem_of_getElem? he)
    refine ⟨?_, e.feed.file, ?_, hsound.delivered_prefix, hsound.read_to_end⟩
    · intro hpanicked
      have hcall := hsound.call
      unfold TarFileEntry.CallOk at hcall
      rw [hpanicked] at hcall
      exact hcall
    · apply getElem?_of_isPrefix hok.files
      rw [List.getElem?_map, World.feeds_getElem he]
      rfl

/-- A run in which a small file is read to its end, while its only chunk is pending. -/
theorem stream_conserves_small_file :
    ∃ c e, Reachable (some [.file [1, 2] none]) c ∧ c.world.entries[0]? = some e ∧ e.reader.ended ∧
      e.reader.delivered = [1, 2] := by
  have hrun : Reachable (some [.file [1, 2] none])
      ⟨.loop .finished, ⟨[⟨⟨[1, 2], [1, 2], false, false, true⟩, [], true, true,
        ⟨.empty, .idle, [1, 2], true, false⟩⟩],
        [], true⟩⟩ := by
    -- the entry and its chunk are sent, and the flush finds the channel full
    refine ReflTransGen.head (.ret _ _) (ReflTransGen.head (.round _ _) ?_)
    refine ReflTransGen.head (.answer (.channel _)) ?_
    refine ReflTransGen.head (.answer (.entrySent _ rfl (by decide))) ?_
    refine ReflTransGen.head (.ret _ _) (ReflTransGen.head (.round _ _) ?_)
    refine ReflTransGen.head (.answer (.sent _ rfl rfl rfl)) ?_
    refine ReflTransGen.head (.answer (.full rfl rfl (by decide))) ?_
    refine ReflTransGen.head (.ret _ _) ?_
    -- the consumer receives it
    refine ReflTransGen.head (.consumer (.nextEntry rfl rfl)) ?_
    refine ReflTransGen.head (.consumer (.call 0 rfl rfl rfl rfl (.readToEnd []))) ?_
    refine ReflTransGen.head (.consumer (.receive 0 false rfl rfl (by decide) rfl)) ?_
    -- the end of the file and of the archive
    refine ReflTransGen.head (.round _ _) ?_
    refine ReflTransGen.head (.answer (.slabKey (Nat.le_refl 0))) ?_
    refine ReflTransGen.head (.ret _ _) (ReflTransGen.head (.round _ _) ?_)
    refine ReflTransGen.head (.answer (.senderDropped _)) ?_
    refine ReflTransGen.head (.ret _ _) ?_
    refine ReflTransGen.head (.consumer (.receive 0 false rfl rfl (by decide) rfl)) ?_
    exact ReflTransGen.refl
  obtain ⟨-, file, hfile, -, hall⟩ := (stream_conserves hrun).2.2.2 0 _ rfl
  obtain rfl := Option.some.inj hfile
  exact ⟨_, _, hrun, rfl, rfl, hall rfl rfl⟩

end RapidArm.Tar
