import Mathlib.Data.List.Basic
import Mathlib.Data.BitVec

/-!
# Entries of a streamed archive

`TarFileEntry` (`code-generator/src/instruction_parser/tar_ball.rs`, lines 7–134): the
receiving end of a channel of packets, read through `fill_buf` and `consume`, `read` and
`read_to_end`. These wait for packets one at a time, so that a call goes on over several
receives; between them the sender runs.

A channel is modelled with both its ends: its queue, what the sender did (`Feed`), and the
entry with the bytes that its calls delivered. Beside the buffer a call returned nothing of
its result matters but whether it was an error or the end of the entry.

Results:
* `Entry.Sound`: what holds of an entry, whatever its two ends do.
* `Entry.Sound.read_to_end`: what was delivered, once a call returned the end.
-/

namespace RapidArm.Tar

abbrev Byte := BitVec 8

/-- `io::Result<DataPacket>`. -/
inductive Packet
  | error
  | flushBuffer
  | newData (data : List Byte)
  deriving DecidableEq, Repr

/-- The file bytes of a packet. -/
def Packet.data : Packet → List Byte
  | newData data => data
  | _ => []

/-! ## The reading end -/

/-- `CurrentReadBuf`. -/
structure CurrentReadBuf where
  buf : List Byte
  offset : ℕ
  deriving DecidableEq, Repr

namespace CurrentReadBuf

/-- `empty`. -/
def empty : CurrentReadBuf := ⟨[], 0⟩

/-- `new`. -/
def new (buf : List Byte) : CurrentReadBuf := ⟨buf, 0⟩

/-- `slice`. -/
def slice (r : CurrentReadBuf) : List Byte := r.buf.drop r.offset

/-- `advance`; the sum saturates above every length that a buffer has. -/
def advance (r : CurrentReadBuf) (offset : ℕ) : CurrentReadBuf :=
  { r with offset := min (r.offset + offset) r.buf.length }

end CurrentReadBuf

/-- The call that waits for a packet, if any: `fill_buf`, `read` of a length, or
    `read_to_end` with the vector so far and its length at the start. -/
inductive Call
  | idle
  | fillBuf
  | read (len : ℕ)
  | readToEnd (buf : List Byte) (startLen : ℕ)
  | panicked
  deriving DecidableEq, Repr

/-- `TarFileEntry`, with the call under way, the bytes its calls delivered, and whether one
    of them returned the end of the entry or an error. -/
structure TarFileEntry where
  currentRead : CurrentReadBuf
  call : Call
  delivered : List Byte
  ended : Bool
  failed : Bool
  deriving DecidableEq, Repr

namespace TarFileEntry

/-- `create`. -/
def create : TarFileEntry := ⟨.empty, .idle, [], false, false⟩

/-- `consume`. -/
def consume (t : TarFileEntry) (amount : ℕ) : TarFileEntry :=
  { t with currentRead := t.currentRead.advance amount,
           delivered := t.delivered ++ t.currentRead.slice.take amount }

/-- `fill_buf` returns its slice, which is the end of the entry when it is empty; `read`
    goes on to copy from the slice and to consume what it copied. -/
def filled (t : TarFileEntry) : TarFileEntry :=
  let t' := { t with call := .idle, ended := t.ended || t.currentRead.slice.isEmpty }
  match t.call with
  | .read len => t'.consume (min len t.currentRead.slice.length)
  | _ => t'

/-- `fill_buf` and `read` of a length, up to where they wait. -/
def start (t : TarFileEntry) (call : Call) : TarFileEntry :=
  if t.currentRead.slice = [] then { t with call } else { t with call }.filled

/-- `fill_buf`. -/
def fillBuf (t : TarFileEntry) : TarFileEntry := t.start .fillBuf

/-- `read` into a buffer of a length; nothing is read into an empty one. -/
def read (t : TarFileEntry) (len : ℕ) : TarFileEntry := if len = 0 then t else t.start (.read len)

/-- `read_to_end` into a vector, up to its loop. -/
def readToEnd (t : TarFileEntry) (buf : List Byte) : TarFileEntry :=
  { t with call := .readToEnd (buf ++ t.currentRead.slice) buf.length, currentRead := .empty }

/-- A round of the loop of `fill_buf`: a packet, or the end of the channel. -/
def fillBufStep (t : TarFileEntry) : Option Packet → TarFileEntry
  | none => t.filled
  | some .error => { t with call := .idle, failed := true }
  | some (.newData data) => { t with currentRead := .new data }.filled
  | some .flushBuffer => { t with currentRead := .empty }

/-- A round of the loop of `read_to_end` with its vector so far. `adopt` is whether the
    capacity of the vector is at most the one of the packet's. -/
def readToEndStep (t : TarFileEntry) (buf : List Byte) (startLen : ℕ) (adopt : Bool) :
    Option Packet → TarFileEntry
  | none =>
    -- `strict_sub` of the lengths
    if startLen ≤ buf.length then
      { t with call := .idle, delivered := t.delivered ++ buf.drop startLen, ended := true }
    else { t with call := .panicked }
  | some .error =>
    { t with call := .idle, delivered := t.delivered ++ buf.drop startLen, failed := true }
  | some .flushBuffer => t
  | some (.newData data) =>
    if buf = [] ∧ adopt then { t with call := .readToEnd data startLen }
    else { t with call := .readToEnd (buf ++ data) startLen }

/-- The call under way receives a packet, or the end of the channel. -/
def next (t : TarFileEntry) (adopt : Bool) (packet : Option Packet) : TarFileEntry :=
  match t.call with
  | .idle | .panicked => t
  | .fillBuf | .read _ => t.fillBufStep packet
  | .readToEnd buf startLen => t.readToEndStep buf startLen adopt packet

/-- The bytes received but not delivered. -/
def inHand (t : TarFileEntry) : List Byte :=
  match t.call with
  | .readToEnd buf startLen => buf.drop startLen
  | _ => t.currentRead.slice

end TarFileEntry

/-! ## The channel -/

/-- What the sending end did: of the file of the entry, the bytes it sent, whether it sent
    an error, found that the receiver is gone, and is dropped. -/
structure Feed where
  file : List Byte
  sent : List Byte
  errored : Bool
  lost : Bool
  dropped : Bool
  deriving DecidableEq, Repr

/-- A new feed. -/
def Feed.new (file : List Byte) : Feed := ⟨file, [], false, false, false⟩

/-- A packet is sent. -/
def Feed.send (f : Feed) (packet : Packet) : Feed :=
  { f with sent := f.sent ++ packet.data, errored := f.errored || packet == .error }

/-- There is nothing left to send. -/
def Feed.Complete (f : Feed) : Prop := f.sent = f.file ∨ f.errored ∨ f.lost

/-- An entry with its channel: `flume::bounded(1)`. -/
structure Entry where
  feed : Feed
  queue : List Packet
  alive : Bool
  received : Bool
  reader : TarFileEntry
  deriving DecidableEq, Repr

/-- A new channel, with its entry. -/
def Entry.new (file : List Byte) : Entry := ⟨.new file, [], true, false, .create⟩

/-- The channel takes a packet. -/
def Entry.push (e : Entry) (packet : Packet) : Entry :=
  { e with queue := e.queue ++ [packet], feed := e.feed.send packet }

/-- A send finds that there is no receiver. -/
def Entry.lose (e : Entry) : Entry :=
  { e with alive := false, feed := { e.feed with lost := true } }

/-- The sender is dropped. -/
def Entry.dropSender (e : Entry) : Entry := { e with feed := { e.feed with dropped := true } }

/-- The file bytes in the channel. -/
def Entry.queueData (e : Entry) : List Byte := e.queue.flatMap Packet.data

/-- The consumer receives one packet of the channel, for the call under way; `none` if it
    has to wait. -/
def Entry.receive (e : Entry) (adopt : Bool) : Option Entry :=
  match e.queue with
  | packet :: queue => some { e with queue, reader := e.reader.next adopt (some packet) }
  | [] => if e.feed.dropped then some { e with reader := e.reader.next adopt none } else none

/-! ## What holds of an entry -/

/-- A call that waits has nothing left to hand out, and `read_to_end` has its vector's
    first bytes from the caller. -/
def TarFileEntry.CallOk (t : TarFileEntry) : Prop :=
  match t.call with
  | .idle => True
  | .fillBuf | .read _ => t.currentRead.slice = []
  | .readToEnd buf startLen => t.currentRead.slice = [] ∧ startLen ≤ buf.length
  | .panicked => False

/-- The invariant of an entry. `flow` follows the bytes from the sender to the calls. -/
structure Entry.Sound (e : Entry) : Prop where
  flow : e.reader.delivered ++ e.reader.inHand ++ e.queueData = e.feed.sent
  call : e.reader.CallOk
  nonempty : ∀ data, Packet.newData data ∈ e.queue → data ≠ []
  sent : e.feed.sent <+: e.feed.file
  complete : e.feed.dropped → e.feed.Complete
  errored : e.feed.errored → e.reader.failed ∨ Packet.error ∈ e.queue
  lost : e.feed.lost → e.alive = false
  ended : e.reader.ended → e.feed.dropped ∧ e.feed.lost = false ∧ e.queue = [] ∧
    e.reader.inHand = []

theorem Entry.Sound.new (file : List Byte) : (Entry.new file).Sound where
  flow := rfl
  call := trivial
  nonempty data hdata := by cases hdata
  sent := List.nil_prefix
  complete h := by cases h
  errored h := by cases h
  lost h := by cases h
  ended h := by cases h

/-- What was delivered is the beginning of the file. -/
theorem Entry.Sound.delivered_prefix {e : Entry} (h : e.Sound) :
    e.reader.delivered <+: e.feed.file := by
  apply List.IsPrefix.trans _ h.sent
  rw [← h.flow, List.append_assoc]
  exact List.prefix_append _ _

/-- When a call returned the end and none an error, the whole file was delivered. -/
theorem Entry.Sound.read_to_end {e : Entry} (h : e.Sound) (hended : e.reader.ended)
    (hfailed : e.reader.failed = false) : e.reader.delivered = e.feed.file := by
  obtain ⟨hdropped, hlost, hqueue, hhand⟩ := h.ended hended
  have hflow := h.flow
  unfold Entry.queueData at hflow
  rw [hhand, hqueue, List.flatMap_nil, List.append_nil, List.append_nil] at hflow
  rw [hflow]
  rcases h.complete hdropped with hsent | herrored | hlost'
  · exact hsent
  · rcases h.errored herrored with hfailed' | hmem
    · rw [hfailed] at hfailed'
      cases hfailed'
    · rw [hqueue] at hmem
      cases hmem
  · rw [hlost] at hlost'
    cases hlost'

/-! ## Calls keep it -/

theorem CurrentReadBuf.slice_advance (r : CurrentReadBuf) (n : ℕ) :
    (r.advance n).slice = r.slice.drop n := by
  show r.buf.drop (min (r.offset + n) r.buf.length) = (r.buf.drop r.offset).drop n
  rw [List.drop_drop]
  by_cases hle : r.offset + n ≤ r.buf.length
  · rw [Nat.min_eq_left hle]
  · rw [Nat.min_eq_right (by omega), List.drop_length, List.drop_eq_nil_of_le (by omega)]

/-- Between calls, what is in hand is the slice. -/
theorem TarFileEntry.inHand_eq_slice {t : TarFileEntry}
    (h : ∀ buf startLen, t.call ≠ .readToEnd buf startLen) :
    t.inHand = t.currentRead.slice := by
  unfold TarFileEntry.inHand
  cases hcall : t.call with
  | readToEnd buf startLen => exact absurd hcall (h buf startLen)
  | _ => rfl

theorem TarFileEntry.consume_flow {t : TarFileEntry} (n : ℕ) :
    (t.consume n).delivered ++ (t.consume n).currentRead.slice =
      t.delivered ++ t.currentRead.slice := by
  show t.delivered ++ t.currentRead.slice.take n ++ (t.currentRead.advance n).slice = _
  rw [CurrentReadBuf.slice_advance, List.append_assoc, List.take_append_drop]

/-- `fill_buf` and `read` return: nothing is lost, and the end is the end only with
    nothing in hand. -/
theorem TarFileEntry.filled_spec (t : TarFileEntry) :
    t.filled.delivered ++ t.filled.inHand = t.delivered ++ t.currentRead.slice ∧
      t.filled.call = .idle ∧
      t.filled.failed = t.failed ∧ t.filled.ended = (t.ended || t.currentRead.slice.isEmpty) ∧
      (t.currentRead.slice = [] → t.filled.inHand = []) := by
  have hread : ∀ len, t.call = .read len → t.filled =
      { t with call := .idle, ended := t.ended || t.currentRead.slice.isEmpty }.consume
        (min len t.currentRead.slice.length) := by
    intro len hcall
    unfold TarFileEntry.filled
    rw [hcall]
  have hother : (∀ len, t.call ≠ .read len) → t.filled =
      { t with call := .idle, ended := t.ended || t.currentRead.slice.isEmpty } := by
    intro hcall
    unfold TarFileEntry.filled
    cases hcase : t.call with
    | read len => exact absurd hcase (hcall len)
    | _ => rfl
  by_cases hcall : ∃ len, t.call = .read len
  · obtain ⟨len, hcall⟩ := hcall
    rw [hread len hcall]
    refine ⟨TarFileEntry.consume_flow _, rfl, rfl, rfl, ?_⟩
    intro hempty
    show (t.currentRead.advance _).slice = []
    rw [CurrentReadBuf.slice_advance, hempty, List.drop_nil]
  · rw [hother fun len hlen => hcall ⟨len, hlen⟩]
    exact ⟨rfl, rfl, rfl, rfl, id⟩

/-- A step of the reader alone. -/
theorem Entry.Sound.step {e : Entry} (h : e.Sound) {t : TarFileEntry}
    (hflow : t.delivered ++ t.inHand = e.reader.delivered ++ e.reader.inHand) (hcall : t.CallOk)
    (hfailed : t.failed = e.reader.failed)
    (hended : t.ended → e.reader.ended ∧ t.inHand = []) : { e with reader := t }.Sound where
  flow := by
    show t.delivered ++ t.inHand ++ e.queueData = e.feed.sent
    rw [hflow]
    exact h.flow
  call := hcall
  nonempty := h.nonempty
  sent := h.sent
  complete := h.complete
  errored herrored := by
    show t.failed ∨ Packet.error ∈ e.queue
    rw [hfailed]
    exact h.errored herrored
  lost := h.lost
  ended hend := by
    obtain ⟨hbefore, hhand⟩ := hended hend
    obtain ⟨hdropped, hlost, hqueue, -⟩ := h.ended hbefore
    exact ⟨hdropped, hlost, hqueue, hhand⟩

section

variable {e : Entry}

theorem Entry.Sound.consume (h : e.Sound) (hidle : e.reader.call = .idle) (n : ℕ) :
    { e with reader := e.reader.consume n }.Sound := by
  have hidle' : (e.reader.consume n).call = .idle := hidle
  have hhand : e.reader.inHand = e.reader.currentRead.slice :=
    TarFileEntry.inHand_eq_slice fun _ _ heq => Call.noConfusion (hidle.symm.trans heq)
  have hhand' : (e.reader.consume n).inHand = (e.reader.consume n).currentRead.slice :=
    TarFileEntry.inHand_eq_slice fun _ _ heq => Call.noConfusion (hidle'.symm.trans heq)
  refine h.step ?_ ?_ rfl ?_
  · rw [hhand, hhand']
    exact TarFileEntry.consume_flow n
  · unfold TarFileEntry.CallOk
    rw [hidle']
    trivial
  · intro hended
    refine ⟨hended, ?_⟩
    have hempty : e.reader.currentRead.slice = [] := hhand ▸ (h.ended hended).2.2.2
    rw [hhand']
    show (e.reader.currentRead.advance n).slice = []
    rw [CurrentReadBuf.slice_advance, hempty, List.drop_nil]

/-- `fill_buf` and `read` begin. -/
theorem Entry.Sound.start (h : e.Sound) (hidle : e.reader.call = .idle) {call : Call}
    (hcall : call = .fillBuf ∨ ∃ len, call = .read len) :
    { e with reader := e.reader.start call }.Sound := by
  have hhand : e.reader.inHand = e.reader.currentRead.slice :=
    TarFileEntry.inHand_eq_slice fun _ _ heq => Call.noConfusion (hidle.symm.trans heq)
  have hnot : ∀ buf startLen, call ≠ .readToEnd buf startLen := by
    rintro buf startLen rfl
    rcases hcall with heq | ⟨len, heq⟩ <;> cases heq
  unfold TarFileEntry.start
  by_cases hslice : e.reader.currentRead.slice = []
  · rw [if_pos hslice]
    have hhand' : TarFileEntry.inHand { e.reader with call } = e.reader.currentRead.slice :=
      TarFileEntry.inHand_eq_slice hnot
    refine h.step (by rw [hhand, hhand']) ?_ rfl fun hended => ⟨hended, hhand'.trans hslice⟩
    rcases hcall with rfl | ⟨len, rfl⟩ <;> exact hslice
  · rw [if_neg hslice]
    obtain ⟨hflow, hcall', hfailed, hended, -⟩ :=
      TarFileEntry.filled_spec { e.reader with call }
    refine h.step (by rw [hflow, hhand]) ?_ hfailed ?_
    · unfold TarFileEntry.CallOk
      rw [hcall']
      trivial
    · intro hend
      have hbefore : e.reader.ended := by
        rw [hended] at hend
        simpa [hslice] using hend
      exact absurd (hhand ▸ (h.ended hbefore).2.2.2) hslice

/-- `read_to_end` begins. -/
theorem Entry.Sound.readToEnd (h : e.Sound) (hidle : e.reader.call = .idle) (buf : List Byte) :
    { e with reader := e.reader.readToEnd buf }.Sound := by
  have hhand : e.reader.inHand = e.reader.currentRead.slice :=
    TarFileEntry.inHand_eq_slice fun _ _ heq => Call.noConfusion (hidle.symm.trans heq)
  have hhand' : (e.reader.readToEnd buf).inHand = e.reader.inHand := by
    show (buf ++ e.reader.currentRead.slice).drop buf.length = _
    rw [List.drop_left, hhand]
  refine h.step ?_ ?_ rfl fun hended => ⟨hended, hhand'.trans (h.ended hended).2.2.2⟩
  · show e.reader.delivered ++ _ = _
    rw [hhand']
  · refine ⟨rfl, ?_⟩
    rw [List.length_append]
    omega

/-- What a receive does to a call that waits: the packet's bytes are in hand or delivered,
    an error packet and nothing else is an error, and only the end of the channel is the
    end of the entry. -/
structure TarFileEntry.Receives (t : TarFileEntry) (packet : Option Packet)
    (t' : TarFileEntry) : Prop where
  flow : t'.delivered ++ t'.inHand = t.delivered ++ t.inHand ++ (packet.map Packet.data).getD []
  call : t'.CallOk
  failed : t'.failed = (t.failed || packet == some .error)
  ended : t'.ended → t.ended ∨ packet = none
  hand : packet = none → t'.inHand = []

theorem TarFileEntry.callOk_idle {t : TarFileEntry} (h : t.call = .idle) : t.CallOk := by
  unfold TarFileEntry.CallOk
  rw [h]
  trivial

/-- `fill_buf` and `read` receive. -/
theorem TarFileEntry.next_fill {t : TarFileEntry}
    (hcall : t.call = .fillBuf ∨ ∃ len, t.call = .read len) (hslice : t.currentRead.slice = [])
    (adopt : Bool) {packet : Option Packet}
    (hdata : packet ≠ some (.newData [])) : t.Receives packet (t.next adopt packet) := by
  have hnot : ∀ buf startLen, t.call ≠ .readToEnd buf startLen := by
    intro buf startLen heq
    rcases hcall with hcall | ⟨len, hcall⟩ <;> cases hcall.symm.trans heq
  have hhand : t.inHand = [] := (TarFileEntry.inHand_eq_slice hnot).trans hslice
  have hnext : t.next adopt packet = t.fillBufStep packet := by
    unfold TarFileEntry.next
    rcases hcall with hcall | ⟨len, hcall⟩ <;> rw [hcall]
  rw [hnext]
  cases packet with
  | none =>
    show t.Receives none t.filled
    obtain ⟨hflow, hidle, hfailed, hended, hempty⟩ := t.filled_spec
    refine ⟨?_, TarFileEntry.callOk_idle hidle, ?_, fun _ => .inr rfl, fun _ => hempty hslice⟩
    · rw [hflow, hhand, hslice]
      exact (List.append_nil _).symm
    · rw [hfailed]
      exact (Bool.or_false _).symm
  | some packet =>
    cases packet with
    | error =>
      show t.Receives (some .error) { t with call := .idle, failed := true }
      have hhand' : TarFileEntry.inHand { t with call := .idle, failed := true } = [] := hslice
      refine ⟨?_, TarFileEntry.callOk_idle rfl, (Bool.or_true _).symm, fun hended => .inl hended,
        fun hnone => ?_⟩
      · rw [hhand', hhand]
        exact (List.append_nil _).symm
      · cases hnone
    | flushBuffer =>
      show t.Receives (some .flushBuffer) { t with currentRead := .empty }
      have hhand' : TarFileEntry.inHand { t with currentRead := .empty } = [] :=
        TarFileEntry.inHand_eq_slice hnot
      refine ⟨?_, ?_, (Bool.or_false _).symm, fun hended => .inl hended, fun hnone => ?_⟩
      · rw [hhand', hhand]
        exact (List.append_nil _).symm
      · unfold TarFileEntry.CallOk
        rcases hcall with hcall | ⟨len, hcall⟩ <;> (rw [hcall]; rfl)
      · cases hnone
    | newData data =>
      show t.Receives (some (.newData data)) { t with currentRead := .new data }.filled
      have hne : data ≠ [] := fun heq => hdata (by rw [heq])
      obtain ⟨hflow, hidle, hfailed, hended, -⟩ :=
        TarFileEntry.filled_spec { t with currentRead := .new data }
      refine ⟨?_, TarFileEntry.callOk_idle hidle, ?_, fun hend => ?_, fun hnone => ?_⟩
      · rw [hflow, hhand, List.append_nil]
        rfl
      · rw [hfailed]
        exact (Bool.or_false _).symm
      · rw [hended] at hend
        have hslice' : ((CurrentReadBuf.new data).slice).isEmpty = false := by
          cases data with
          | nil => exact absurd rfl hne
          | cons _ _ => rfl
        left
        simpa [hslice'] using hend
      · cases hnone

/-- `read_to_end` receives. -/
theorem TarFileEntry.next_readToEnd {t : TarFileEntry} {buf : List Byte} {startLen : ℕ}
    (hcall : t.call = .readToEnd buf startLen) (hslice : t.currentRead.slice = [])
    (hstart : startLen ≤ buf.length)
    (adopt : Bool) (packet : Option Packet) : t.Receives packet (t.next adopt packet) := by
  have hhand : t.inHand = buf.drop startLen := by
    unfold TarFileEntry.inHand
    rw [hcall]
  have hnext : t.next adopt packet = t.readToEndStep buf startLen adopt packet := by
    unfold TarFileEntry.next
    rw [hcall]
  rw [hnext]
  cases packet with
  | none =>
    simp only [TarFileEntry.readToEndStep, hstart, if_true]
    refine ⟨?_, TarFileEntry.callOk_idle rfl, (Bool.or_false _).symm, fun _ => .inr rfl,
      fun _ => hslice⟩
    show t.delivered ++ buf.drop startLen ++ t.currentRead.slice = t.delivered ++ t.inHand ++ []
    rw [hslice, hhand]
  | some packet =>
    cases packet with
    | error =>
      refine ⟨?_, TarFileEntry.callOk_idle rfl, (Bool.or_true _).symm, fun hended => .inl hended,
        fun hnone => ?_⟩
      · show t.delivered ++ buf.drop startLen ++ t.currentRead.slice = t.delivered ++ t.inHand ++ []
        rw [hslice, hhand]
      · cases hnone
    | flushBuffer =>
      show t.Receives (some .flushBuffer) t
      refine ⟨(List.append_nil _).symm, ?_, (Bool.or_false _).symm, fun hended => .inl hended,
        fun hnone => ?_⟩
      · unfold TarFileEntry.CallOk
        rw [hcall]
        exact ⟨hslice, hstart⟩
      · cases hnone
    | newData data =>
      by_cases hadopt : buf = [] ∧ adopt
      · -- the empty vector is replaced by the packet's
        have hzero : startLen = 0 := by
          rw [hadopt.1] at hstart
          exact Nat.le_zero.1 hstart
        simp only [TarFileEntry.readToEndStep, hadopt, and_self, if_true]
        refine ⟨?_, ⟨hslice, by omega⟩, (Bool.or_false _).symm, fun hended => .inl hended,
          fun hnone => ?_⟩
        · show t.delivered ++ data.drop startLen = t.delivered ++ t.inHand ++ data
          rw [hhand, hadopt.1, hzero, List.drop_nil, List.append_nil, List.drop_zero]
        · cases hnone
      · simp only [TarFileEntry.readToEndStep, hadopt, if_false]
        refine ⟨?_, ⟨hslice, ?_⟩, (Bool.or_false _).symm, fun hended => .inl hended,
          fun hnone => ?_⟩
        · show t.delivered ++ (buf ++ data).drop startLen = t.delivered ++ t.inHand ++ data
          rw [hhand, List.append_assoc, List.drop_append_of_le_length hstart]
        · rw [List.length_append]
          omega
        · cases hnone

theorem TarFileEntry.CallOk.next {t : TarFileEntry} (h : t.CallOk) (hwaits : t.call ≠ .idle)
    (adopt : Bool) (packet : Option Packet) (hdata : packet ≠ some (.newData [])) :
    t.Receives packet (t.next adopt packet) := by
  unfold TarFileEntry.CallOk at h
  cases hcall : t.call with
  | idle => exact absurd hcall hwaits
  | fillBuf =>
    rw [hcall] at h
    exact TarFileEntry.next_fill (.inl hcall) h adopt hdata
  | read len =>
    rw [hcall] at h
    exact TarFileEntry.next_fill (.inr ⟨len, hcall⟩) h adopt hdata
  | readToEnd buf startLen =>
    rw [hcall] at h
    exact TarFileEntry.next_readToEnd hcall h.1 h.2 adopt packet
  | panicked =>
    rw [hcall] at h
    exact h.elim

/-- A receive of the call under way. -/
theorem Entry.Sound.receive (h : e.Sound) (halive : e.alive) (hwaits : e.reader.call ≠ .idle)
    {adopt : Bool}
    {e' : Entry} (hrun : e.receive adopt = some e') : e'.Sound := by
  unfold Entry.receive at hrun
  cases hqueue : e.queue with
  | nil =>
    rw [hqueue] at hrun
    by_cases hdropped : e.feed.dropped
    · simp only [hdropped, if_true] at hrun
      cases hrun
      obtain ⟨hflow, hcall, hfailed, -, hhand⟩ := h.call.next hwaits adopt none (by simp)
      refine ⟨?_, hcall, (fun data hdata => by cases hdata), h.sent, h.complete, ?_, h.lost, ?_⟩
      · have hbefore := h.flow
        unfold Entry.queueData at hbefore
        rw [hqueue] at hbefore
        show (e.reader.next adopt none).delivered ++ (e.reader.next adopt none).inHand ++
            _ = e.feed.sent
        rw [hflow, Option.map_none, Option.getD_none, List.append_nil]
        exact hbefore
      · intro herrored
        rcases h.errored herrored with hfail | hmem
        · left
          show (e.reader.next adopt none).failed
          rw [hfailed, hfail]
          rfl
        · rw [hqueue] at hmem
          cases hmem
      · intro _
        refine ⟨hdropped, ?_, rfl, hhand rfl⟩
        cases hlost : e.feed.lost with
        | false => rfl
        | true =>
          rw [h.lost hlost] at halive
          cases halive
    · simp only [hdropped] at hrun
      cases hrun
  | cons packet queue =>
    rw [hqueue] at hrun
    cases hrun
    have hne : some packet ≠ some (.newData []) := by
      intro heq
      exact h.nonempty [] (by rw [hqueue, Option.some.inj heq]; exact List.mem_cons_self) rfl
    obtain ⟨hflow, hcall, hfailed, hended, -⟩ := h.call.next hwaits adopt (some packet) hne
    refine ⟨?_, hcall, fun data hdata => ?_, h.sent, h.complete, ?_, h.lost, ?_⟩
    · show (e.reader.next adopt (some packet)).delivered ++
          (e.reader.next adopt (some packet)).inHand ++
        queue.flatMap Packet.data = e.feed.sent
      have hbefore := h.flow
      unfold Entry.queueData at hbefore
      rw [hqueue, List.flatMap_cons, ← List.append_assoc] at hbefore
      rw [hflow]
      exact hbefore
    · exact h.nonempty data (by rw [hqueue]; exact List.mem_cons_of_mem _ hdata)
    · intro herrored
      show (e.reader.next adopt (some packet)).failed ∨ Packet.error ∈ queue
      rw [hfailed]
      rcases h.errored herrored with hfail | hmem
      · left
        rw [hfail]
        rfl
      · rw [hqueue] at hmem
        rcases List.mem_cons.1 hmem with heq | hmem
        · left
          rw [← heq]
          exact Bool.or_true _
        · exact .inr hmem
    · intro hend
      -- a receive from a channel that still holds packets is not the end
      rcases hended hend with hbefore | hnone
      · rw [(h.ended hbefore).2.2.1] at hqueue
        cases hqueue
      · cases hnone

/-! ## The sending end keeps it -/

/-- As long as its sender is in use, an entry has not ended. -/
theorem Entry.Sound.not_ended (h : e.Sound) (hdropped : e.feed.dropped = false) :
    ¬ e.reader.ended := by
  intro hended
  have htrue := (h.ended hended).1
  rw [hdropped] at htrue
  cases htrue

/-- The next bytes of the file are sent, or a flush or an error. -/
theorem Entry.Sound.push (h : e.Sound) (hdropped : e.feed.dropped = false) {packet : Packet}
    (hdata : packet ≠ .newData []) (hsent : e.feed.sent ++ packet.data <+: e.feed.file) :
    (e.push packet).Sound where
  flow := by
    have hqueue : (e.push packet).queueData = e.queueData ++ packet.data := by
      show (e.queue ++ [packet]).flatMap Packet.data = _
      rw [List.flatMap_append, List.flatMap_singleton]
      rfl
    show e.reader.delivered ++ e.reader.inHand ++ (e.push packet).queueData =
        e.feed.sent ++ packet.data
    rw [hqueue, ← List.append_assoc, h.flow]
  call := h.call
  nonempty data hmem := by
    rcases List.mem_append.1 hmem with hmem | hmem
    · exact h.nonempty data hmem
    · rintro rfl
      exact hdata (List.mem_singleton.1 hmem).symm
  sent := hsent
  complete hcomplete := by
    rw [show e.feed.dropped = true from hcomplete] at hdropped
    cases hdropped
  errored herrored := by
    rcases (Bool.or_eq_true _ _).mp herrored with hbefore | hpacket
    · rcases h.errored hbefore with hfailed | hmem
      · exact .inl hfailed
      · exact .inr (List.mem_append_left _ hmem)
    · right
      rw [beq_iff_eq.1 hpacket]
      exact List.mem_append_right _ (List.mem_singleton_self _)
  lost := h.lost
  ended hended := absurd hended (h.not_ended hdropped)

theorem Entry.Sound.lose (h : e.Sound) (hdropped : e.feed.dropped = false) : e.lose.Sound where
  flow := h.flow
  call := h.call
  nonempty := h.nonempty
  sent := h.sent
  complete _ := .inr (.inr rfl)
  errored := h.errored
  lost _ := rfl
  ended hended := absurd hended (h.not_ended hdropped)

theorem Entry.Sound.dropSender (h : e.Sound) (hcomplete : e.feed.Complete) :
    e.dropSender.Sound where
  flow := h.flow
  call := h.call
  nonempty := h.nonempty
  sent := h.sent
  complete _ := hcomplete
  errored := h.errored
  lost := h.lost
  ended hended := by
    obtain ⟨-, hlost, hqueue, hhand⟩ := h.ended hended
    exact ⟨rfl, hlost, hqueue, hhand⟩

/-- The consumer takes the entry from the stream. -/
theorem Entry.Sound.take (h : e.Sound) : { e with received := true }.Sound :=
  ⟨h.flow, h.call, h.nonempty, h.sent, h.complete, h.errored, h.lost, h.ended⟩

/-- The consumer drops the entry. -/
theorem Entry.Sound.drop (h : e.Sound) : { e with alive := false }.Sound :=
  ⟨h.flow, h.call, h.nonempty, h.sent, h.complete, h.errored, fun _ => rfl, h.ended⟩

end

end RapidArm.Tar
