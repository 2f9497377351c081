import RapidArm.Memops.PageCopy
import Mathlib.Data.List.GetD

/-!
# Pages of a file

`File` as a `MemoryObject` (`io-mmu/src/memory_object/impl.rs`, lines 47–131) and the
default `fault_in` and `fault_out` over it (`memory_object/mod.rs`, lines 177–245). A call
of `read_at` or `write_at` moves some of the bytes that it could move, or fails; what it
does is given with the call, and a list of these drives a run. Every answer that a file can
give is one of them (`readAt_answers`, `writeAt_answers`). A run is `none` while the list
is too short for it to return.

Result: `page_io_exact`.
-/

namespace RapidArm.Objects

open RapidArm.Mmu RapidArm.Memops

/-! ## Files -/

/-- The kinds of an `io::Error` that the code tells apart or makes. -/
inductive ErrorKind
  | interrupted
  | unexpectedEof
  | writeZero
  | other (code : ℕ)
  deriving DecidableEq, Repr

/-- `io::Error`. -/
structure IoError where
  kind : ErrorKind
  message : String
  deriving DecidableEq, Repr

/-- The content of a file; beyond its size there are no bytes. -/
structure File where
  size : ℕ
  byte : ℕ → BitVec 8

/-- What a call of `read_at` or `write_at` does: it moves at most `n` bytes or fails. -/
inductive IoCall
  | moves (n : ℕ)
  | fails (e : IoError)
  deriving DecidableEq, Repr

/-- Does the call fail, other than by being interrupted? -/
def IoCall.IsReal (call : IoCall) : Prop := ∃ e, call = .fails e ∧ e.kind ≠ .interrupted

/-- `read_at`: the buffer afterwards, and the number of bytes read. A file has nothing to
    read past its end only; before it, at least one byte is read. -/
def File.readAt (file : File) (call : IoCall) (buf : List (BitVec 8)) (offset : BitVec 64) :
    List (BitVec 8) × Except IoError ℕ :=
  match call with
  | .fails e => (buf, .error e)
  | .moves k =>
    let n := min (max 1 k) (min buf.length (file.size - offset.toNat))
    ((List.range n).map (fun i => file.byte (offset.toNat + i)) ++ buf.drop n, .ok n)

/-- The file after some bytes were written at an offset; a gap up to the offset is filled
    with zeros. -/
def File.write (file : File) (offset : ℕ) (data : List (BitVec 8)) : File :=
  if data = [] then file
  else
    { size := max file.size (offset + data.length)
      byte := fun i =>
        if offset ≤ i ∧ i < offset + data.length then data.getD (i - offset) 0
        else if i < file.size then file.byte i else 0 }

/-- `write_at`: the file afterwards, and the number of bytes written. -/
def File.writeAt (file : File) (call : IoCall) (buf : List (BitVec 8)) (offset : BitVec 64) :
    File × Except IoError ℕ :=
  match call with
  | .fails e => (file, .error e)
  | .moves k => (file.write offset.toNat (buf.take k), .ok (min k buf.length))

/-! ## The loops -/

/-- The loop of `fault_in_exclusive`: `done` is the part of the page before `page_left`.
    It ends when nothing is left, at the end of the file, or with an error. -/
def readLoop (file : File) (done pageLeft : List (BitVec 8)) (offset : BitVec 64)
    (calls : List IoCall) :
    Option (Except IoError (List (BitVec 8) × List (BitVec 8)) × List IoCall) :=
  if pageLeft = [] then some (.ok (done, pageLeft), calls)
  else
    match calls with
    | [] => none
    | call :: calls =>
      match file.readAt call pageLeft offset with
      | (buf, .ok 0) => some (.ok (done, buf), calls)
      -- `read_at` returns at most the length of its buffer, so that slicing succeeds
      | (buf, .ok n) =>
        readLoop file (done ++ buf.take n) (buf.drop n) (offset + BitVec.ofNat 64 n) calls
      | (buf, .error e) =>
        if e.kind = .interrupted then readLoop file done buf offset calls
        else some (.error e, calls)

/-- `page.as_slice()`. -/
def asSlice (page : PageBytes) : List (BitVec 8) := (List.range PAGE_SIZE).map page

/-- `fault_in_exclusive`: the page, or the error. -/
def faultInExclusive (file : File) (pageOffset : PageNumber) (calls : List IoCall) :
    Option (Except IoError PageBytes × List IoCall) := do
  -- `write_bytes` zeroes the page first
  let (result, calls) ← readLoop file [] (List.replicate PAGE_SIZE 0) pageOffset.vaddrBase calls
  match result with
  | .error e => return (.error e, calls)
  | .ok (done, pageLeft) =>
    if pageLeft.length = PAGE_SIZE then
      return (.error ⟨.unexpectedEof, "read file out of bounds"⟩, calls)
    else return (.ok fun i => (done ++ pageLeft).getD i 0, calls)

/-- The loop of `fault_out_exclusive`. -/
def writeLoop (file : File) (pageLeft : List (BitVec 8)) (offset : BitVec 64)
    (calls : List IoCall) :
    Option (Except IoError Unit × File × List IoCall) :=
  if pageLeft = [] then some (.ok (), file, calls)
  else
    match calls with
    | [] => none
    | call :: calls =>
      match file.writeAt call pageLeft offset with
      | (file, .ok 0) => some (.error ⟨.writeZero, "failed to write whole buffer"⟩, file, calls)
      | (file, .ok n) => writeLoop file (pageLeft.drop n) (offset + BitVec.ofNat 64 n) calls
      | (file, .error e) =>
        if e.kind = .interrupted then writeLoop file pageLeft offset calls
        else some (.error e, file, calls)

/-- `fault_out_exclusive`. -/
def faultOutExclusive (file : File) (pageOffset : PageNumber) (page : PageBytes)
    (calls : List IoCall) :
    Option (Except IoError Unit × File × List IoCall) :=
  writeLoop file (asSlice page) pageOffset.vaddrBase calls

/-- The default `fault_in`: the page is read into a scratch page and copied from there to
    the shared page. -/
def faultIn (e : Endian) (file : File) (pageOffset : PageNumber) (shared : PagePointer)
    (calls : List IoCall)
    (m : Memory) : Option (Except IoError Unit × Memory × List IoCall) := do
  let (result, calls) ← faultInExclusive file pageOffset calls
  match result with
  | .error e => return (.error e, m, calls)
  | .ok page => do
    let ((), m) ← copyPageExclusiveToShared e shared page m
    return (.ok (), m, calls)

/-- The default `fault_out`: the shared page is copied to a scratch page, uninitialised
    before, and written from there. -/
def faultOut (e : Endian) (file : File) (pageOffset : PageNumber) (shared : PagePointer)
    (uninit : PageBytes) (calls : List IoCall) (m : Memory) :
    Option (Except IoError Unit × File × Memory × List IoCall) := do
  let (page, m) ← copyPageSharedToExclusive e shared uninit m
  let (result, file, calls) ← faultOutExclusive file pageOffset page calls
  return (result, file, m, calls)

/-! ## Reading -/

/-- Bytes `0..n` from an offset on. -/
def File.bytes (file : File) (offset n : ℕ) : List (BitVec 8) :=
  (List.range n).map fun i => file.byte (offset + i)

/-- Where a page of a file starts. -/
def pageStart (pageOffset : PageNumber) : ℕ := pageOffset * PAGE_SIZE

/-- What the page at a page offset holds: the file's bytes, and zeros past its end. -/
def File.pageByte (file : File) (pageOffset : PageNumber) (i : ℕ) : BitVec 8 :=
  if pageStart pageOffset + i < file.size then file.byte (pageStart pageOffset + i) else 0

/-- A number of bytes that the file may return is returned by the call that moves so
    many: any number up to what the buffer holds and the file has, but nothing only for an
    empty buffer or at the end of the file. -/
theorem readAt_answers (file : File) {buf : List (BitVec 8)} {offset : BitVec 64} {n : ℕ}
    (hbuf : n ≤ buf.length) (hsize : n ≤ file.size - offset.toNat)
    (hend : n = 0 → buf = [] ∨ file.size ≤ offset.toNat) :
    file.readAt (.moves n) buf offset = (file.bytes offset.toNat n ++ buf.drop n, .ok n) := by
  have hn : min (max 1 n) (min buf.length (file.size - offset.toNat)) = n := by
    by_cases hzero : n = 0
    · rcases hend hzero with hempty | hpast
      · have : buf.length = 0 := by rw [hempty]; rfl
        omega
      · omega
    · omega
  simp only [File.readAt, hn]
  rfl

/-- A call that moves bytes reads some of the file's, unless it is at the end. -/
theorem readAt_moves (file : File) {buf : List (BitVec 8)} (offset : BitVec 64) (k : ℕ)
    (hbuf : buf ≠ []) :
    ∃ n, file.readAt (.moves k) buf offset = (file.bytes offset.toNat n ++ buf.drop n, .ok n) ∧
      n ≤ buf.length ∧
      (n = 0 ∧ file.size ≤ offset.toNat ∨ 0 < n ∧ offset.toNat + n ≤ file.size) := by
  have hpos := List.length_pos_iff.2 hbuf
  refine ⟨_, rfl, ?_, ?_⟩
  · omega
  · omega

/-- A run consumes some calls; among these one failed. -/
def Failed (calls rest : List IoCall) : Prop :=
  ∃ consumed, calls = consumed ++ rest ∧ ∃ call ∈ consumed, call.IsReal

/-- A run consumes some calls, none of which failed. -/
def Succeeded (calls rest : List IoCall) : Prop :=
  ∃ consumed, calls = consumed ++ rest ∧ ∀ call ∈ consumed, ¬call.IsReal

theorem Succeeded.not_failed {calls rest : List IoCall} (h : Succeeded calls rest) :
    ¬Failed calls rest := by
  rintro ⟨consumed, hconsumed, call, hcall, hreal⟩
  obtain ⟨consumed', hconsumed', hnone⟩ := h
  have heq : consumed = consumed' := List.append_cancel_right (hconsumed.symm.trans hconsumed')
  exact hnone call (heq ▸ hcall) hreal

theorem Succeeded.refl (calls : List IoCall) : Succeeded calls calls := ⟨[], rfl, by simp⟩

theorem Succeeded.cons {call : IoCall} {calls rest : List IoCall} (hcall : ¬call.IsReal)
    (h : Succeeded calls rest) :
    Succeeded (call :: calls) rest := by
  obtain ⟨consumed, hconsumed, hnone⟩ := h
  exact ⟨call :: consumed, by rw [hconsumed, List.cons_append],
    List.forall_mem_cons.2 ⟨hcall, hnone⟩⟩

theorem Failed.cons {calls rest : List IoCall} (call : IoCall) (h : Failed calls rest) :
    Failed (call :: calls) rest := by
  obtain ⟨consumed, hconsumed, call', hcall', hreal⟩ := h
  exact ⟨call :: consumed, by rw [hconsumed, List.cons_append], call',
    List.mem_cons_of_mem _ hcall', hreal⟩

theorem Failed.head {call : IoCall} (calls : List IoCall) (hreal : call.IsReal) :
    Failed (call :: calls) calls :=
  ⟨[call], rfl, call, List.mem_singleton.2 rfl, hreal⟩

/-- Moving on in a page of the address range: before its end, the offset does not wrap. -/
theorem offset_toNat {base k : ℕ} (hbase : base + PAGE_SIZE ≤ 2 ^ 64) (hk : k < PAGE_SIZE) :
    (BitVec.ofNat 64 (base + k)).toNat = base + k := by
  rw [BitVec.toNat_ofNat]
  exact Nat.mod_eq_of_lt (by omega)

/-- What the read loop has done so far: the bytes read are the file's, the rest of the
    page is still zero, and the offset is the place after the bytes read. -/
structure Reading (file : File) (base : ℕ) (done pageLeft : List (BitVec 8))
    (offset : BitVec 64) : Prop where
  done_eq : done = file.bytes base done.length
  inside : done = [] ∨ base + done.length ≤ file.size
  left_eq : pageLeft = List.replicate pageLeft.length 0
  length : done.length + pageLeft.length = PAGE_SIZE
  offset_eq : offset = BitVec.ofNat 64 (base + done.length)

theorem Reading.start (file : File) (base : ℕ) :
    Reading file base [] (List.replicate PAGE_SIZE 0) (BitVec.ofNat 64 base) where
  done_eq := rfl
  inside := .inl rfl
  left_eq := by rw [List.length_replicate]
  length := by rw [List.length_replicate, List.length_nil, Nat.zero_add]
  offset_eq := rfl

theorem File.bytes_add (file : File) (offset n n' : ℕ) :
    file.bytes offset (n + n') = file.bytes offset n ++ file.bytes (offset + n) n' := by
  unfold File.bytes
  rw [List.range_add, List.map_append, List.map_map]
  congr 2
  funext i
  exact congrArg file.byte (Nat.add_assoc _ _ _).symm

@[simp]
theorem File.length_bytes (file : File) (offset n : ℕ) : (file.bytes offset n).length = n := by
  unfold File.bytes
  rw [List.length_map, List.length_range]

theorem File.getD_bytes (file : File) (offset n : ℕ) {i : ℕ} (hi : i < n) :
    (file.bytes offset n).getD i 0 = file.byte (offset + i) := by
  rw [List.getD_eq_getElem _ _ (by rwa [File.length_bytes])]
  unfold File.bytes
  rw [List.getElem_map, List.getElem_range]

section

variable {file : File} {base : ℕ} {done pageLeft : List (BitVec 8)} {offset : BitVec 64}

/-- The offset as long as something is left. -/
theorem Reading.toNat (h : Reading file base done pageLeft offset)
    (hbase : base + PAGE_SIZE ≤ 2 ^ 64)
    (hleft : pageLeft ≠ []) : offset.toNat = base + done.length := by
  have hpos := List.length_pos_iff.2 hleft
  have hlength := h.length
  rw [h.offset_eq]
  exact offset_toNat hbase (by omega)

/-- Reading on. -/
theorem Reading.step (h : Reading file base done pageLeft offset) {n : ℕ} (hn : n ≤ pageLeft.length)
    (hsize : base + done.length + n ≤ file.size) :
    Reading file base (done ++ file.bytes (base + done.length) n) (pageLeft.drop n)
      (offset + BitVec.ofNat 64 n) where
  done_eq := by
    rw [List.length_append, File.length_bytes, File.bytes_add, ← h.done_eq]
  inside := by
    right
    rw [List.length_append, File.length_bytes]
    omega
  left_eq := by
    rw [List.length_drop]
    conv => lhs; rw [h.left_eq]
    rw [List.drop_replicate]
  length := by
    have hlength := h.length
    rw [List.length_append, File.length_bytes, List.length_drop]
    omega
  offset_eq := by
    rw [h.offset_eq, List.length_append, File.length_bytes, ← Nat.add_assoc,
      BitVec.ofNat_add (base + done.length)]

end

theorem IoCall.moves_not_real (k : ℕ) : ¬(IoCall.moves k).IsReal := by
  rintro ⟨_, h, -⟩
  cases h

theorem IoCall.interrupted_not_real {e : IoError} (h : e.kind = .interrupted) :
    ¬(IoCall.fails e).IsReal := by
  rintro ⟨e', he', hkind⟩
  cases he'
  exact hkind h

/-- How the read loop ends: with an error if a call failed, else with the page full or at
    the end of the file. -/
theorem readLoop_spec (file : File) {base : ℕ} (hbase : base + PAGE_SIZE ≤ 2 ^ 64)
    (calls : List IoCall) {done pageLeft : List (BitVec 8)} {offset : BitVec 64}
    (h : Reading file base done pageLeft offset)
    {r : Except IoError (List (BitVec 8) × List (BitVec 8))} {rest : List IoCall}
    (hrun : readLoop file done pageLeft offset calls = some (r, rest)) :
    (∃ err, r = .error err ∧ Failed calls rest) ∨
      ∃ done' pageLeft' offset', r = .ok (done', pageLeft') ∧ Succeeded calls rest ∧
        Reading file base done' pageLeft' offset' ∧
          (pageLeft' = [] ∨ file.size ≤ base + done'.length) := by
  induction calls generalizing done pageLeft offset with
  | nil =>
    unfold readLoop at hrun
    by_cases hleft : pageLeft = []
    · rw [if_pos hleft] at hrun
      cases hrun
      exact .inr ⟨done, pageLeft, offset, rfl, .refl _, h, .inl hleft⟩
    · rw [if_neg hleft] at hrun
      cases hrun
  | cons call calls ih =>
    unfold readLoop at hrun
    by_cases hleft : pageLeft = []
    · rw [if_pos hleft] at hrun
      cases hrun
      exact .inr ⟨done, pageLeft, offset, rfl, .refl _, h, .inl hleft⟩
    · rw [if_neg hleft] at hrun
      have hoffset := h.toNat hbase hleft
      cases call with
      | fails e =>
        simp only [File.readAt] at hrun
        by_cases hkind : e.kind = .interrupted
        · rw [if_pos hkind] at hrun
          have hnot := IoCall.interrupted_not_real hkind
          rcases ih h hrun with ⟨err, hr, hfailed⟩ | ⟨done', left', offset', hr, hok,
            hreading, hend⟩
          · exact .inl ⟨err, hr, hfailed.cons _⟩
          · exact .inr ⟨done', left', offset', hr, hok.cons hnot, hreading, hend⟩
        · rw [if_neg hkind] at hrun
          cases hrun
          exact .inl ⟨e, rfl, .head _ ⟨e, rfl, hkind⟩⟩
      | moves k =>
        have hnot := IoCall.moves_not_real k
        obtain ⟨n, hread, hn, hcase⟩ := readAt_moves file offset k hleft
        rw [hoffset] at hread hcase
        simp only [hread] at hrun
        cases n with
        | zero =>
          -- nothing was read: the end of the file
          simp only at hrun
          cases hrun
          have hend : file.size ≤ base + done.length := by omega
          exact .inr ⟨done, pageLeft, offset, rfl, (Succeeded.refl _).cons hnot, h, .inr hend⟩
        | succ n =>
          simp only at hrun
          rw [List.take_left' (File.length_bytes _ _ _),
            List.drop_left' (File.length_bytes _ _ _)] at hrun
          rcases ih (h.step hn (by omega)) hrun with ⟨err, hr, hfailed⟩ | ⟨done', left', offset',
            hr, hok, hreading, hend⟩
          · exact .inl ⟨err, hr, hfailed.cons _⟩
          · exact .inr ⟨done', left', offset', hr, hok.cons hnot, hreading, hend⟩

/-- Is the call interrupted? -/
def IoCall.isInterrupted (call : IoCall) : Bool :=
  match call with
  | .fails e => e.kind = .interrupted
  | .moves _ => false

/-- The calls that are not interrupted. -/
def completed (calls : List IoCall) : ℕ := calls.countP fun call => !call.isInterrupted

/-- The read loop returns: every call that is not interrupted moves at least a byte or
    ends it. -/
theorem readLoop_returns (file : File) (calls : List IoCall) {done pageLeft : List (BitVec 8)}
    {offset : BitVec 64} (hcalls : pageLeft.length ≤ completed calls) :
    (readLoop file done pageLeft offset calls).isSome := by
  induction calls generalizing done pageLeft offset with
  | nil =>
    have hleft : pageLeft = [] := List.eq_nil_of_length_eq_zero (Nat.le_zero.1 hcalls)
    unfold readLoop
    rw [if_pos hleft]
    rfl
  | cons call calls ih =>
    unfold readLoop
    by_cases hleft : pageLeft = []
    · rw [if_pos hleft]
      rfl
    rw [if_neg hleft]
    cases call with
    | fails e =>
      simp only [File.readAt]
      by_cases hkind : e.kind = .interrupted
      · rw [if_pos hkind]
        apply ih
        unfold completed at hcalls ⊢
        rwa [List.countP_cons_of_neg (by simp [IoCall.isInterrupted, hkind])] at hcalls
      · rw [if_neg hkind]
        rfl
    | moves k =>
      obtain ⟨n, hread, hn, -⟩ := readAt_moves file offset k hleft
      simp only [hread]
      cases n with
      | zero => rfl
      | succ n =>
        simp only
        apply ih
        rw [List.drop_left' (File.length_bytes _ _ _), List.length_drop]
        unfold completed at hcalls ⊢
        rw [List.countP_cons_of_pos (by rfl)] at hcalls
        omega

theorem vaddrBase_eq (p : PageNumber) : p.vaddrBase = BitVec.ofNat 64 (pageStart p) := rfl

/-- The last page ends where the address space does. -/
theorem page_in_range {p : PageNumber} (hp : p ≤ PageNumber.MAX) :
    pageStart p + PAGE_SIZE ≤ 2 ^ 64 := by
  have hle : pageStart p ≤ pageStart PageNumber.MAX := Nat.mul_le_mul_right PAGE_SIZE hp
  have hlast : pageStart PageNumber.MAX + PAGE_SIZE = 2 ^ 64 := by decide
  omega

/-- A page of a file: `fault_in_exclusive` yields its bytes, or fails where there is none
    or a call failed. -/
theorem faultInExclusive_spec (file : File) {p : PageNumber} (hp : p ≤ PageNumber.MAX)
    {calls rest : List IoCall} {r : Except IoError PageBytes}
    (hrun : faultInExclusive file p calls = some (r, rest)) :
    (∃ err, r = .error err ∧ (file.size ≤ pageStart p ∨ Failed calls rest)) ∨
      ∃ page, r = .ok page ∧ pageStart p < file.size ∧ Succeeded calls rest ∧
        ∀ i < PAGE_SIZE, page i = file.pageByte p i := by
  have hbase := page_in_range hp
  unfold faultInExclusive at hrun
  rw [vaddrBase_eq] at hrun
  cases hloop :
    readLoop file [] (List.replicate PAGE_SIZE 0) (BitVec.ofNat 64 (pageStart p)) calls with
  | none =>
    rw [hloop] at hrun
    cases hrun
  | some result =>
    obtain ⟨result, rest'⟩ := result
    rw [hloop] at hrun
    rcases readLoop_spec file hbase calls (Reading.start file _) hloop with
      ⟨err, rfl, hfailed⟩ | ⟨done, pageLeft, offset, rfl, hok, hreading, hend⟩
    · cases hrun
      exact .inl ⟨err, rfl, .inr hfailed⟩
    · have hlength := hreading.length
      by_cases hempty : pageLeft.length = PAGE_SIZE
      · simp only [bind, Option.bind, hempty, if_true, pure] at hrun
        cases hrun
        have hnothing : pageLeft ≠ [] := by
          rintro rfl
          exact absurd hempty (by decide)
        have hdone : done.length = 0 := by omega
        rcases hend with hfull | hend
        · exact absurd hfull hnothing
        · exact .inl ⟨_, rfl, .inl (by omega)⟩
      · simp only [bind, Option.bind, hempty, if_false, pure] at hrun
        cases hrun
        have hinside : pageStart p + done.length ≤ file.size := by
          rcases hreading.inside with hnil | hinside
          · rw [hnil] at hlength
            exact absurd (by simpa using hlength) hempty
          · exact hinside
        refine .inr ⟨_, rfl, by omega, hok, ?_⟩
        intro i hi
        unfold File.pageByte
        by_cases hread : i < done.length
        · have hbyte : (done ++ pageLeft).getD i 0 = file.byte (pageStart p + i) := by
            rw [List.getD_append _ _ _ _ hread, hreading.done_eq]
            exact File.getD_bytes _ _ _ hread
          rw [hbyte, if_pos (by omega)]
        · have hzero : (done ++ pageLeft).getD i 0 = 0 := by
            rw [List.getD_append_right _ _ _ _ (by omega), hreading.left_eq]
            exact List.getD_replicate _ (by omega)
          rw [hzero]
          rcases hend with hfull | hend
          · have : pageLeft.length = 0 := by rw [hfull]; rfl
            omega
          · rw [if_neg (by omega)]

/-- `fault_in_exclusive` returns, once enough calls were not interrupted. -/
theorem faultInExclusive_returns (file : File) (p : PageNumber) {calls : List IoCall}
    (hcalls : PAGE_SIZE ≤ completed calls) : (faultInExclusive file p calls).isSome := by
  have hloop : (readLoop file [] (List.replicate PAGE_SIZE 0) p.vaddrBase calls).isSome :=
    readLoop_returns file calls (by rwa [List.length_replicate])
  obtain ⟨⟨r, rest⟩, hr⟩ := Option.isSome_iff_exists.1 hloop
  unfold faultInExclusive
  rw [hr]
  cases r with
  | error e => rfl
  | ok result =>
    by_cases hempty : result.2.length = PAGE_SIZE
    · simp only [bind, Option.bind, hempty, if_true]
      rfl
    · simp only [bind, Option.bind, hempty, if_false]
      rfl

/-! ## Writing -/

/-- Two descriptions of one content. -/
structure File.Same (f g : File) : Prop where
  size : f.size = g.size
  byte : ∀ i < f.size, f.byte i = g.byte i

theorem File.Same.refl (f : File) : f.Same f := ⟨rfl, fun _ _ => rfl⟩

theorem File.write_nil (f : File) (offset : ℕ) : f.write offset [] = f := if_pos rfl

/-- The size of a file after a write, and the bytes within it. -/
theorem File.write_spec (f : File) (offset : ℕ) {data : List (BitVec 8)} (hdata : data ≠ []) :
    (f.write offset data).size = max f.size (offset + data.length) ∧
      ∀ i, (f.write offset data).byte i =
        if offset ≤ i ∧ i < offset + data.length then data.getD (i - offset) 0
        else if i < f.size then f.byte i else 0 := by
  unfold File.write
  rw [if_neg hdata]
  exact ⟨rfl, fun _ => rfl⟩

/-- Writing on after a write writes both. -/
theorem File.Same.write {f g : File} {offset : ℕ} {first second : List (BitVec 8)}
    (h : (f.write offset first).Same g) :
    (f.write offset (first ++ second)).Same (g.write (offset + first.length) second) := by
  by_cases hsecond : second = []
  · rw [hsecond, List.append_nil, File.write_nil]
    exact h
  have hboth : first ++ second ≠ [] := fun heq => hsecond (List.append_eq_nil_iff.1 heq).2
  obtain ⟨hsize, hbyte⟩ := f.write_spec offset hboth
  obtain ⟨hgsize, hgbyte⟩ := g.write_spec (offset + first.length) hsecond
  have hfirst : g.size = if first = [] then f.size else max f.size (offset + first.length) := by
    rw [← h.size]
    by_cases hnil : first = []
    · rw [hnil, File.write_nil, if_pos rfl]
    · rw [if_neg hnil, (f.write_spec offset hnil).1]
  have hgfirst : ∀ i < g.size, g.byte i = if offset ≤ i ∧ i < offset + first.length then
    first.getD (i - offset) 0
      else if i < f.size then f.byte i else 0 := by
    intro i hi
    rw [← h.byte i (by rwa [h.size])]
    by_cases hnil : first = []
    · rw [hnil, if_pos rfl] at hfirst
      rw [hnil, File.write_nil, List.length_nil, if_neg (by omega), if_pos (by omega)]
    · exact (f.write_spec offset hnil).2 i
  rw [List.length_append] at hsize hbyte
  refine ⟨?_, ?_⟩
  · rw [hsize, hgsize, hfirst]
    by_cases hnil : first = []
    · rw [if_pos hnil]
      omega
    · rw [if_neg hnil]
      omega
  · intro i hi
    rw [hbyte, hgbyte]
    by_cases hin : offset + first.length ≤ i ∧ i < offset + first.length + second.length
    · have hsub : i - offset - first.length = i - (offset + first.length) := by omega
      rw [if_pos hin, if_pos (by omega), List.getD_append_right _ _ _ _ (by omega), hsub]
    · rw [if_neg hin]
      by_cases hin' : offset ≤ i ∧ i < offset + first.length
      · have hpos : 0 < first.length := by omega
        have hnil : first ≠ [] := List.length_pos_iff.1 hpos
        rw [if_neg hnil] at hfirst
        rw [if_pos (by omega), if_pos (by omega), hgfirst i (by omega), if_pos hin',
          List.getD_append _ _ _ _ (by omega)]
      · rw [if_neg (by omega)]
        by_cases hg : i < g.size
        · rw [if_pos hg, hgfirst i hg, if_neg hin']
        · have hf : ¬i < f.size := by
            rw [hfirst] at hg
            split_ifs at hg <;> omega
          rw [if_neg hg, if_neg hf]

/-- Any number of bytes up to the length of the buffer is what some call writes. -/
theorem writeAt_answers (file : File) {buf : List (BitVec 8)} {offset : BitVec 64} {n : ℕ}
    (hbuf : n ≤ buf.length) :
    file.writeAt (.moves n) buf offset = (file.write offset.toNat (buf.take n), .ok n) := by
  simp only [File.writeAt, Nat.min_eq_left hbuf]

theorem length_asSlice (page : PageBytes) : (asSlice page).length = PAGE_SIZE := by
  unfold asSlice
  rw [List.length_map, List.length_range]

theorem getD_asSlice (page : PageBytes) {i : ℕ} (hi : i < PAGE_SIZE) :
    (asSlice page).getD i 0 = page i := by
  rw [List.getD_eq_getElem _ _ (by rwa [length_asSlice])]
  unfold asSlice
  rw [List.getElem_map, List.getElem_range]

/-- How the write loop ends: with the whole page written if no call failed or wrote
    nothing, else with a part of it written, and in either case with no other byte
    written. The bytes before `page_left` are already written. -/
theorem writeLoop_spec (file : File) {base : ℕ} (hbase : base + PAGE_SIZE ≤ 2 ^ 64)
    (calls : List IoCall) {done pageLeft : List (BitVec 8)} {file₁ : File}
    (hdone : (file.write base done).Same file₁)
    (hlength : done.length + pageLeft.length = PAGE_SIZE) {r : Except IoError Unit} {file' : File}
    {rest : List IoCall}
    (hrun : writeLoop file₁ pageLeft (BitVec.ofNat 64 (base + done.length)) calls =
      some (r, file', rest)) :
    r = .ok () ∧ (file.write base (done ++ pageLeft)).Same file' ∧ Succeeded calls rest ∨
      ∃ err n, r = .error err ∧ (file.write base ((done ++ pageLeft).take n)).Same file' := by
  induction calls generalizing done pageLeft file₁ with
  | nil =>
    unfold writeLoop at hrun
    by_cases hleft : pageLeft = []
    · rw [if_pos hleft] at hrun
      cases hrun
      rw [hleft, List.append_nil]
      exact .inl ⟨rfl, hdone, .refl _⟩
    · rw [if_neg hleft] at hrun
      cases hrun
  | cons call calls ih =>
    unfold writeLoop at hrun
    by_cases hleft : pageLeft = []
    · rw [if_pos hleft] at hrun
      cases hrun
      rw [hleft, List.append_nil]
      exact .inl ⟨rfl, hdone, .refl _⟩
    rw [if_neg hleft] at hrun
    have hpos := List.length_pos_iff.2 hleft
    cases call with
    | fails e =>
      simp only [File.writeAt] at hrun
      by_cases hkind : e.kind = .interrupted
      · rw [if_pos hkind] at hrun
        have hnot := IoCall.interrupted_not_real hkind
        rcases ih hdone hlength hrun with ⟨hr, hwritten, hok⟩ | herror
        · exact .inl ⟨hr, hwritten, hok.cons hnot⟩
        · exact .inr herror
      · rw [if_neg hkind] at hrun
        cases hrun
        refine .inr ⟨e, done.length, rfl, ?_⟩
        rw [List.take_left]
        exact hdone
    | moves k =>
      have hoffset : (BitVec.ofNat 64 (base + done.length)).toNat = base + done.length :=
        offset_toNat hbase (by omega)
      simp only [File.writeAt, hoffset] at hrun
      have hstep : (file.write base (done ++ pageLeft.take k)).Same
          (file₁.write (base + done.length) (pageLeft.take k)) := hdone.write
      cases hn : min k pageLeft.length with
      | zero =>
        -- nothing was written
        simp only [hn] at hrun
        cases hrun
        obtain rfl : k = 0 := by omega
        refine .inr ⟨_, done.length, rfl, ?_⟩
        rw [List.take_zero, List.append_nil] at hstep
        rw [List.take_left, List.take_zero]
        exact hstep
      | succ n =>
        simp only [hn] at hrun
        have htake : pageLeft.take k = pageLeft.take (n + 1) := by
          rw [← hn, List.take_eq_take_iff]
          omega
        have hlen : (done ++ pageLeft.take (n + 1)).length = done.length + (n + 1) := by
          rw [List.length_append, List.length_take]
          omega
        have hlength' : (done ++ pageLeft.take (n + 1)).length + (pageLeft.drop (n + 1)).length =
            PAGE_SIZE := by
          rw [hlen, List.length_drop]
          omega
        rw [htake] at hstep hrun
        rw [← BitVec.ofNat_add, Nat.add_assoc, ← hlen] at hrun
        have hrest := ih hstep hlength' hrun
        rw [List.append_assoc, List.take_append_drop] at hrest
        rcases hrest with ⟨hr, hwritten, hok⟩ | herror
        · exact .inl ⟨hr, hwritten, hok.cons (IoCall.moves_not_real k)⟩
        · exact .inr herror

/-- The write loop returns: every call that is not interrupted writes at least a byte or
    ends it. -/
theorem writeLoop_returns (calls : List IoCall) {file : File} {pageLeft : List (BitVec 8)}
    {offset : BitVec 64} (hcalls : pageLeft.length ≤ completed calls) :
    (writeLoop file pageLeft offset calls).isSome := by
  induction calls generalizing file pageLeft offset with
  | nil =>
    have hleft : pageLeft = [] := List.eq_nil_of_length_eq_zero (Nat.le_zero.1 hcalls)
    unfold writeLoop
    rw [if_pos hleft]
    rfl
  | cons call calls ih =>
    unfold writeLoop
    by_cases hleft : pageLeft = []
    · rw [if_pos hleft]
      rfl
    rw [if_neg hleft]
    cases call with
    | fails e =>
      simp only [File.writeAt]
      by_cases hkind : e.kind = .interrupted
      · rw [if_pos hkind]
        apply ih
        unfold completed at hcalls ⊢
        rwa [List.countP_cons_of_neg (by simp [IoCall.isInterrupted, hkind])] at hcalls
      · rw [if_neg hkind]
        rfl
    | moves k =>
      simp only [File.writeAt]
      cases hn : min k pageLeft.length with
      | zero => rfl
      | succ n =>
        simp only
        apply ih
        rw [List.length_drop]
        unfold completed at hcalls ⊢
        rw [List.countP_cons_of_pos (by rfl)] at hcalls
        omega

/-- `fault_out_exclusive`: when it succeeds, the page is written to the file and no other
    byte. -/
theorem faultOutExclusive_spec (file : File) {p : PageNumber} (hp : p ≤ PageNumber.MAX)
    (page : PageBytes) {calls rest : List IoCall} {file' : File}
    (hrun : faultOutExclusive file p page calls = some (.ok (), file', rest)) :
    (file.write (pageStart p) (asSlice page)).Same file' := by
  have hnone : (file.write (pageStart p) []).Same file := by
    rw [File.write_nil]
    exact .refl _
  have hlength : ([] : List (BitVec 8)).length + (asSlice page).length = PAGE_SIZE := by
    rw [length_asSlice, List.length_nil, Nat.zero_add]
  have hloop : writeLoop file (asSlice page)
      (BitVec.ofNat 64 (pageStart p + ([] : List (BitVec 8)).length)) calls =
      some (.ok (), file', rest) := by
    rw [List.length_nil, Nat.add_zero, ← vaddrBase_eq]
    exact hrun
  have hspec := writeLoop_spec file (page_in_range hp) calls hnone hlength hloop
  rw [List.nil_append] at hspec
  rcases hspec with ⟨-, hwritten, -⟩ | ⟨err, n, herr, -⟩
  · exact hwritten
  · cases herr

theorem faultOutExclusive_returns (file : File) (p : PageNumber) (page : PageBytes)
    {calls : List IoCall}
    (hcalls : PAGE_SIZE ≤ completed calls) : (faultOutExclusive file p page calls).isSome :=
  writeLoop_returns calls (by rwa [length_asSlice])

/-- A page that was written is what the file's page holds. -/
theorem pageByte_of_written {file file' : File} {p : PageNumber} {page : PageBytes}
    (h : (file.write (pageStart p) (asSlice page)).Same file') :
    pageStart p < file'.size ∧ ∀ i < PAGE_SIZE, file'.pageByte p i = page i := by
  have hnil : asSlice page ≠ [] := by
    apply List.length_pos_iff.1
    rw [length_asSlice]
    exact PAGE_SIZE_pos
  obtain ⟨hsize, hbyte⟩ := file.write_spec (pageStart p) hnil
  rw [length_asSlice] at hsize hbyte
  have hpos := PAGE_SIZE_pos
  have hsame := h.size
  refine ⟨by omega, ?_⟩
  intro i hi
  unfold File.pageByte
  rw [if_pos (by omega), ← h.byte _ (by omega), hbyte, if_pos (by omega), Nat.add_sub_cancel_left,
    getD_asSlice page hi]

/-! ## The shared page -/

/-- The default `fault_in`: what `fault_in_exclusive` yields is copied to the shared page,
    which an error leaves alone. -/
theorem faultIn_eq (e : Endian) (file : File) (p : PageNumber) (shared : PagePointer)
    (calls : List IoCall) (m : Memory) {r : Except IoError PageBytes} {rest : List IoCall}
    (hrun : faultInExclusive file p calls = some (r, rest)) :
    (∃ err, r = .error err ∧ faultIn e file p shared calls m = some (.error err, m, rest)) ∨
      ∃ page accesses, r = .ok page ∧ faultIn e file p shared calls m =
        some (.ok (), ⟨writeAt m.mem shared.addr PAGE_SIZE page, accesses⟩, rest) := by
  unfold faultIn
  rw [hrun]
  cases r with
  | error err => exact .inl ⟨err, rfl, rfl⟩
  | ok page =>
    obtain ⟨accesses, hcopy⟩ := copyPageExclusiveToShared_run e shared page m
    refine .inr ⟨page, accesses, rfl, ?_⟩
    simp only [bind, Option.bind, hcopy]
    rfl

/-- The default `fault_out`: `fault_out_exclusive` of the bytes of the shared page. -/
theorem faultOut_eq (e : Endian) (file : File) (p : PageNumber) (shared : PagePointer)
    (uninit : PageBytes) (calls : List IoCall) (m : Memory) :
    ∃ page accesses, (∀ i < PAGE_SIZE, page i = m.mem (shared.addr + i)) ∧
      faultOut e file p shared uninit calls m = (faultOutExclusive file p page calls).map
        fun (r, file', rest) => (r, file', ⟨m.mem, accesses⟩, rest) := by
  obtain ⟨accesses, hcopy⟩ := copyPageSharedToExclusive_run e shared uninit m
  refine ⟨writeAt uninit 0 PAGE_SIZE fun j => m.mem (shared.addr + j), accesses, ?_, ?_⟩
  · intro i hi
    have hread := writeAt_add uninit 0 (fun j => m.mem (shared.addr + j)) hi
    rwa [Nat.zero_add] at hread
  · unfold faultOut
    rw [hcopy]
    cases hout : faultOutExclusive file p (writeAt uninit 0 PAGE_SIZE fun j =>
      m.mem (shared.addr + j)) calls with
    | none => simp only [bind, Option.bind, hout, Option.map]
    | some result => simp only [bind, Option.bind, hout, Option.map, pure]

theorem asSlice_congr {page page' : PageBytes} (h : ∀ i < PAGE_SIZE, page i = page' i) :
    asSlice page = asSlice page' := by
  unfold asSlice
  exact List.map_congr_left fun i hi => h i (List.mem_range.1 hi)

/-- What `fault_in_exclusive` returns: an error if and only if the file has no byte in the
    page or a call failed, else the bytes of the file's page. -/
def ReadsPage (file : File) (p : PageNumber) (calls rest : List IoCall)
    (r : Except IoError PageBytes) : Prop :=
  ((∃ err, r = .error err) ↔ file.size ≤ pageStart p ∨ Failed calls rest) ∧
    ∀ page, r = .ok page → ∀ i < PAGE_SIZE, page i = file.pageByte p i

theorem faultInExclusive_reads (file : File) {p : PageNumber} (hp : p ≤ PageNumber.MAX)
    {calls rest : List IoCall} {r : Except IoError PageBytes}
    (hrun : faultInExclusive file p calls = some (r, rest)) :
    ReadsPage file p calls rest r := by
  rcases faultInExclusive_spec file hp hrun with
    ⟨err, rfl, hfails⟩ | ⟨page, rfl, hinside, hok, hpage⟩
  · refine ⟨iff_of_true ⟨err, rfl⟩ hfails, ?_⟩
    intro page heq
    cases heq
  · refine ⟨iff_of_false ?_ ?_, ?_⟩
    · rintro ⟨err, heq⟩
      cases heq
    · rintro (hend | hfailed)
      · omega
      · exact hok.not_failed hfailed
    · intro page' heq
      cases heq
      exact hpage

/-- The results of the default `fault_in`, which leaves all other memory alone. -/
theorem faultIn_reads (e : Endian) (file : File) {p : PageNumber} (hp : p ≤ PageNumber.MAX)
    (shared : PagePointer) {calls rest : List IoCall} {m m' : Memory} {r : Except IoError Unit}
    (hrun : faultIn e file p shared calls m = some (r, m', rest)) :
    ((∃ err, r = .error err) ↔ file.size ≤ pageStart p ∨ Failed calls rest) ∧
      (r = .ok () → m'.mem = Memops.writeAt m.mem shared.addr PAGE_SIZE (file.pageByte p)) ∧
      (r ≠ .ok () → m' = m) := by
  cases hexcl : faultInExclusive file p calls with
  | none =>
    unfold faultIn at hrun
    rw [hexcl] at hrun
    cases hrun
  | some result =>
    obtain ⟨result, rest'⟩ := result
    obtain ⟨hiff, hpage⟩ := faultInExclusive_reads file hp hexcl
    rcases faultIn_eq e file p shared calls m hexcl with
      ⟨err, rfl, heq⟩ | ⟨page, accesses, rfl, heq⟩
    · rw [heq] at hrun
      cases hrun
      refine ⟨iff_of_true ⟨err, rfl⟩ (hiff.1 ⟨err, rfl⟩), ?_, fun _ => rfl⟩
      intro hr
      cases hr
    · rw [heq] at hrun
      cases hrun
      have hnot : ¬∃ err, (Except.ok page : Except IoError PageBytes) = .error err := by
        rintro ⟨err, herr⟩
        cases herr
      refine ⟨iff_of_false ?_ fun hfails => hnot (hiff.2 hfails), fun _ => ?_,
        fun hne => absurd rfl hne⟩
      · rintro ⟨err, herr⟩
        cases herr
      · exact writeAt_congr _ _ (hpage page rfl)

/-- When the default `fault_out` succeeds, the bytes of the shared page are written to the
    file's page, and no other byte of the file or of memory. -/
theorem faultOut_writes (e : Endian) (file : File) {p : PageNumber} (hp : p ≤ PageNumber.MAX)
    (shared : PagePointer) (uninit : PageBytes) {calls rest : List IoCall} {m m' : Memory}
    {file' : File}
    (hrun : faultOut e file p shared uninit calls m = some (.ok (), file', m', rest)) :
    m'.mem = m.mem ∧
      (file.write (pageStart p) (asSlice fun i => m.mem (shared.addr + i))).Same file' := by
  obtain ⟨page, accesses, hpage, heq⟩ := faultOut_eq e file p shared uninit calls m
  rw [heq] at hrun
  obtain ⟨⟨r, file'', rest'⟩, hout, hresult⟩ := Option.map_eq_some_iff.1 hrun
  cases hresult
  refine ⟨rfl, ?_⟩
  rw [← asSlice_congr hpage]
  exact faultOutExclusive_spec file hp page hout

theorem faultIn_returns (e : Endian) (file : File) (p : PageNumber) (shared : PagePointer)
    (m : Memory) {calls : List IoCall} (hcalls : PAGE_SIZE ≤ completed calls) :
    (faultIn e file p shared calls m).isSome := by
  obtain ⟨⟨r, rest⟩, hexcl⟩ := Option.isSome_iff_exists.1 (faultInExclusive_returns file p hcalls)
  rcases faultIn_eq e file p shared calls m hexcl with ⟨err, -, heq⟩ | ⟨page, accesses, -, heq⟩
  · rw [heq]
    rfl
  · rw [heq]
    rfl

theorem faultOut_returns (e : Endian) (file : File) (p : PageNumber) (shared : PagePointer)
    (uninit : PageBytes) (m : Memory) {calls : List IoCall} (hcalls : PAGE_SIZE ≤ completed calls) :
    (faultOut e file p shared uninit calls m).isSome := by
  obtain ⟨page, accesses, -, heq⟩ := faultOut_eq e file p shared uninit calls m
  rw [heq, Option.isSome_map]
  exact faultOutExclusive_returns file p page hcalls

/-- A page that was written is read back: reading it can only fail by a failing call. -/
theorem read_back {file file' : File} {p : PageNumber} {page : PageBytes}
    (hwritten : (file.write (pageStart p) (asSlice page)).Same file') {calls rest : List IoCall}
    {r : Except IoError PageBytes} (hread : ReadsPage file' p calls rest r) :
    ((∃ err, r = .error err) ↔ Failed calls rest) ∧ ∀ page', r = .ok page' → ∀ i < PAGE_SIZE,
      page' i = page i := by
  obtain ⟨hinside, hbytes⟩ := pageByte_of_written hwritten
  refine ⟨hread.1.trans ⟨?_, .inr⟩, ?_⟩
  · rintro (hend | hfailed)
    · omega
    · exact hfailed
  · intro page' hr i hi
    rw [hread.2 page' hr i hi, hbytes i hi]

/-- The same of the default `fault_in`, after a page was written. -/
theorem faultIn_read_back (e : Endian) {file file' : File} {p : PageNumber}
    (hp : p ≤ PageNumber.MAX) {page : PageBytes}
    (hwritten : (file.write (pageStart p) (asSlice page)).Same file') (shared : PagePointer)
    {calls rest : List IoCall} {m m' : Memory} {r : Except IoError Unit}
    (hrun : faultIn e file' p shared calls m = some (r, m', rest)) :
    ((∃ err, r = .error err) ↔ Failed calls rest) ∧
      (r = .ok () → ∀ i < PAGE_SIZE, m'.mem (shared.addr + i) = page i) := by
  obtain ⟨hinside, hbytes⟩ := pageByte_of_written hwritten
  obtain ⟨hiff, hpage, -⟩ := faultIn_reads e file' hp shared hrun
  refine ⟨hiff.trans ⟨?_, .inr⟩, ?_⟩
  · rintro (hend | hfailed)
    · omega
    · exact hfailed
  · intro hr i hi
    rw [hpage hr, writeAt_add _ _ _ hi, hbytes i hi]

/-- Page-sized file I/O is exact, for every file, page number and pattern of partial
    transfers, interruptions and errors: reading yields the file's bytes and zeros past its
    end, and fails if and only if the file has no byte there or a call failed; writing that
    succeeds has written the page and no other byte, and reading the page afterwards
    returns it; with enough calls that are not interrupted, each of them returns. -/
theorem page_io_exact (e : Endian) (file : File) (p : PageNumber) (hp : p ≤ PageNumber.MAX)
    (calls : List IoCall) :
    (∀ r rest, faultInExclusive file p calls = some (r, rest) → ReadsPage file p calls rest r) ∧
    (∀ shared m r m' rest, faultIn e file p shared calls m = some (r, m', rest) →
      ((∃ err, r = .error err) ↔ file.size ≤ pageStart p ∨ Failed calls rest) ∧
        (r = .ok () → m'.mem = writeAt m.mem shared.addr PAGE_SIZE (file.pageByte p))) ∧
    (∀ page file' rest, faultOutExclusive file p page calls = some (.ok (), file', rest) →
      (file.write (pageStart p) (asSlice page)).Same file' ∧
        ∀ calls' r rest', faultInExclusive file' p calls' = some (r, rest') →
          ((∃ err, r = .error err) ↔ Failed calls' rest') ∧
            ∀ page', r = .ok page' → ∀ i < PAGE_SIZE, page' i = page i) ∧
    (∀ shared uninit m file' m' rest, faultOut e file p shared uninit calls m =
      some (.ok (), file', m', rest) →
      (m'.mem = m.mem ∧ (file.write (pageStart p) (asSlice fun i =>
        m.mem (shared.addr + i))).Same file') ∧
        ∀ shared' m₁ calls' r m₂ rest', faultIn e file' p shared' calls' m₁ = some (r, m₂, rest') →
          ((∃ err, r = .error err) ↔ Failed calls' rest') ∧
            (r = .ok () → ∀ i < PAGE_SIZE, m₂.mem (shared'.addr + i) = m.mem (shared.addr + i))) ∧
    (PAGE_SIZE ≤ completed calls → (faultInExclusive file p calls).isSome ∧
      (∀ shared m, (faultIn e file p shared calls m).isSome) ∧
      (∀ page, (faultOutExclusive file p page calls).isSome) ∧
      ∀ shared uninit m, (faultOut e file p shared uninit calls m).isSome) := by
  refine ⟨fun r rest => faultInExclusive_reads file hp, ?_, ?_, ?_, ?_⟩
  · intro shared m r m' rest hrun
    obtain ⟨hiff, hpage, -⟩ := faultIn_reads e file hp shared hrun
    exact ⟨hiff, hpage⟩
  · intro page file' rest hrun
    have hwritten := faultOutExclusive_spec file hp page hrun
    exact ⟨hwritten, fun calls' r rest' hread =>
      read_back hwritten (faultInExclusive_reads file' hp hread)⟩
  · intro shared uninit m file' m' rest hrun
    have hwritten := faultOut_writes e file hp shared uninit hrun
    exact ⟨hwritten, fun shared' m₁ calls' r m₂ rest' hread =>
      faultIn_read_back e hp hwritten.2 shared' hread⟩
  · intro hcalls
    exact ⟨faultInExclusive_returns file p hcalls,
      fun shared m => faultIn_returns e file p shared m hcalls,
      fun page => faultOutExclusive_returns file p page hcalls,
      fun shared uninit m => faultOut_returns e file p shared uninit m hcalls⟩

/-- The last page of the address space, of which the file has one byte. -/
theorem page_io_of_last_page :
    ∃ r rest,
      faultInExclusive ⟨2 ^ 64 - 4095, fun _ => 7⟩ PageNumber.MAX
        (List.replicate PAGE_SIZE (.moves 1)) = some (r, rest) ∧
      ReadsPage ⟨2 ^ 64 - 4095, fun _ => 7⟩ PageNumber.MAX (List.replicate PAGE_SIZE (.moves 1))
        rest r := by
  obtain ⟨hreads, -, -, -, hreturns⟩ :=
    page_io_exact .little ⟨2 ^ 64 - 4095, fun _ => 7⟩ PageNumber.MAX
    (Nat.le_refl _) (List.replicate PAGE_SIZE (.moves 1))
  have hcalls : PAGE_SIZE ≤ completed (List.replicate PAGE_SIZE (.moves 1)) := by
    unfold completed
    rw [List.countP_replicate]
    exact Nat.le_refl _
  obtain ⟨⟨r, rest⟩, hrun⟩ := Option.isSome_iff_exists.1 (hreturns hcalls).1
  exact ⟨r, rest, hrun, hreads r rest hrun⟩

end RapidArm.Objects
