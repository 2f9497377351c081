import RapidArm.Memops.Scalar

/-!
# Bulk copies between guest and host memory

`bulk_byte_chunk_copy` (`io-mmu/src/memops.rs`, lines 1010–1063): bytes up to an aligned
guest address, chunks of eight bytes, and the remaining bytes. The guest side is accessed
through the aligned accesses of the module, the host side by plain reads and writes. The
`usize` arithmetic and the `assert_unchecked` conditions are checked here, with `none` for
what the source may assume never happens. Both sides lie in one address space, and the
pointers are valid for `count` bytes, so that their addresses do not wrap.

Result: `bulk_copy_is_byte_copy`.
-/

namespace RapidArm.Memops

open RapidArm.Ir RapidArm.Mmu

/-! ## The copy -/

/-- `VmToHost` and `HostToVm`. -/
inductive BulkByteChunkOp
  | vmToHost
  | hostToVm
  deriving DecidableEq, Repr

/-- The memory, with the accesses made to guest memory and those made to the host's
    side. -/
structure BulkState extends Memory where
  hostAccesses : List MemoryAccess

/-- A step of a copy. -/
abbrev BulkOp := StateT BulkState Option

/-- An access to guest memory within a copy. -/
def onVm {α : Type} (x : MemOp α) : BulkOp α := fun s =>
  (x s.toMemory).map fun (a, m) => (a, { s with toMemory := m })

/-- `ptr::read` and `ptr::read_unaligned`. -/
def hostRead (e : Endian) (w : IntWidth) (ptr : ℕ) : BulkOp (BitVec w.bits) := fun s =>
  some (fromNeBytes e w fun i => s.mem (ptr + i),
    { s with hostAccesses := s.hostAccesses ++ [⟨false, ptr, w⟩] })

/-- `ptr::write` and `ptr::write_unaligned`. -/
def hostWrite (e : Endian) {w : IntWidth} (ptr : ℕ) (value : BitVec w.bits) : BulkOp Unit :=
  fun s =>
  some ((), { s with mem := writeAt s.mem ptr w.bytes (toNeBytes e value),
                     hostAccesses := s.hostAccesses ++ [⟨true, ptr, w⟩] })

namespace BulkByteChunkOp

variable (e : Endian) (op : BulkByteChunkOp) (vmPtr hostPtr i : ℕ)

/-- The body of `copy_byte` and of `copy_chunk`. -/
def copyPart (w : IntWidth) : BulkOp Unit :=
  match op with
  | vmToHost => do hostWrite e (hostPtr + i) (← onVm (loadNeAlignedInner e w (vmPtr + i)))
  | hostToVm => do onVm (storeNeAlignedInner e (vmPtr + i) (← hostRead e w (hostPtr + i)))

/-- `copy_byte`. -/
def copyByte : BulkOp Unit := copyPart e op vmPtr hostPtr i .w8

/-- `copy_chunk`. -/
def copyChunk : BulkOp Unit := copyPart e op vmPtr hostPtr i .w64

end BulkByteChunkOp

/-- `CHUNK_SIZE`. -/
def CHUNK_SIZE : ℕ := 8

/-- `align_offset` of a byte pointer. -/
def alignOffset (ptr align : ℕ) : ℕ := (align - ptr % align) % align

def uncheckedSub (a b : ℕ) : Option ℕ := if b ≤ a then some (a - b) else none

def uncheckedAdd (a b : ℕ) : Option ℕ := if a + b < 2 ^ 64 then some (a + b) else none

def uncheckedMul (a b : ℕ) : Option ℕ := if a * b < 2 ^ 64 then some (a * b) else none

section

variable (e : Endian) (op : BulkByteChunkOp) (vmPtr hostPtr : ℕ)

/-- `for i in start..end` of `copy_byte`, as the first index and the number of them. -/
def copyBytes (i : ℕ) : ℕ → BulkOp Unit
  | 0 => return ()
  | n + 1 => do
    op.copyByte e vmPtr hostPtr i
    copyBytes (i + 1) n

/-- The `while i < mid_end` loop of `copy_chunk`. -/
def copyChunks (midEnd i : ℕ) : BulkOp Unit :=
  if i < midEnd then do
    op.copyChunk e vmPtr hostPtr i
    if i + CHUNK_SIZE < 2 ^ 64 then copyChunks midEnd (i + CHUNK_SIZE) else failure
  else return ()
termination_by midEnd - i
decreasing_by
  unfold CHUNK_SIZE
  omega

/-- `bulk_byte_chunk_copy`. -/
def bulkByteChunkCopy (count : BitVec 64) : BulkOp Unit := do
  let count := count.toNat
  guard (count ≤ (vmPtr - hostPtr) + (hostPtr - vmPtr))  -- `abs_diff`
  let prefixLen := min (alignOffset vmPtr CHUNK_SIZE) count
  copyBytes e op vmPtr hostPtr 0 prefixLen
  let midLen := (← uncheckedSub count prefixLen) / CHUNK_SIZE
  let midEnd ← uncheckedAdd prefixLen (← uncheckedMul midLen CHUNK_SIZE)
  guard (midEnd ≤ count)
  copyChunks e op vmPtr hostPtr midEnd prefixLen
  copyBytes e op vmPtr hostPtr midEnd (count - midEnd)

end

/-! ## What is copied -/

/-- The two ranges of `copy_nonoverlapping`'s contract. -/
def NonOverlapping (vmPtr hostPtr count : ℕ) : Prop :=
  vmPtr + count ≤ hostPtr ∨ hostPtr + count ≤ vmPtr

/-- The source of a copy. -/
def BulkByteChunkOp.src (op : BulkByteChunkOp) (vmPtr hostPtr : ℕ) : ℕ :=
  match op with
  | vmToHost => vmPtr
  | hostToVm => hostPtr

/-- The destination of a copy. -/
def BulkByteChunkOp.dst (op : BulkByteChunkOp) (vmPtr hostPtr : ℕ) : ℕ :=
  match op with
  | vmToHost => hostPtr
  | hostToVm => vmPtr

/-- Does the copy store to guest memory? -/
def BulkByteChunkOp.storesVm (op : BulkByteChunkOp) : Bool :=
  match op with
  | vmToHost => false
  | hostToVm => true

/-- The first `n` bytes are copied: the destination holds the bytes of the source, other
    bytes are as before, and each side was accessed once at each of its bytes, on the
    guest's side by aligned accesses. -/
structure Copied (op : BulkByteChunkOp) (vmPtr hostPtr : ℕ) (s : BulkState) (n : ℕ)
    (s' : BulkState) : Prop where
  mem : s'.mem = writeAt s.mem (op.dst vmPtr hostPtr) n fun i => s.mem (op.src vmPtr hostPtr + i)
  vm : ∃ parts, s'.accesses = s.accesses ++ parts ∧ Decomposes op.storesVm vmPtr n parts
  host : ∃ parts, s'.hostAccesses = s.hostAccesses ++ parts ∧ Covers (!op.storesVm) hostPtr n parts

theorem Covers.append {isStore : Bool} {ptr n n' : ℕ} {parts parts' : List MemoryAccess}
    (h : Covers isStore ptr n parts) (h' : Covers isStore (ptr + n) n' parts') :
    Covers isStore ptr (n + n') (parts ++ parts') where
  kind part hpart := (List.mem_append.1 hpart).elim (h.kind part) (h'.kind part)
  cover := by
    rw [List.flatMap_append, h.cover, h'.cover]
    exact List.range'_append_1

theorem Decomposes.append {isStore : Bool} {ptr n n' : ℕ} {parts parts' : List MemoryAccess}
    (h : Decomposes isStore ptr n parts) (h' : Decomposes isStore (ptr + n) n' parts') :
    Decomposes isStore ptr (n + n') (parts ++ parts') where
  toCovers := h.toCovers.append h'.toCovers
  aligned part hpart := (List.mem_append.1 hpart).elim (h.aligned part) (h'.aligned part)

/-- What covers a range lies inside it. -/
theorem Covers.inside {isStore : Bool} {ptr n : ℕ} {parts : List MemoryAccess}
    (h : Covers isStore ptr n parts) {part : MemoryAccess} (hpart : part ∈ parts) :
    ptr ≤ part.addr ∧ part.addr + part.width.bytes ≤ ptr + n := by
  have hin : ∀ a ∈ part.bytes, ptr ≤ a ∧ a < ptr + n := by
    intro a ha
    have hmem : a ∈ parts.flatMap MemoryAccess.bytes := List.mem_flatMap.2 ⟨part, hpart, ha⟩
    rw [h.cover] at hmem
    exact List.mem_range'_1.1 hmem
  have hpos := IntWidth.bytes_pos part.width
  have hfirst := hin part.addr (List.mem_range'_1.2 ⟨Nat.le_refl _, by omega⟩)
  have hlast := hin (part.addr + part.width.bytes - 1) (List.mem_range'_1.2 ⟨by omega, by omega⟩)
  exact ⟨hfirst.1, by omega⟩

theorem Copied.start (op : BulkByteChunkOp) (vmPtr hostPtr : ℕ) (s : BulkState) :
    Copied op vmPtr hostPtr s 0 s where
  mem := (writeAt_zero _ _ _).symm
  vm := ⟨[], (List.append_nil _).symm, { kind := by simp, cover := rfl, aligned := by simp }⟩
  host := ⟨[], (List.append_nil _).symm, { kind := by simp, cover := rfl }⟩

section

variable {op : BulkByteChunkOp} {vmPtr hostPtr count n : ℕ} {s s' : BulkState}

/-- The bytes still to be copied are as they were. -/
theorem Copied.source (h : Copied op vmPtr hostPtr s n s')
    (hranges : NonOverlapping vmPtr hostPtr count) {i : ℕ} (hn : n ≤ count) (hi : i < count) :
    s'.mem (op.src vmPtr hostPtr + i) = s.mem (op.src vmPtr hostPtr + i) := by
  rw [h.mem]
  apply if_neg
  unfold NonOverlapping at hranges
  cases op with
  | vmToHost =>
    show ¬(hostPtr ≤ vmPtr + i ∧ vmPtr + i < hostPtr + n)
    omega
  | hostToVm =>
    show ¬(vmPtr ≤ hostPtr + i ∧ hostPtr + i < vmPtr + n)
    omega

/-- The memory after one more part of the source is written. -/
theorem Copied.write (h : Copied op vmPtr hostPtr s n s') (e : Endian) {w : IntWidth}
    (hranges : NonOverlapping vmPtr hostPtr count) (hcount : n + w.bytes ≤ count) :
    writeAt s'.mem (op.dst vmPtr hostPtr + n) w.bytes
        (toNeBytes e (fromNeBytes e w fun i => s'.mem (op.src vmPtr hostPtr + n + i))) =
      writeAt s.mem (op.dst vmPtr hostPtr) (n + w.bytes) fun i =>
        s.mem (op.src vmPtr hostPtr + i) := by
  rw [h.mem]
  apply writeAt_writeAt
  · intro i _
    rfl
  · intro i hi
    rw [← h.mem, toNeBytes_fromNeBytes e _ hi, Nat.add_assoc]
    exact h.source hranges (by omega) (by omega)

/-- One part: a byte, or a chunk that is aligned on the guest's side. -/
theorem Copied.copyPart (h : Copied op vmPtr hostPtr s n s') (e : Endian) {w : IntWidth}
    (hranges : NonOverlapping vmPtr hostPtr count) (hcount : n + w.bytes ≤ count)
    (haligned : (vmPtr + n) % w.bytes = 0) :
    ∃ s'', op.copyPart e vmPtr hostPtr n w s' = some ((), s'') ∧
      Copied op vmPtr hostPtr s (n + w.bytes) s'' := by
  have hrun : op.copyPart e vmPtr hostPtr n w s' = some ((), {
      mem := writeAt s'.mem (op.dst vmPtr hostPtr + n) w.bytes
        (toNeBytes e (fromNeBytes e w fun i => s'.mem (op.src vmPtr hostPtr + n + i))),
      accesses := s'.accesses ++ [⟨op.storesVm, vmPtr + n, w⟩],
      hostAccesses := s'.hostAccesses ++ [⟨!op.storesVm, hostPtr + n, w⟩] }) := by
    cases op with
    | vmToHost =>
      have hload : onVm (loadNeAlignedInner e w (vmPtr + n)) s' = _ :=
        congrArg (Option.map _) (loadNeAlignedInner_run e haligned s'.toMemory)
      exact bind_run hload
    | hostToVm =>
      have hread : hostRead e w (hostPtr + n) s' = _ := rfl
      refine (bind_run hread).trans ?_
      exact congrArg (Option.map _) (storeNeAlignedInner_run e haligned _ s'.toMemory)
  obtain ⟨vmParts, hvm, hvmParts⟩ := h.vm
  obtain ⟨hostParts, hhost, hhostParts⟩ := h.host
  refine ⟨_, hrun, ⟨h.write e hranges hcount, ?_, ?_⟩⟩
  · refine ⟨_, ?_, hvmParts.append (decomposes_aligned op.storesVm haligned)⟩
    rw [hvm, List.append_assoc]
  · refine ⟨_, ?_, hhostParts.append (covers_one (!op.storesVm) (hostPtr + n) w)⟩
    rw [hhost, List.append_assoc]

end

/-! ## The loops -/

section

variable {op : BulkByteChunkOp} {vmPtr hostPtr count : ℕ} {s : BulkState} (e : Endian)
  (hranges : NonOverlapping vmPtr hostPtr count)

include hranges

/-- The byte loop goes on from the bytes already copied. -/
theorem copyBytes_run (k : ℕ) {n : ℕ} {s' : BulkState} (h : Copied op vmPtr hostPtr s n s')
    (hcount : n + k ≤ count) :
    ∃ s'', copyBytes e op vmPtr hostPtr n k s' = some ((), s'') ∧
      Copied op vmPtr hostPtr s (n + k) s'' := by
  induction k generalizing n s' with
  | zero => exact ⟨s', rfl, h⟩
  | succ k ih =>
    have hbyte : n + IntWidth.w8.bytes ≤ count := by
      show n + 1 ≤ count
      omega
    obtain ⟨s₁, hstep, hcopied⟩ := h.copyPart e hranges hbyte (Nat.mod_one _)
    obtain ⟨s₂, hrest, hcopied'⟩ := ih hcopied (by show n + 1 + k ≤ count; omega)
    have hsum : n + IntWidth.w8.bytes + k = n + (k + 1) := by
      show n + 1 + k = n + (k + 1)
      omega
    rw [hsum] at hcopied'
    exact ⟨s₂, (bind_run hstep).trans hrest, hcopied'⟩

/-- The chunk loop goes on from an aligned guest address, by whole chunks. -/
theorem copyChunks_run (k : ℕ) {n : ℕ} {s' : BulkState} (h : Copied op vmPtr hostPtr s n s')
    (haligned : (vmPtr + n) % CHUNK_SIZE = 0) (hcount : n + k * CHUNK_SIZE ≤ count)
    (husize : count < 2 ^ 64) :
    ∃ s'', copyChunks e op vmPtr hostPtr (n + k * CHUNK_SIZE) n s' = some ((), s'') ∧
      Copied op vmPtr hostPtr s (n + k * CHUNK_SIZE) s'' := by
  unfold CHUNK_SIZE at *
  induction k generalizing n s' with
  | zero =>
    refine ⟨s', ?_, h⟩
    rw [copyChunks, if_neg (by omega)]
    rfl
  | succ k ih =>
    have hchunk : n + IntWidth.w64.bytes ≤ count := by
      show n + 8 ≤ count
      omega
    obtain ⟨s₁, hstep, hcopied⟩ := h.copyPart e hranges hchunk haligned
    obtain ⟨s₂, hrest, hcopied'⟩ := ih hcopied (by show (vmPtr + (n + 8)) % 8 = 0; omega)
      (by show n + 8 + k * 8 ≤ count; omega)
    have hsum : n + IntWidth.w64.bytes + k * 8 = n + (k + 1) * 8 := by
      show n + 8 + k * 8 = n + (k + 1) * 8
      omega
    rw [hsum] at hcopied' hrest
    refine ⟨s₂, ?_, hcopied'⟩
    rw [copyChunks, if_pos (by omega), if_pos (by unfold CHUNK_SIZE; omega)]
    exact (bind_run hstep).trans hrest

end

/-- Up to an aligned address there are less than eight bytes. -/
theorem alignOffset_spec (ptr : ℕ) : (ptr + alignOffset ptr CHUNK_SIZE) % CHUNK_SIZE = 0 := by
  unfold alignOffset CHUNK_SIZE
  omega

/-! ## The whole copy -/

/-- The parts of `bulk_byte_chunk_copy`: either the range ends before the first aligned
    guest address, or the chunks begin at one. The unchecked arithmetic does not
    overflow. -/
theorem copy_split (vmPtr : ℕ) {count : ℕ} (husize : count < 2 ^ 64) :
    ∃ start k, min (alignOffset vmPtr CHUNK_SIZE) count = start ∧ start + k * CHUNK_SIZE ≤ count ∧
      (count - start) / CHUNK_SIZE = k ∧ uncheckedSub count start = some (count - start) ∧
      uncheckedMul k CHUNK_SIZE = some (k * CHUNK_SIZE) ∧
      uncheckedAdd start (k * CHUNK_SIZE) = some (start + k * CHUNK_SIZE) ∧
      (k = 0 ∨ (vmPtr + start) % CHUNK_SIZE = 0) := by
  have haligned := alignOffset_spec vmPtr
  have hle : min (alignOffset vmPtr CHUNK_SIZE) count ≤ count := Nat.min_le_right _ _
  have hshort : alignOffset vmPtr CHUNK_SIZE ≤ count ∨ min (alignOffset vmPtr CHUNK_SIZE) count =
      count := by omega
  have hk : (count - min (alignOffset vmPtr CHUNK_SIZE) count) / CHUNK_SIZE * CHUNK_SIZE ≤
      count - min (alignOffset vmPtr CHUNK_SIZE) count := Nat.div_mul_le_self _ _
  refine ⟨_, _, rfl, by omega, rfl, if_pos hle, if_pos (by omega), if_pos (by omega), ?_⟩
  rcases hshort with hreached | hends
  · right
    rw [Nat.min_eq_left hreached]
    exact haligned
  · left
    rw [hends, Nat.sub_self, Nat.zero_div]

/-- The copy of ranges that do not overlap succeeds, with every unchecked operation and
    condition in order. -/
theorem bulkByteChunkCopy_run (e : Endian) (op : BulkByteChunkOp) (vmPtr hostPtr : ℕ)
    (count : BitVec 64) (s : BulkState) (hranges : NonOverlapping vmPtr hostPtr count.toNat) :
    ∃ s', bulkByteChunkCopy e op vmPtr hostPtr count s = some ((), s') ∧
      Copied op vmPtr hostPtr s count.toNat s' := by
  obtain ⟨start, k, hstart, hend, hk, hsub, hmul, hadd, haligned⟩ := copy_split vmPtr count.isLt
  have hdiff : count.toNat ≤ (vmPtr - hostPtr) + (hostPtr - vmPtr) := by
    unfold NonOverlapping at hranges
    omega
  obtain ⟨s₁, hprefix, hcopied₁⟩ := copyBytes_run e hranges start (Copied.start op vmPtr hostPtr s)
    (by omega)
  rw [Nat.zero_add] at hcopied₁
  obtain ⟨s₂, hchunks, hcopied₂⟩ : ∃ s'',
      copyChunks e op vmPtr hostPtr (start + k * CHUNK_SIZE) start s₁ =
      some ((), s'') ∧ Copied op vmPtr hostPtr s (start + k * CHUNK_SIZE) s'' := by
    rcases haligned with hzero | haligned
    · refine ⟨s₁, ?_, ?_⟩
      · rw [hzero, copyChunks, if_neg (by omega)]
        rfl
      · rw [hzero, Nat.zero_mul]
        exact hcopied₁
    · exact copyChunks_run e hranges k hcopied₁ haligned hend count.isLt
  obtain ⟨s₃, hsuffix, hcopied₃⟩ :=
    copyBytes_run e hranges (count.toNat - (start + k * CHUNK_SIZE)) hcopied₂
    (by omega)
  rw [Nat.add_sub_cancel' hend] at hcopied₃
  refine ⟨s₃, ?_, hcopied₃⟩
  unfold bulkByteChunkCopy
  simp only [hstart]
  rw [bind_run (guard_run hdiff s), bind_run hprefix, bind_run (lift_run hsub s₁), hk,
    bind_run (lift_run hmul s₁),
    bind_run (lift_run hadd s₁), bind_run (guard_run hend s₁), bind_run hchunks]
  exact hsuffix

/-- A bulk copy of ranges that do not overlap is a copy byte by byte, in both directions:
    the destination holds the source's bytes and nothing else changes; guest memory is
    accessed by aligned accesses inside its range, and on either side every byte once. The
    memory is the one that `copy_byte` for every index leaves. -/
theorem bulk_copy_is_byte_copy (e : Endian) (op : BulkByteChunkOp) (vmPtr hostPtr : ℕ)
    (count : BitVec 64) (s : BulkState) (hranges : NonOverlapping vmPtr hostPtr count.toNat) :
    ∃ s' vmParts hostParts, bulkByteChunkCopy e op vmPtr hostPtr count s = some ((), s') ∧
      s'.mem = writeAt s.mem (op.dst vmPtr hostPtr) count.toNat (fun i =>
        s.mem (op.src vmPtr hostPtr + i)) ∧
      s'.accesses = s.accesses ++ vmParts ∧ Decomposes op.storesVm vmPtr count.toNat vmParts ∧
      (∀ part ∈ vmParts, vmPtr ≤ part.addr ∧ part.addr + part.width.bytes ≤ vmPtr + count.toNat) ∧
      s'.hostAccesses = s.hostAccesses ++ hostParts ∧
        Covers (!op.storesVm) hostPtr count.toNat hostParts ∧
      ∃ s'', copyBytes e op vmPtr hostPtr 0 count.toNat s = some ((), s'') ∧ s''.mem = s'.mem := by
  obtain ⟨s', hrun, hcopied⟩ := bulkByteChunkCopy_run e op vmPtr hostPtr count s hranges
  obtain ⟨vmParts, hvm, hvmParts⟩ := hcopied.vm
  obtain ⟨hostParts, hhost, hhostParts⟩ := hcopied.host
  obtain ⟨s'', hbytes, hcopied'⟩ :=
    copyBytes_run e hranges count.toNat (Copied.start op vmPtr hostPtr s) (by omega)
  rw [Nat.zero_add] at hcopied'
  exact ⟨s', vmParts, hostParts, hrun, hcopied.mem, hvm, hvmParts,
    fun _ hpart => hvmParts.inside hpart, hhost,
    hhostParts, s'', hbytes, hcopied'.mem.trans hcopied.mem.symm⟩

/-- Twenty bytes from an odd guest address: three bytes, two chunks and a byte. -/
theorem bulk_copy_of_twenty : ∃ s', bulkByteChunkCopy .little .vmToHost 5 100 20
      { mem := fun a => BitVec.ofNat 8 a, accesses := [], hostAccesses := [] } = some ((), s') ∧
    s'.mem 119 = 24 := by
  obtain ⟨s', _, _, hrun, hmem, -⟩ := bulk_copy_is_byte_copy .little .vmToHost 5 100 20
    { mem := fun a => BitVec.ofNat 8 a, accesses := [], hostAccesses := [] } (Or.inl (by decide))
  refine ⟨s', hrun, ?_⟩
  rw [hmem]
  rfl

end RapidArm.Memops
