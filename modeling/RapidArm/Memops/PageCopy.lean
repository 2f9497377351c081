import RapidArm.Memops.Scalar

/-!
# Copies of whole pages

`copy_page_shared_to_exclusive` and `copy_page_exclusive_to_shared`
(`io-mmu/src/page_table.rs`, lines 188–230): 512 words between a page of guest memory and
a scratch page of the caller, both in native-endian order. The scratch page is a map from
offsets to bytes.
-/

namespace RapidArm.Memops

open RapidArm.Ir RapidArm.Mmu

/-- `PagePointer`: the address of a page of guest memory, which is page-aligned. -/
structure PagePointer where
  addr : ℕ
  aligned : addr % PAGE_SIZE = 0

/-- `WORDS_IN_PAGE`. -/
def WORDS_IN_PAGE : ℕ := PAGE_SIZE / 8

section

variable (e : Endian) (shared : PagePointer)

/-- The loop of `copy_page_shared_to_exclusive`, from word `i` on. -/
def loadWords (i : ℕ) : ℕ → PageBytes → MemOp PageBytes
  | 0, exclusive => return exclusive
  | n + 1, exclusive => do
    let wordValue ← loadNeAlignedInner e .w64 (shared.addr + 8 * i)
    loadWords (i + 1) n (writeAt exclusive (8 * i) 8 (toNeBytes e wordValue))

/-- `copy_page_shared_to_exclusive`. -/
def copyPageSharedToExclusive (exclusive : PageBytes) : MemOp PageBytes :=
  loadWords e shared 0 WORDS_IN_PAGE exclusive

/-- The loop of `copy_page_exclusive_to_shared`, from word `i` on. -/
def storeWords (exclusive : PageBytes) (i : ℕ) : ℕ → MemOp Unit
  | 0 => return ()
  | n + 1 => do
    let wordValue := fromNeBytes e .w64 fun j => exclusive (8 * i + j)
    storeNeAlignedInner e (shared.addr + 8 * i) wordValue
    storeWords exclusive (i + 1) n

/-- `copy_page_exclusive_to_shared`. -/
def copyPageExclusiveToShared (exclusive : PageBytes) : MemOp Unit :=
  storeWords e shared exclusive 0 WORDS_IN_PAGE

end

section

variable (e : Endian) (shared : PagePointer)

theorem PagePointer.word_aligned (i : ℕ) : (shared.addr + 8 * i) % IntWidth.w64.bytes = 0 := by
  have haligned := shared.aligned
  show (shared.addr + 8 * i) % 8 = 0
  unfold PAGE_SIZE at haligned
  omega

/-- The words from `i` on are copied after the bytes before them. -/
theorem loadWords_run (n : ℕ) (i : ℕ) (exclusive : PageBytes) (m : Memory) :
    ∃ accesses, loadWords e shared i n (writeAt exclusive 0 (8 * i) fun j =>
      m.mem (shared.addr + j)) m =
      some (writeAt exclusive 0 (8 * (i + n)) fun j => m.mem (shared.addr + j),
        ⟨m.mem, accesses⟩) := by
  induction n generalizing i m with
  | zero => exact ⟨m.accesses, rfl⟩
  | succ n ih =>
    obtain ⟨accesses, hrest⟩ :=
      ih (i + 1) { m with accesses := m.accesses ++ [⟨false, shared.addr + 8 * i, .w64⟩] }
    refine ⟨accesses, ?_⟩
    have hword :
        writeAt (writeAt exclusive 0 (8 * i) fun j => m.mem (shared.addr + j)) (0 + 8 * i) 8
          (toNeBytes e (fromNeBytes e .w64 fun j => m.mem (shared.addr + 8 * i + j))) =
        writeAt exclusive 0 (8 * i + 8) fun j => m.mem (shared.addr + j) := by
      apply writeAt_writeAt
      · intro j _
        rfl
      · intro j hj
        rw [toNeBytes_fromNeBytes e _ hj, Nat.add_assoc]
    rw [Nat.zero_add] at hword
    have hsum : i + 1 + n = i + (n + 1) := by omega
    rw [hsum] at hrest
    refine (bind_run (loadNeAlignedInner_run e (shared.word_aligned i) m)).trans ?_
    rw [hword]
    exact hrest

/-- The scratch page holds the bytes of the guest's page. -/
theorem copyPageSharedToExclusive_run (exclusive : PageBytes) (m : Memory) :
    ∃ accesses, copyPageSharedToExclusive e shared exclusive m =
      some (writeAt exclusive 0 PAGE_SIZE fun j => m.mem (shared.addr + j), ⟨m.mem, accesses⟩) := by
  have hrun := loadWords_run e shared WORDS_IN_PAGE 0 exclusive m
  rw [writeAt_zero] at hrun
  exact hrun

theorem storeWords_run (exclusive : PageBytes) (n : ℕ) (i : ℕ) (mem : ℕ → BitVec 8)
    (accesses : List MemoryAccess) :
    ∃ accesses', storeWords e shared exclusive i n
      ⟨writeAt mem shared.addr (8 * i) exclusive, accesses⟩ =
      some ((), ⟨writeAt mem shared.addr (8 * (i + n)) exclusive, accesses'⟩) := by
  induction n generalizing i accesses with
  | zero => exact ⟨accesses, rfl⟩
  | succ n ih =>
    obtain ⟨accesses', hrest⟩ := ih (i + 1) (accesses ++ [⟨true, shared.addr + 8 * i, .w64⟩])
    refine ⟨accesses', ?_⟩
    have hword : writeAt (writeAt mem shared.addr (8 * i) exclusive) (shared.addr + 8 * i) 8
          (toNeBytes e (fromNeBytes e .w64 fun j => exclusive (8 * i + j))) =
        writeAt mem shared.addr (8 * i + 8) exclusive := by
      apply writeAt_writeAt
      · intro j _
        rfl
      · intro j hj
        exact toNeBytes_fromNeBytes e _ hj
    have hsum : i + 1 + n = i + (n + 1) := by omega
    rw [hsum] at hrest
    refine (bind_run (storeNeAlignedInner_run e (shared.word_aligned i) _ _)).trans ?_
    show storeWords e shared exclusive (i + 1) n
      ⟨writeAt (writeAt mem shared.addr (8 * i) exclusive) (shared.addr + 8 * i) 8 _, _⟩ = _
    rw [hword]
    exact hrest

/-- The guest's page holds the bytes of the scratch page, and no other byte changes. -/
theorem copyPageExclusiveToShared_run (exclusive : PageBytes) (m : Memory) :
    ∃ accesses, copyPageExclusiveToShared e shared exclusive m =
      some ((), ⟨writeAt m.mem shared.addr PAGE_SIZE exclusive, accesses⟩) := by
  have hrun := storeWords_run e shared exclusive WORDS_IN_PAGE 0 m.mem m.accesses
  rw [writeAt_zero] at hrun
  exact hrun

end

end RapidArm.Memops
