import Mathlib.Data.List.Basic
import Mathlib.Data.BitVec
import Mathlib.Logic.Function.Basic

/-!
# Pages, flags and the TLB

The data types of `emu-abi/src/memory.rs`: permissions and page flags, page
numbers, resolved pages, identifier tokens and the direct-mapped `Tlb`; and the
memory faults of `io-mmu/src/fault.rs`.

The constructors of `MemProt` and `MemFlags` are private, so that only their three
and five bits occur; they are bit vectors of these lengths. A pointer to a
page-sized region of host memory (`PagePointer`) is a `HostPage`, an allocated one
or one handed in by the caller of `map_extern`; a pointer to the mutable flags of
a page is the identity of the page object that holds them.
-/

namespace RapidArm.Mmu

/-! ## Permissions and flags -/

/-- `MemProt` (lines 86–152). -/
abbrev MemProt := BitVec 3

def MemProt.READ : MemProt := 0b001
def MemProt.WRITE : MemProt := 0b010
def MemProt.EXECUTE : MemProt := 0b100

/-- `MemFlags` (lines 154–235). -/
abbrev MemFlags := BitVec 5

/-- `MemFlags::from_prot`. -/
def MemFlags.fromProt (prot : MemProt) : MemFlags := prot.setWidth 5

def MemFlags.READ : MemFlags := fromProt MemProt.READ
def MemFlags.WRITE : MemFlags := fromProt MemProt.WRITE
def MemFlags.EXECUTE : MemFlags := fromProt MemProt.EXECUTE
def MemFlags.OBJ_BACKED : MemFlags := 0b01000
def MemFlags.COW : MemFlags := 0b10000

/-- The flags whose pages must be marked dirty when they are written. -/
def MemFlags.MUST_DIRTY : MemFlags := EXECUTE ||| OBJ_BACKED

/-- `MemFlags::contains_any`. -/
def MemFlags.containsAny (flags other : MemFlags) : Bool := flags &&& other != 0

/-! ## Addresses -/

/-- `PAGE_SIZE`. -/
def PAGE_SIZE : ℕ := 4096

theorem PAGE_SIZE_pos : 0 < PAGE_SIZE := by decide

/-- `PageNumber`: a virtual address without its in-page offset. -/
abbrev PageNumber := ℕ

/-- `PageNumber::from_vaddr`. -/
def PageNumber.fromVaddr (vaddr : BitVec 64) : PageNumber := vaddr.toNat / PAGE_SIZE

/-- The in-page offset of an address. -/
def pageOffset (vaddr : BitVec 64) : ℕ := vaddr.toNat % PAGE_SIZE

/-- `PageNumber::MAX`. -/
def PageNumber.MAX : PageNumber := fromVaddr (BitVec.allOnes 64)

/-- `PageNumber::inc`. -/
def PageNumber.inc (page : PageNumber) : Option PageNumber :=
  if page + 1 > MAX then none else some (page + 1)

/-- `PageNumber::vaddr_base`. -/
def PageNumber.vaddrBase (page : PageNumber) : BitVec 64 := BitVec.ofNat 64 (page * PAGE_SIZE)

theorem pageOffset_lt (vaddr : BitVec 64) : pageOffset vaddr < PAGE_SIZE :=
  Nat.mod_lt _ PAGE_SIZE_pos

/-! ## Faults -/

/-- `MemoryFaultReason`. -/
inductive MemoryFaultReason
  | generalProtection
  | memoryBus
  deriving DecidableEq, Repr

/-- `MemoryFault`. -/
structure MemoryFault where
  vaddr : BitVec 64
  reason : MemoryFaultReason
  deriving DecidableEq, Repr

/-- `MemoryFault::general_protection`. -/
def MemoryFault.generalProtection (vaddr : BitVec 64) : MemoryFault := ⟨vaddr, .generalProtection⟩

/-! ## Resolved pages -/

/-- A page-aligned, page-sized region of host memory. -/
inductive HostPage
  | alloc (n : ℕ)
  | external (n : ℕ)
  deriving DecidableEq, Repr

/-- The identity of a `MemoryBackedPage`. -/
abbrev PageId := ℕ

/-- `Page` (lines 319–344): the host page and its flags, as `TaggedPagePtr` packs
    them, and where the mutable flags are. -/
structure Page where
  ptr : HostPage
  flags : MemFlags
  mutableFlags : PageId
  deriving DecidableEq, Repr

/-- `Page::IS_DIRTY_FLAG`. -/
def IS_DIRTY_FLAG : BitVec 8 := 0b01

/-- `Page::IS_FLUSHING_DIRTY_PAGE`. -/
def IS_FLUSHING_DIRTY_PAGE : BitVec 8 := 0b10

/-! ## The TLB -/

/-- The address of an `IoMMUIdentifier` token. -/
abbrev Token := ℕ

/-- A filled `TlbEntry` (lines 586–633). A zeroed entry holds no identifier and
    matches none. -/
structure TlbEntry where
  ioMmuIdent : Token
  virtualPageNumber : PageNumber
  page : Page
  deriving DecidableEq, Repr

/-- `TLB_SIZE`. -/
def TLB_SIZE : ℕ := 1024

/-- `Tlb` (lines 647–727): the entries by index, `none` where still zeroed. -/
abbrev Tlb := ℕ → Option TlbEntry

/-- `Tlb::new`. -/
def Tlb.new : Tlb := fun _ => none

/-- The entry slot of a page number (`Tlb::entry`). -/
def Tlb.index (page : PageNumber) : ℕ := page % TLB_SIZE

/-- The page of a hit: the entry holds this identifier and this page number. -/
def Tlb.hit (tlb : Tlb) (page : PageNumber) (ident : Token) : Option Page :=
  match tlb (Tlb.index page) with
  | some entry =>
    if entry.ioMmuIdent = ident ∧ entry.virtualPageNumber = page then some entry.page else none
  | none => none

/-- `TlbEntry::update_entry` at the slot of `page`. -/
def Tlb.updateEntry (tlb : Tlb) (page : PageNumber) (ident : Token) (resolved : Page) : Tlb :=
  Function.update tlb (Tlb.index page) (some ⟨ident, page, resolved⟩)

/-- A hit comes from an entry of the TLB. -/
theorem Tlb.hit_eq_some {tlb : Tlb} {page : PageNumber} {ident : Token} {resolved : Page}
    (h : tlb.hit page ident = some resolved) :
    tlb (Tlb.index page) = some ⟨ident, page, resolved⟩ := by
  unfold Tlb.hit at h
  split at h
  · rename_i entry hentry
    split_ifs at h with hmatch
    obtain ⟨rfl, rfl⟩ := hmatch
    obtain rfl := Option.some.inj h
    exact hentry
  · cases h

end RapidArm.Mmu
