import RapidArm.Mmu.PageTable
import RapidArm.Ir.Types
import RapidArm.Lib.Keeps

/-!
# Guest memory accesses

The accesses of `io-mmu/src/lib.rs` (lines 418–1214) through a `LookupCache`
(`io-mmu/src/lookup_cache.rs`), the exclusive stores of
`jit-compiler-core/src/ir/ffi_support.rs` (lines 179–224) and the store the JIT
emits inline (`ir/mod.rs`, lines 2316–2539).

An access looks pages up, which may fill the TLB, and either fails or returns what
it read or, for a store, the list of its effects in the order it performs them:
bytes written and pages marked dirty. `Heap.apply` performs them.
-/

namespace RapidArm.Mmu

open RapidArm.Ir RapidArm.Lib

/-! ## Failures, caches and effects -/

/-- How an access ends without a result: a fault the caller sees, or an abort of the
    process. -/
inductive Failure
  | fault (f : MemoryFault)
  | abort
  deriving DecidableEq, Repr

/-- An access: the state is the lookup cache, a `Tlb` or (`none`) `NoCache`. -/
abbrev Access (α : Type) := Fallible (Option Tlb) Failure α

/-- `ensure!`: a general-protection fault at `vaddr` unless `c` holds. -/
def ensure (vaddr : BitVec 64) (c : Bool) : Access Unit :=
  if c then pure () else throw (.fault (.generalProtection vaddr))

/-- What a store does to memory: a byte stored through a resolved page, or the dirty
    flag of a page object set. -/
inductive Effect
  | write (page : Page) (offset : ℕ) (byte : BitVec 8)
  | markDirty (page : PageId)
  deriving DecidableEq, Repr

/-- One effect on the heap: `fetch_or` of the dirty flag, or one byte stored. -/
def Heap.applyOne (h : Heap) : Effect → Heap
  | .write page offset byte =>
    let bytes := Function.update (h.mem page.ptr) offset byte
    { h with mem := Function.update h.mem page.ptr bytes }
  | .markDirty page =>
    { h with pages := h.pages.modify page fun p => { p with flags := p.flags ||| IS_DIRTY_FLAG } }

/-- The effects in order. -/
def Heap.apply (h : Heap) (effects : List Effect) : Heap := effects.foldl Heap.applyOne h

/-- `Page::set_dirty`. -/
def Page.setDirty (page : Page) : List Effect :=
  if page.flags.containsAny MemFlags.MUST_DIRTY then [.markDirty page.mutableFlags] else []

/-- `IoMMU`: the identifier and the table; the fabric is the heap. -/
structure IoMMU where
  identifier : Token
  table : PageTable

/-! ## Lookups -/

section Accesses

variable (h : Heap) (mmu : IoMMU)

/-- `LookupCache::get_page`: from the table, or from the TLB with the table as
    fallback, whose answer fills the entry (`Tlb::lookup`). -/
def getPage (n : PageNumber) : Access Page := fun cache =>
  match cache with
  | none =>
    match mmu.table.getPage h n with
    | .ok page => (.ok page, none)
    | .error f => (.error (.fault f), none)
  | some tlb =>
    match tlb.hit n mmu.identifier with
    | some page => (.ok page, some tlb)
    | none =>
      match mmu.table.getPage h n with
      | .ok page => (.ok page, some (tlb.updateEntry n mmu.identifier page))
      | .error f => (.error (.fault f), some tlb)

/-- The verify pass of `LookupCacheExt::access`, over the pages in the given order. -/
def verifyPages (verify : Page → Bool) : List PageNumber → Access Unit
  | [] => pure ()
  | n :: rest => do
    let page ← getPage h mmu n
    ensure n.vaddrBase (verify page)
    verifyPages verify rest

/-- The lookup of the access pass: a fault there aborts. -/
def getPageOrAbort (n : PageNumber) : Access Page := fun cache =>
  match getPage h mmu n cache with
  | (.ok page, cache') => (.ok page, cache')
  | (.error _, cache') => (.error .abort, cache')

/-- The access pass, collecting what `access` yields for each page. -/
def accessPages {α : Type} (access : PageNumber → Page → List α) : List PageNumber → Access (List α)
  | [] => pure []
  | n :: rest => do
    let page ← getPageOrAbort h mmu n
    let later ← accessPages access rest
    return access n page ++ later

/-! ## Bulk accesses -/

/-- The part of page `n` that an access of `len` bytes at `vaddr` covers: the first
    offset in the page, how many bytes, and the index of the first one in the
    buffer (lines 498–518). -/
def pageChunk (vaddr : BitVec 64) (len : ℕ) (n : PageNumber) : ℕ × ℕ × ℕ :=
  let last := vaddr.toNat + len - 1
  let pageStart := if n = PageNumber.fromVaddr vaddr then pageOffset vaddr else 0
  let pageEnd := if n = last / PAGE_SIZE then last % PAGE_SIZE + 1 else PAGE_SIZE
  (pageStart, pageEnd - pageStart,
    (n - PageNumber.fromVaddr vaddr) * PAGE_SIZE + pageStart - pageOffset vaddr)

/-- The pages of a non-empty access, in ascending order. -/
def pagesOf (vaddr : BitVec 64) (len : ℕ) : List PageNumber :=
  let start := PageNumber.fromVaddr vaddr
  List.range' start ((vaddr.toNat + len - 1) / PAGE_SIZE - start + 1)

/-- `IoMMU::mem_access` (lines 433–530). `per_page_commit` runs after the bytes of
    the page were copied, so it is the end of what `access` yields. -/
def memAccess {α : Type} (vaddr : BitVec 64) (len : ℕ) (requiredProt : Option MemProt)
    (noCow : Bool) (access : PageNumber → Page → List α) : Access (List α) := do
  if len ≥ 2 ^ 64 then throw (.fault (.generalProtection (BitVec.allOnes 64)))
  else if len = 0 then return []
  else if vaddr.toNat + len > 2 ^ 64 then
    throw (.fault (.generalProtection (BitVec.allOnes 64)))
  else do
    let verify := fun page : Page =>
      !(noCow && page.flags.containsAny MemFlags.COW) &&
        match requiredProt with
        | some required => page.flags.containsAny (MemFlags.fromProt required)
        | none => true
    verifyPages h mmu verify (pagesOf vaddr len).reverse
    accessPages h mmu access (pagesOf vaddr len)

/-- `IoMMU::load`, and `load_force` without a required permission. -/
def load (vaddr : BitVec 64) (len : ℕ) (requiredProt : Option MemProt) :
    Access (List (BitVec 8)) :=
  memAccess h mmu vaddr len requiredProt false fun n page =>
    let (start, count, _) := pageChunk vaddr len n
    (List.range count).map fun i => h.mem page.ptr (start + i)

/-- The bytes of `data`, written to a page from `offset` on. -/
def writeBytes (page : Page) (offset : ℕ) (data : List (BitVec 8)) : List Effect :=
  data.zipIdx.map fun p => .write page (offset + p.2) p.1

/-- `IoMMU::inner_store_with_prot` (lines 650–673). -/
def innerStoreWithProt (vaddr : BitVec 64) (mem : List (BitVec 8)) (requiredProt : Option MemProt) :
    Access (List Effect) :=
  memAccess h mmu vaddr mem.length requiredProt true fun n page =>
    let (start, count, index) := pageChunk vaddr mem.length n
    writeBytes page start ((mem.drop index).take count) ++ page.setDirty

/-- `IoMMU::store`. -/
def store (vaddr : BitVec 64) (mem : List (BitVec 8)) : Access (List Effect) :=
  innerStoreWithProt h mmu vaddr mem (some MemProt.WRITE)

/-- `IoMMU::store_force`. -/
def storeForce (vaddr : BitVec 64) (mem : List (BitVec 8)) : Access (List Effect) :=
  innerStoreWithProt h mmu vaddr mem none

/-! ## Scalar accesses -/

/-- The little-endian bytes of a value. -/
def toLeBytes {w : IntWidth} (value : BitVec w.bits) : List (BitVec 8) :=
  (List.range w.bytes).map fun i => value.extractLsb' (8 * i) 8

/-- The little-endian value of the bytes of a host page from `offset` on
    (`memops::loadN_le`). -/
def loadLeAt (w : IntWidth) (bytes : PageBytes) (offset : ℕ) : BitVec w.bits :=
  (List.range w.bytes).foldr
    (fun i acc => acc ||| ((bytes (offset + i)).setWidth w.bits <<< (8 * i))) 0

/-- `resolve_aligned_scalar_access` (lines 744–813). -/
def resolveAlignedScalarAccess (size : ℕ) (vaddr : BitVec 64) : Access (Page × ℕ) := do
  ensure vaddr (vaddr.toNat % size = 0)
  let page ← getPage h mmu (PageNumber.fromVaddr vaddr)
  return (page, pageOffset vaddr)

/-- `IoMMU::load_byte`. -/
def loadByte (vaddr : BitVec 64) : Access (BitVec 8) := do
  let (page, offset) ← resolveAlignedScalarAccess h mmu 1 vaddr
  ensure vaddr (page.flags.containsAny MemFlags.READ)
  return h.mem page.ptr offset

/-- `IoMMU::store_byte` (lines 863–874). -/
def storeByte (vaddr : BitVec 64) (value : BitVec 8) : Access (List Effect) := do
  let (page, offset) ← resolveAlignedScalarAccess h mmu 1 vaddr
  ensure vaddr (page.flags.containsAny MemFlags.WRITE)
  return .write page offset value :: page.setDirty

/-- `SmallAccess`: the first page and, if the access crosses into it, the second one
    with the number of bytes on it. -/
structure SmallAccess where
  basePage : Page
  basePageOffset : ℕ
  secondPage : Option (Page × ℕ)

/-- `static_small_multibyte_access` (lines 891–928). -/
def staticSmallMultibyteAccess (bytes : ℕ) (vaddr : BitVec 64) : Access SmallAccess := do
  let basePageNum := PageNumber.fromVaddr vaddr
  let basePage ← getPage h mmu basePageNum
  let bytesLeft := PAGE_SIZE - pageOffset vaddr
  if bytes > bytesLeft then
    match basePageNum.inc with
    | none => throw (.fault (.generalProtection (BitVec.allOnes 64)))
    | some secondPageNum => do
      let page ← getPage h mmu secondPageNum
      return ⟨basePage, pageOffset vaddr, some (page, bytes - bytesLeft)⟩
  else return ⟨basePage, pageOffset vaddr, none⟩

/-- `vaddr.checked_next_multiple_of(PAGE_SIZE)`, for an access that crosses. -/
def nextPageVaddr (vaddr : BitVec 64) : BitVec 64 :=
  BitVec.ofNat 64 ((PageNumber.fromVaddr vaddr + 1) * PAGE_SIZE)

/-- `IoMMU::load16_le`, `load32_le` and `load64_le`: a crossing load combines the last
    word of the first page with the first word of the second one. -/
def loadLe (w : IntWidth) (vaddr : BitVec 64) : Access (BitVec w.bits) := do
  let access ← staticSmallMultibyteAccess h mmu w.bytes vaddr
  match access.secondPage with
  | none => do
    ensure vaddr (access.basePage.flags.containsAny MemFlags.READ)
    return loadLeAt w (h.mem access.basePage.ptr) access.basePageOffset
  | some (second, overflow) => do
    ensure vaddr (access.basePage.flags.containsAny MemFlags.READ)
    ensure (nextPageVaddr vaddr) (second.flags.containsAny MemFlags.READ)
    let hi := loadLeAt w (h.mem second.ptr) 0
    let lo := loadLeAt w (h.mem access.basePage.ptr) (PAGE_SIZE - w.bytes)
    return hi <<< (w.bits - overflow * 8) ||| lo >>> (overflow * 8)

/-- The byte stores of a crossing scalar store (lines 1162–1186): from the last byte
    down, first those on the second page, then those on the first. -/
def crossingWrites (lo hi : Page) (overflow : ℕ) (bytes : List (BitVec 8)) : List Effect :=
  (writeBytes hi 0 (bytes.drop (bytes.length - overflow))).reverse ++
    (writeBytes lo (PAGE_SIZE - (bytes.length - overflow))
      (bytes.take (bytes.length - overflow))).reverse

/-- `IoMMU::store16_le`, `store32_le` and `store64_le` (lines 1112–1194). -/
def storeLe {w : IntWidth} (vaddr : BitVec 64) (value : BitVec w.bits) : Access (List Effect) := do
  let access ← staticSmallMultibyteAccess h mmu w.bytes vaddr
  match access.secondPage with
  | none => do
    ensure vaddr (access.basePage.flags.containsAny MemFlags.WRITE)
    return writeBytes access.basePage access.basePageOffset (toLeBytes value) ++
      access.basePage.setDirty
  | some (second, overflow) => do
    ensure vaddr (access.basePage.flags.containsAny MemFlags.WRITE)
    ensure (nextPageVaddr vaddr) (second.flags.containsAny MemFlags.WRITE)
    return crossingWrites access.basePage second overflow (toLeBytes value) ++
      (access.basePage.setDirty ++ second.setDirty)

/-- The scalar load of a width. -/
def scalarLoad (w : IntWidth) (vaddr : BitVec 64) : Access (BitVec w.bits) :=
  match w with
  | .w8 => loadByte h mmu vaddr
  | w => loadLe h mmu w vaddr

/-- The scalar store of a width: `store_byte` or a multi-byte store. -/
def scalarStore {w : IntWidth} (vaddr : BitVec 64) (value : BitVec w.bits) :
    Access (List Effect) :=
  match w, value with
  | .w8, value => storeByte h mmu vaddr value
  | w, value => storeLe (w := w) h mmu vaddr value

/-- `IoMMU::fetch_aarch64`. -/
def fetchAarch64 (vaddr : BitVec 64) : Access (BitVec 32) := do
  let (page, offset) ← resolveAlignedScalarAccess h mmu 4 vaddr
  ensure vaddr (page.flags.containsAny MemFlags.EXECUTE)
  return loadLeAt .w32 (h.mem page.ptr) offset

/-! ## The inline store of the JIT -/

/-- The TLB probe that `vm_access` emits: the page number is the address shifted
    right with sign extension. -/
def inlineHit (tlb : Tlb) (vaddr : BitVec 64) : Option Page :=
  let pageNumber := vaddr.sshiftRight 12
  match tlb (pageNumber.toNat % TLB_SIZE) with
  | some entry =>
    if entry.ioMmuIdent = mmu.identifier ∧ entry.virtualPageNumber = pageNumber.toNat then
      some entry.page
    else none
  | none => none

/-- A store as `vm_access` emits it: on a hit of an aligned access the bytes are
    stored and the page is marked directly, else the host callback is called. -/
def inlineStore {w : IntWidth} (vaddr : BitVec 64) (value : BitVec w.bits) :
    Access (List Effect) := fun cache =>
  match cache.bind fun tlb => inlineHit mmu tlb vaddr with
  | some page =>
    if vaddr.toNat % w.bytes = 0 then
      if page.flags.containsAny MemFlags.WRITE then
        (.ok (writeBytes page (pageOffset vaddr) (toLeBytes value) ++ page.setDirty), cache)
      else (.error (.fault (.generalProtection vaddr)), cache)
    else scalarStore h mmu vaddr value cache
  | none => scalarStore h mmu vaddr value cache

/-! ## Exclusive stores -/

/-- `StrexStatus`, with the fault of the third case. -/
inductive StrexStatus
  | stored
  | failed
  deriving DecidableEq, Repr

/-- What `ldrex` left in the context: the width and the loaded value. -/
structure Reservation where
  width : IntWidth
  value : BitVec width.bits

/-- `strexb`, `strexh`, `strex` and `strexd`. `reservation` is what was taken from the
    context, and `intact` whether the monitor still holds it for the resolved
    address; then the value is stored if memory still has the loaded one. -/
def strex {w : IntWidth} (reservation : Option Reservation) (intact : Bool) (vaddr : BitVec 64)
    (value : BitVec w.bits) : Access (StrexStatus × List Effect) :=
  match reservation with
  | none => pure (.failed, [])
  | some r =>
    if r.width ≠ w then pure (.failed, [])
    else do
      let (page, offset) ← resolveAlignedScalarAccess h mmu w.bytes vaddr
      ensure vaddr (page.flags.containsAny MemFlags.WRITE)
      if intact ∧ (loadLeAt w (h.mem page.ptr) offset).toNat = r.value.toNat then
        return (.stored, writeBytes page offset (toLeBytes value))
      else return (.failed, [])

end Accesses

end RapidArm.Mmu
