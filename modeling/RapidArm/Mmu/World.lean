import RapidArm.Mmu.Access

/-!
# The MMUs of one fabric

A `World` is everything that the `IoMMU`s attached to one `CpuFabric` reach: the
heap of page objects, the MMUs and the TLBs that threads use with them. An `Op` is
one call on it, and a run is any sequence of calls, so that calls on different
MMUs and TLBs interleave freely.

A call that refreshes an identifier allocates a token at an address of the
environment's choice, which comes with the call: it differs from every live token
(`World.Live`), while the address of a token that was dropped may come back.

Mapping operations: `io-mmu/src/lib.rs`, lines 51–416 and 1310–1326, and
`io-mmu/src/page_table.rs`, lines 641–836.
-/

namespace RapidArm.Mmu

open RapidArm.Ir

/-! ## Ranges and regions -/

/-- `PageTableAccess::get_pages` (lines 58–76): the pages of a region, which must be
    page-aligned and must not wrap around; `none` if it is empty. -/
def getPages (base size : BitVec 64) : Except MemoryFault (Option (List PageNumber)) :=
  if base.toNat % PAGE_SIZE ≠ 0 then .error (.generalProtection base)
  else if size.toNat % PAGE_SIZE ≠ 0 then .error (.generalProtection base)
  else if base.toNat + size.toNat > 2 ^ 64 then .error (.generalProtection (BitVec.allOnes 64))
  else if size.toNat / PAGE_SIZE = 0 then .ok none
  else .ok (some (List.range' (PageNumber.fromVaddr base) (size.toNat / PAGE_SIZE)))

/-- `MemMapFlags`. -/
inductive MemMapFlags
  | priv
  | shared
  | cow
  deriving DecidableEq, Repr

/-- `MapRegion` (lines 683–693). An external region starts at the host page
    `basePtr`. -/
inductive MapRegion
  | object (shared : Bool) (object : ℕ)
  | external (flags : MemMapFlags) (basePtr : ℕ)
  | anon (flags : MemMapFlags)
  deriving DecidableEq, Repr

/-- The source of the page at `offset` in a new mapping (the `PageEntry::new_*`
    constructors). -/
def MapRegion.newSource (region : MapRegion) (h : Heap) (offset : ℕ) : PageSource × Heap :=
  match region with
  | object shared obj =>
    let (slot, h') := h.newSlot obj offset
    (.object slot shared, h')
  | external flags basePtr =>
    let (page, h') := h.newExtern (.external (basePtr + offset))
    match flags with
    | .priv => (.priv page false, h')
    | .cow => (.priv page true, h')
    | .shared => (.shared page, h')
  | anon .priv =>
    let (page, h') := h.allocZeroed
    (.priv page false, h')
  | anon .cow =>
    let (page, h') := h.getZeroPage
    (.priv page true, h')
  | anon .shared =>
    let (page, h') := h.allocZeroed
    (.shared page, h')

/-- The second loop of `PageTable::map_inner` (lines 722–762), over the pages left. -/
def mapPages (region : MapRegion) (prot : MemProt) (start : PageNumber) :
    List PageNumber → PageTable → Heap → PageTable × Heap
  | [], t, h => (t, h)
  | n :: rest, t, h =>
    let (source, h') := region.newSource h (n - start)
    mapPages region prot start rest (t.insert n ⟨source, prot⟩) h'

/-- `PageTable::map_inner`: a fault at the first page that is already mapped, else one
    new entry for each page. -/
def mapInner (region : MapRegion) (prot : MemProt) (pages : List PageNumber) (t : PageTable)
    (h : Heap) : Except MemoryFault (PageTable × Heap) :=
  match pages.find? fun n => t.containsKey n with
  | some n => .error (.generalProtection n.vaddrBase)
  | none => .ok (mapPages region prot (pages.headD 0) pages t h)

/-! ## Worlds -/

/-- Whether a source holds a reference to the page object `page` itself. -/
def PageSource.holds (page : PageId) : PageSource → Bool
  | .shared p | .priv p _ => p = page
  | .object _ _ => false

/-- Whether a source holds a slot whose resident page is `page`. -/
def PageSource.holdsSlotOf (h : Heap) (page : PageId) : PageSource → Bool
  | .shared _ | .priv _ _ => false
  | .object slot _ => h.residentPage slot = some page

/-- The state of one fabric. A dropped MMU or TLB leaves `none`. -/
structure World where
  heap : Heap
  mmus : List (Option IoMMU)
  tlbs : List (Option Tlb)

/-- A fabric without MMUs. -/
def World.init : World := { heap := .empty, mmus := [], tlbs := [] }

namespace World

variable (w : World)

/-- A live MMU. -/
def mmu? (m : ℕ) : Option IoMMU := w.mmus[m]?.join

/-- A live TLB. -/
def tlb? (t : ℕ) : Option Tlb := w.tlbs[t]?.join

/-- A token is live while an MMU or a TLB entry holds it. -/
def Live (token : Token) : Prop :=
  (∃ m mmu, w.mmu? m = some mmu ∧ mmu.identifier = token) ∨
    ∃ t tlb i entry, w.tlb? t = some tlb ∧ tlb i = some entry ∧ entry.ioMmuIdent = token

/-- The sources of all entries of all MMUs. -/
def sources : List PageSource :=
  w.mmus.flatMap fun mmu =>
    match mmu with
    | some mmu => mmu.table.entries.map fun p => p.2.source
    | none => []

/-- The strong count of a page object is one: one entry refers to it, no live slot and
    not the fabric, and no task of the object manager (`held`). -/
def isUnique (held : List PageId) (page : PageId) : Bool :=
  w.sources.countP (PageSource.holds page) = 1 ∧
    (∀ s ∈ w.sources, PageSource.holdsSlotOf w.heap page s = false) ∧
    w.heap.zeroPage ≠ some page ∧ page ∉ held

/-- The world with one MMU replaced. -/
def setMmu (m : ℕ) (mmu : IoMMU) : World := { w with mmus := w.mmus.set m (some mmu) }

/-! ## Mapping operations -/

/-- `IoMMU::modify_table_full`: a new identifier if the table was modified. -/
def modifyTable (m : ℕ) (mmu : IoMMU) (token : Token) (modified : Bool) (t : PageTable) (h : Heap) :
    World :=
  { w with heap := h }.setMmu m ⟨if modified then token else mmu.identifier, t⟩

/-- `IoMMU::map_region` (lines 180–198). -/
def mapRegion (token : Token) (m : ℕ) (base size : BitVec 64) (prot : MemProt)
    (region : MapRegion) : World :=
  match w.mmu? m, getPages base size with
  | some mmu, .ok (some pages) =>
    match mapInner region prot pages mmu.table w.heap with
    | .ok (t, h) => w.modifyTable m mmu token true t h
    | .error _ => w
  | _, _ => w

/-- `IoMMU::unmap`. -/
def unmap (token : Token) (m : ℕ) (start size : BitVec 64) : World :=
  match w.mmu? m, getPages start size with
  | some mmu, .ok (some pages) =>
    w.modifyTable m mmu token (pages.any fun n => mmu.table.containsKey n)
      (pages.foldl PageTable.remove mmu.table) w.heap
  | _, _ => w

/-- `PageTable::modify` with `PageEntry::protect`. -/
def protectPages (pages : List PageNumber) (prot : MemProt) (t : PageTable) : PageTable :=
  t.mapVals fun n entry => if n ∈ pages then { entry with protections := prot } else entry

/-- `IoMMU::protect`: nothing changes unless every page of the range is mapped. -/
def protect (token : Token) (m : ℕ) (start size : BitVec 64) (prot : MemProt) : World :=
  match w.mmu? m, getPages start size with
  | some mmu, .ok (some pages) =>
    if pages.all fun n => mmu.table.containsKey n then
      let modified := mmu.table.entries.any fun p => p.1 ∈ pages ∧ p.2.protections ≠ prot
      w.modifyTable m mmu token modified (protectPages pages prot mmu.table) w.heap
    else w
  | _, _ => w

/-- The identifier after a fork: the flag reported to `modify_table_full` is whether
    the new table is empty. -/
def forkIdent (token : Token) (mmu : IoMMU) : Token :=
  if (mmu.table.fork w.heap).2.1.isEmpty then token else mmu.identifier

/-- `IoMMU::fork` (lines 403–416). The new MMU gets a clone of the identifier. -/
def fork (token : Token) (m : ℕ) : World :=
  match w.mmu? m with
  | some mmu =>
    let (t, copy, h) := mmu.table.fork w.heap
    let w' := { w with heap := h }.setMmu m ⟨w.forkIdent token mmu, t⟩
    { w' with mmus := w'.mmus ++ [some ⟨w.forkIdent token mmu, copy⟩] }
  | none => w

/-- `PageEntry::un_cow` (lines 648–664) at one page: `Arc::make_mut` copies the page
    unless the entry holds the only reference. -/
def unCowAt (held : List PageId) (m : ℕ) (n : PageNumber) : World :=
  match w.mmu? m with
  | none => w
  | some mmu =>
    match mmu.table.get? n with
    | some ⟨.priv page true, _⟩ =>
      let (page', h') := if w.isUnique held page then (page, w.heap) else w.heap.clonePage page
      { w with heap := h' }.setMmu m { mmu with
        table := mmu.table.modify n fun entry => { entry with source := .priv page' false } }
    | _ => w

/-- Whether an entry is copy-on-write. -/
def isCow (entry : PageEntry) : Bool :=
  match entry.source with
  | .priv _ true => true
  | _ => false

/-- `IoMMU::copy_all_cow_pages` (lines 1315–1326). -/
def copyAllCowPages (token : Token) (m : ℕ) (held : List PageId) : World :=
  match w.mmu? m with
  | none => w
  | some mmu =>
    let w' := mmu.table.keys.foldl (fun w n => w.unCowAt held m n) w
    match w'.mmu? m with
    | none => w'
    | some mmu' =>
      if mmu.table.entries.any fun p => isCow p.2 then
        w'.setMmu m { mmu' with identifier := token }
      else w'

/-- `IoMMU::refresh`, when no other thread interferes: the dirty flag of every
    resident page is cleared and no flush stays pending. -/
def refresh (m : ℕ) : World :=
  match w.mmu? m with
  | none => w
  | some mmu =>
    let clear := fun (h : Heap) (p : PageNumber × PageEntry) =>
      match p.2.source.page? h with
      | some page => { h with pages := h.pages.modify page fun pg =>
          { pg with flags := pg.flags &&& ~~~ (IS_DIRTY_FLAG ||| IS_FLUSHING_DIRTY_PAGE) } }
      | none => h
    { w with heap := mmu.table.entries.foldl clear w.heap }

/-! ## Accesses -/

/-- The lookup cache an access names: a TLB, or `NoCache`. -/
def cache (c : Option ℕ) : Option Tlb := c.bind w.tlb?

/-- The world after the cache of an access was updated. -/
def setCache (c : Option ℕ) (tlb : Option Tlb) : World :=
  match c, tlb with
  | some t, some tlb => { w with tlbs := w.tlbs.set t (some tlb) }
  | _, _ => w

/-- An access that only reads. -/
def runLoad {α : Type} (m : ℕ) (c : Option ℕ) (x : Heap → IoMMU → Access α) : World :=
  match w.mmu? m with
  | none => w
  | some mmu => w.setCache c ((x w.heap mmu).run.run (w.cache c)).2

/-- A store: its effects happen if it succeeds. -/
def runStore (m : ℕ) (c : Option ℕ) (x : Heap → IoMMU → Access (List Effect)) : World :=
  match w.mmu? m with
  | none => w
  | some mmu =>
    let r := (x w.heap mmu).run.run (w.cache c)
    let w' := w.setCache c r.2
    match r.1 with
    | .ok effects => { w' with heap := w'.heap.apply effects }
    | .error _ => w'

end World

/-! ## Calls and runs -/

/-- A store of the guest, with the bytes or the value it stores. -/
inductive StoreOp
  | store (vaddr : BitVec 64) (mem : List (BitVec 8))
  | storeForce (vaddr : BitVec 64) (mem : List (BitVec 8))
  | scalar (w : IntWidth) (vaddr : BitVec 64) (value : BitVec w.bits)
  | jitInline (w : IntWidth) (vaddr : BitVec 64) (value : BitVec w.bits)
  | strex (w : IntWidth) (reservation : Option Reservation) (intact : Bool) (vaddr : BitVec 64)
      (value : BitVec w.bits)

/-- The effects of a store. -/
def StoreOp.run (op : StoreOp) (h : Heap) (mmu : IoMMU) : Access (List Effect) :=
  match op with
  | .store vaddr mem => Mmu.store h mmu vaddr mem
  | .storeForce vaddr mem => Mmu.storeForce h mmu vaddr mem
  | .scalar _ vaddr value => scalarStore h mmu vaddr value
  | .jitInline _ vaddr value => inlineStore h mmu vaddr value
  | .strex _ reservation intact vaddr value => do
    let (_, effects) ← Mmu.strex h mmu reservation intact vaddr value
    return effects

/-- One call. `m` names an MMU and `c` the lookup cache it is used with. -/
inductive Op
  | newMmu
  | newTlb
  | dropMmu (m : ℕ)
  | dropTlb (t : ℕ)
  | map (m : ℕ) (base size : BitVec 64) (lazy shared : Bool) (prot : MemProt)
  | mapExtern (m : ℕ) (base size : BitVec 64) (ptr : ℕ) (readonly shared : Bool) (prot : MemProt)
  | mapDevice (m : ℕ) (base size : BitVec 64) (device : ℕ) (shared : Bool) (prot : MemProt)
  | unmap (m : ℕ) (start size : BitVec 64)
  | protect (m : ℕ) (start size : BitVec 64) (prot : MemProt)
  | fork (m : ℕ)
  | copyAllCowPages (m : ℕ) (held : List PageId)
  | faultIn (slot : SlotId) (bytes : PageBytes)
  | refresh (m : ℕ)
  | lookup (m : ℕ) (c : Option ℕ) (n : PageNumber)
  | load (m : ℕ) (c : Option ℕ) (vaddr : BitVec 64) (len : ℕ) (force : Bool)
  | scalarLoad (m : ℕ) (c : Option ℕ) (w : IntWidth) (vaddr : BitVec 64)
  | store (m : ℕ) (c : Option ℕ) (op : StoreOp)

/-- The region `IoMMU::map` maps (lines 285–289). -/
def anonRegion (lazy shared : Bool) : MapRegion :=
  match lazy, shared with
  | _, true => .anon .shared
  | false, false => .anon .priv
  | true, false => .anon .cow

/-- The flags of the region `IoMMU::map_extern` maps; both set is a panic. -/
def externFlags (readonly shared : Bool) : Option MemMapFlags :=
  match readonly, shared with
  | false, false => some .priv
  | true, false => some .cow
  | false, true => some .shared
  | true, true => none

/-- The world after a call, in which a new identifier would be `token`. -/
def World.step (w : World) (op : Op) (token : Token) : World :=
  match op with
  | .newMmu => { w with mmus := w.mmus ++ [some ⟨token, .new⟩] }
  | .newTlb => { w with tlbs := w.tlbs ++ [some Tlb.new] }
  | .dropMmu m => { w with mmus := w.mmus.set m none }
  | .dropTlb t => { w with tlbs := w.tlbs.set t none }
  | .map m base size lazy shared prot => w.mapRegion token m base size prot (anonRegion lazy shared)
  | .mapExtern m base size ptr readonly shared prot =>
    match externFlags readonly shared with
    | some flags => w.mapRegion token m base size prot (.external flags ptr)
    | none => w
  | .mapDevice m base size device shared prot =>
    w.mapRegion token m base size prot (.object shared device)
  | .unmap m start size => w.unmap token m start size
  | .protect m start size prot => w.protect token m start size prot
  | .fork m => w.fork token m
  | .copyAllCowPages m held => w.copyAllCowPages token m held
  | .faultIn slot bytes => { w with heap := w.heap.faultIn slot bytes }
  | .refresh m => w.refresh m
  | .lookup m c n => w.runLoad m c fun h mmu => getPage h mmu n
  | .load m c vaddr len force =>
    w.runLoad m c fun h mmu => Mmu.load h mmu vaddr len (if force then none else some MemProt.READ)
  | .scalarLoad m c width vaddr => w.runLoad m c fun h mmu => Mmu.scalarLoad h mmu width vaddr
  | .store m c op => w.runStore m c op.run

/-- The world after a sequence of calls. -/
def World.run (w : World) (calls : List (Op × Token)) : World :=
  calls.foldl (fun w call => w.step call.1 call.2) w

end RapidArm.Mmu
