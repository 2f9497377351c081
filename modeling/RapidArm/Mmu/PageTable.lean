import RapidArm.Mmu.Memory
import RapidArm.Lib.Lists

/-!
# Page objects, page sources and page tables

The model of `io-mmu/src/page_table.rs`. What an `Arc` points to lives in a `Heap`
and is named by its index there: `MemoryBackedPage` (lines 64–69), `ObjectSlot`
(lines 274–278), and the bytes of host pages. Indices are never reused, so that
two handles are equal exactly when the `Arc`s are.

A `PageTable` carries the proof that its keys are distinct.

Results:
* `asPage_mono`: resolving an entry is stable while the heap only grows.
* `PageTable.get?_insert`, `get?_remove`, `get?_modify`, `get?_mapVals`: the table
  as a finite map.
-/

namespace RapidArm.Mmu

open RapidArm.Lib

/-! ## The heap -/

/-- `MemoryBackedPage`: its host page and its mutable flags. -/
structure MemoryBackedPage where
  allocatedPage : HostPage
  flags : BitVec 8
  deriving DecidableEq, Repr

/-- The identity of an `ObjectSlot`. -/
abbrev SlotId := ℕ

/-- `ObjectSlot`: the page once it is resident, its object and the page offset in
    the object. -/
structure ObjectSlot where
  page : Option PageId
  object : ℕ
  pageOffset : PageNumber
  deriving DecidableEq, Repr

/-- The contents of a page. -/
abbrev PageBytes := ℕ → BitVec 8

/-- What the page tables of one fabric point to. `zeroPage` is the fabric's
    `OnceCell`, `nextHost` the next page the allocator returns. -/
structure Heap where
  pages : List MemoryBackedPage
  slots : List ObjectSlot
  mem : HostPage → PageBytes
  zeroPage : Option PageId
  nextHost : ℕ

namespace Heap

/-- A heap without pages. -/
def empty : Heap :=
  { pages := [], slots := [], mem := fun _ _ => 0, zeroPage := none, nextHost := 0 }

/-- A new page object on a newly allocated host page with the given contents
    (`MemoryBackedPage::try_make_new`). -/
def allocPage (h : Heap) (bytes : PageBytes) : PageId × Heap :=
  (h.pages.length, { h with
    pages := h.pages ++ [⟨.alloc h.nextHost, 0⟩]
    mem := Function.update h.mem (.alloc h.nextHost) bytes
    nextHost := h.nextHost + 1 })

/-- `MemoryBackedPage::alloc_zeroed`. -/
def allocZeroed (h : Heap) : PageId × Heap := h.allocPage fun _ => 0

/-- `MemoryBackedPage::new_extern`: a page object on host memory of the caller. -/
def newExtern (h : Heap) (ptr : HostPage) : PageId × Heap :=
  (h.pages.length, { h with pages := h.pages ++ [⟨ptr, 0⟩] })

/-- `zero_page`: the fabric's zero page, allocated on first use. -/
def getZeroPage (h : Heap) : PageId × Heap :=
  match h.zeroPage with
  | some page => (page, h)
  | none =>
    let (page, h') := h.allocZeroed
    (page, { h' with zeroPage := some page })

/-- A new `ObjectSlot` that is not resident. -/
def newSlot (h : Heap) (object : ℕ) (pageOffset : PageNumber) : SlotId × Heap :=
  (h.slots.length, { h with slots := h.slots ++ [⟨none, object, pageOffset⟩] })

/-- The host page of a page object. -/
def hostOf (h : Heap) (page : PageId) : Option HostPage := h.pages[page]?.map (·.allocatedPage)

/-- The resident page of a slot. -/
def residentPage (h : Heap) (slot : SlotId) : Option PageId := h.slots[slot]?.bind (·.page)

/-- `Clone for MemoryBackedPage` (lines 245–272): a copy of the zero page is a zeroed
    page, a copy of any other page has its bytes. -/
def clonePage (h : Heap) (page : PageId) : PageId × Heap :=
  if h.zeroPage = some page then h.allocZeroed
  else
    match h.hostOf page with
    | some host => h.allocPage (h.mem host)
    | none => h.allocZeroed

/-- `fault_object` and the initialisation of the slot: the page of a slot that is not
    resident becomes a new page with the bytes the object provides. -/
def faultIn (h : Heap) (slot : SlotId) (bytes : PageBytes) : Heap :=
  match h.slots[slot]? with
  | some ⟨none, object, pageOffset⟩ =>
    let (page, h') := h.allocPage bytes
    { h' with slots := h'.slots.set slot ⟨some page, object, pageOffset⟩ }
  | _ => h

end Heap

/-! ## Sources and entries -/

/-- `PageSource` (lines 280–291). -/
inductive PageSource
  | shared (page : PageId)
  | priv (page : PageId) (writeProtected : Bool)
  | object (slot : SlotId) (shared : Bool)
  deriving DecidableEq, Repr

/-- `PageEntry` (lines 373–376). -/
structure PageEntry where
  source : PageSource
  protections : MemProt
  deriving DecidableEq, Repr

/-- The page object a source resolves to: none for a slot that is not resident. -/
def PageSource.page? (h : Heap) : PageSource → Option PageId
  | shared page | priv page _ => some page
  | object slot _ => h.residentPage slot

/-- The flags `as_page` computes for a source before it adds the protections. -/
def PageSource.flags (source : PageSource) (protections : MemProt) : MemFlags :=
  match source with
  | shared _ | priv _ false | object _ false => MemFlags.fromProt protections
  | priv _ true => MemFlags.COW ||| MemFlags.fromProt (protections &&& ~~~ MemProt.WRITE)
  | object _ true => MemFlags.OBJ_BACKED ||| MemFlags.fromProt protections

/-- `PageEntry::as_page` (lines 447–478). The last line of the source adds the
    protections to the flags of every kind of source. -/
def PageEntry.asPage (h : Heap) (entry : PageEntry) : Option Page := do
  let page ← entry.source.page? h
  let host ← h.hostOf page
  return {
    ptr := host
    flags := entry.source.flags entry.protections ||| MemFlags.fromProt entry.protections
    mutableFlags := page }

/-- `PageSource::fork` (lines 335–370): what the source becomes, its copy, and the
    heap with the slot of the copy. -/
def PageSource.fork (h : Heap) (source : PageSource) : PageSource × PageSource × Heap :=
  match source with
  | shared page => (shared page, shared page, h)
  | object slot true => (object slot true, object slot true, h)
  | priv page _ => (priv page true, priv page true, h)
  | object slot false =>
    match h.slots[slot]? with
    | some ⟨some page, _, _⟩ => (priv page true, priv page true, h)
    | some ⟨none, obj, pageOffset⟩ =>
      let (slot', h') := h.newSlot obj pageOffset
      (object slot false, object slot' false, h')
    | none => (object slot false, object slot false, h)

/-- `PageEntry::fork`. -/
def PageEntry.fork (h : Heap) (entry : PageEntry) : PageEntry × PageEntry × Heap :=
  let (self, copy, h') := entry.source.fork h
  ({ entry with source := self }, { entry with source := copy }, h')

/-! ## Tables -/

/-- `PageTable` (lines 695–697): entries under distinct page numbers. -/
structure PageTable where
  entries : List (PageNumber × PageEntry)
  nodup : (entries.map Prod.fst).Nodup

namespace PageTable

/-- `PageTable::new`. -/
def new : PageTable := ⟨[], List.nodup_nil⟩

/-- `HashMap::get`. -/
def get? (t : PageTable) (n : PageNumber) : Option PageEntry := t.entries.lookup n

/-- The mapped page numbers. -/
def keys (t : PageTable) : List PageNumber := t.entries.map Prod.fst

/-- `HashMap::contains_key`. -/
def containsKey (t : PageTable) (n : PageNumber) : Bool := n ∈ t.keys

/-- `PageTable::is_empty`. -/
def isEmpty (t : PageTable) : Bool := t.entries.isEmpty

/-- Inserting a page that is not mapped; the source aborts on a mapped one. -/
def insert (t : PageTable) (n : PageNumber) (entry : PageEntry) : PageTable :=
  if h : n ∈ t.entries.map Prod.fst then t
  else ⟨(n, entry) :: t.entries, List.nodup_cons.2 ⟨h, t.nodup⟩⟩

/-- `HashMap::remove`. -/
def remove (t : PageTable) (n : PageNumber) : PageTable where
  entries := t.entries.filter fun p => p.1 ≠ n
  nodup := t.nodup.sublist (List.Sublist.map _ List.filter_sublist)

/-- The entry of every page changed in place. -/
def mapVals (t : PageTable) (f : PageNumber → PageEntry → PageEntry) : PageTable where
  entries := t.entries.map fun p => (p.1, f p.1 p.2)
  nodup := by
    rw [List.map_map]
    exact t.nodup

/-- The entry of one page changed in place (`HashMap::get_mut`). -/
def modify (t : PageTable) (n : PageNumber) (f : PageEntry → PageEntry) : PageTable :=
  t.mapVals fun k entry => if k = n then f entry else entry

theorem get?_insert (t : PageTable) (n k : PageNumber) (entry : PageEntry) :
    (t.insert n entry).get? k =
      if n ∈ t.keys then t.get? k else if k = n then some entry else t.get? k := by
  unfold insert
  by_cases h : n ∈ t.entries.map Prod.fst
  · rw [dif_pos h, if_pos (show n ∈ t.keys from h)]
  · rw [dif_neg h, if_neg (show n ∉ t.keys from h)]
    exact lookup_cons_if (n, entry) t.entries k

theorem get?_remove (t : PageTable) (n k : PageNumber) :
    (t.remove n).get? k = if k = n then none else t.get? k :=
  lookup_filter_ne t.entries n k

theorem get?_mapVals (t : PageTable) (f : PageNumber → PageEntry → PageEntry) (k : PageNumber) :
    (t.mapVals f).get? k = (t.get? k).map (f k) :=
  lookup_map_snd t.entries f k

theorem get?_modify (t : PageTable) (n k : PageNumber) (f : PageEntry → PageEntry) :
    (t.modify n f).get? k = if k = n then (t.get? k).map f else t.get? k := by
  unfold modify
  rw [get?_mapVals]
  by_cases hk : k = n
  · simp [hk]
  · simp [hk]

/-- A table is determined by its entries. -/
theorem ext {t t' : PageTable} (h : t.entries = t'.entries) : t = t' := by
  cases t
  cases t'
  congr

theorem mem_entries_of_get? {t : PageTable} {n : PageNumber} {entry : PageEntry}
    (h : t.get? n = some entry) : (n, entry) ∈ t.entries :=
  mem_of_lookup h

theorem get?_of_mem_entries {t : PageTable} {n : PageNumber} {entry : PageEntry}
    (h : (n, entry) ∈ t.entries) : t.get? n = some entry :=
  lookup_of_mem t.nodup h

theorem mem_keys_iff {t : PageTable} {n : PageNumber} :
    n ∈ t.keys ↔ ∃ entry, t.get? n = some entry := by
  constructor
  · intro h
    obtain ⟨p, hp, rfl⟩ := List.mem_map.1 h
    exact ⟨p.2, get?_of_mem_entries hp⟩
  · rintro ⟨entry, h⟩
    exact List.mem_map.2 ⟨(n, entry), mem_entries_of_get? h, rfl⟩

/-- `PageTable::get_page` (lines 806–811). -/
def getPage (h : Heap) (t : PageTable) (n : PageNumber) : Except MemoryFault Page :=
  match (t.get? n).bind (·.asPage h) with
  | some page => .ok page
  | none => .error (.generalProtection n.vaddrBase)

/-- `PageTable::fork` (lines 828–836): every entry is forked in turn. -/
def forkEntries (h : Heap) : List (PageNumber × PageEntry) →
    List (PageNumber × PageEntry) × List (PageNumber × PageEntry) × Heap
  | [] => ([], [], h)
  | (n, entry) :: rest =>
    let (self, copy, h') := entry.fork h
    let (selves, copies, h'') := forkEntries h' rest
    ((n, self) :: selves, (n, copy) :: copies, h'')

theorem forkEntries_keys (h : Heap) (entries : List (PageNumber × PageEntry)) :
    (forkEntries h entries).1.map Prod.fst = entries.map Prod.fst ∧
      (forkEntries h entries).2.1.map Prod.fst = entries.map Prod.fst := by
  induction entries generalizing h with
  | nil => exact ⟨rfl, rfl⟩
  | cons p entries ih =>
    simp only [forkEntries, List.map_cons]
    exact ⟨by rw [(ih _).1], by rw [(ih _).2]⟩

/-- The forked table, its copy and the heap after the fork. -/
def fork (h : Heap) (t : PageTable) : PageTable × PageTable × Heap :=
  (⟨(forkEntries h t.entries).1, by rw [(forkEntries_keys h t.entries).1]; exact t.nodup⟩,
    ⟨(forkEntries h t.entries).2.1, by rw [(forkEntries_keys h t.entries).2]; exact t.nodup⟩,
    (forkEntries h t.entries).2.2)

theorem fork_keys (h : Heap) (t : PageTable) :
    (t.fork h).1.keys = t.keys ∧ (t.fork h).2.1.keys = t.keys :=
  forkEntries_keys h t.entries

end PageTable

/-! ## Growing heaps -/

/-- Every page object keeps its host page, and resident slots stay resident. -/
structure Heap.Le (h h' : Heap) : Prop where
  host : ∀ {page host}, h.hostOf page = some host → h'.hostOf page = some host
  resident : ∀ {slot page}, h.residentPage slot = some page → h'.residentPage slot = some page

theorem Heap.Le.refl (h : Heap) : h.Le h := ⟨id, id⟩

theorem Heap.Le.trans {h₁ h₂ h₃ : Heap} (h₁₂ : h₁.Le h₂) (h₂₃ : h₂.Le h₃) : h₁.Le h₃ :=
  ⟨fun h => h₂₃.host (h₁₂.host h), fun h => h₂₃.resident (h₁₂.resident h)⟩

theorem Heap.exists_hostOf {h : Heap} {page : PageId} (hlt : page < h.pages.length) :
    ∃ host, h.hostOf page = some host := by
  refine ⟨(h.pages[page]).allocatedPage, ?_⟩
  unfold Heap.hostOf
  rw [List.getElem?_eq_getElem hlt]
  rfl

theorem Heap.Le.hostOf_eq {h h' : Heap} (hle : h.Le h') {page : PageId}
    (hlt : page < h.pages.length) :
    h'.hostOf page = h.hostOf page := by
  obtain ⟨host, hhost⟩ := Heap.exists_hostOf hlt
  rw [hhost, hle.host hhost]

/-- What an entry resolves to does not change while the heap grows. -/
theorem asPage_mono {h h' : Heap} (hle : h.Le h') {entry : PageEntry} {page : Page}
    (hp : entry.asPage h = some page) : entry.asPage h' = some page := by
  simp only [PageEntry.asPage, Option.bind_eq_bind, Option.bind_eq_some_iff, Option.pure_def,
    Option.some.injEq] at hp ⊢
  obtain ⟨id, hid, host, hhost, heq⟩ := hp
  refine ⟨id, ?_, host, hle.host hhost, heq⟩
  cases hs : entry.source with
  | shared p => rw [hs] at hid; exact hid
  | priv p wp => rw [hs] at hid; exact hid
  | object slot sh => rw [hs] at hid; exact hle.resident hid

theorem Heap.le_of_pages_append {h h' : Heap} {new : List MemoryBackedPage}
    (hp : h'.pages = h.pages ++ new) (hs : h'.slots = h.slots) : h.Le h' := by
  constructor
  · intro page host hh
    unfold hostOf at hh ⊢
    rw [Option.map_eq_some_iff] at hh
    obtain ⟨pg, hpg, rfl⟩ := hh
    have hlt : page < h.pages.length := getElem?_eq_some_lt hpg
    rw [hp, List.getElem?_append_left hlt, hpg]
    rfl
  · intro slot page hr
    unfold residentPage at hr ⊢
    rw [hs]
    exact hr

theorem Heap.le_allocPage (h : Heap) (bytes : PageBytes) : h.Le (h.allocPage bytes).2 :=
  le_of_pages_append rfl rfl

theorem Heap.le_newExtern (h : Heap) (ptr : HostPage) : h.Le (h.newExtern ptr).2 :=
  le_of_pages_append rfl rfl

theorem Heap.le_getZeroPage (h : Heap) : h.Le h.getZeroPage.2 := by
  unfold getZeroPage
  cases h.zeroPage with
  | some page => exact Heap.Le.refl h
  | none => exact le_of_pages_append rfl rfl

theorem Heap.le_clonePage (h : Heap) (page : PageId) : h.Le (h.clonePage page).2 := by
  unfold clonePage
  split_ifs
  · exact h.le_allocPage _
  · cases h.hostOf page with
    | some host => exact h.le_allocPage _
    | none => exact h.le_allocPage _

theorem Heap.le_newSlot (h : Heap) (object : ℕ) (pageOffset : PageNumber) :
    h.Le (h.newSlot object pageOffset).2 := by
  constructor
  · exact id
  · intro slot page hr
    unfold residentPage newSlot at *
    rw [Option.bind_eq_some_iff] at hr
    obtain ⟨sl, hsl, hpage⟩ := hr
    rw [List.getElem?_append_left (getElem?_eq_some_lt hsl), hsl]
    exact hpage

theorem Heap.le_faultIn (h : Heap) (slot : SlotId) (bytes : PageBytes) :
    h.Le (h.faultIn slot bytes) := by
  unfold faultIn
  split
  · rename_i object pageOffset hslot
    refine (h.le_allocPage bytes).trans ⟨id, ?_⟩
    intro s page hr
    have hne : s ≠ slot := by
      rintro rfl
      simp [residentPage, allocPage, hslot] at hr
    simpa [residentPage, List.getElem?_set_ne hne.symm] using hr
  · exact Heap.Le.refl h

end RapidArm.Mmu
