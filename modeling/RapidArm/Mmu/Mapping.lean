import RapidArm.Mmu.Runs

/-!
# Mapping operations

`IoMMU::map`, `map_extern`, `map_device`, `unmap` and `protect` (`io-mmu/src/lib.rs`, lines
57–91, 138–198 and 228–394) with their results. Here a table operation
(`io-mmu/src/page_table.rs`, lines 710–804) is a computation over the table and the heap
that keeps what it did when it fails, so that a failure in the middle of a loop would
leave part of the range changed, and `modify_table_full` keeps or replaces the identifier
by what the operation reports.

A `World` performs the same operations and drops their results.

Results:
* `mapping_atomic`: an operation succeeds if and only if its range is aligned, does not
  wrap around and holds the pages it should; if it fails nothing changes; if it succeeds
  exactly the entries of the range are changed, as they should be; and the identifier
  changes if and only if some entry does.
* `World.mapRegion_eq`, `World.unmap_eq`, `World.protect_eq`: the calls of a world are these
  operations.
-/

namespace RapidArm.Mmu

open RapidArm.Lib

/-! ## Table operations -/

/-- How a mapping operation fails: a fault, an abort of the process or a panic. -/
inductive MapFailure
  | fault (f : MemoryFault)
  | abort
  | panic
  deriving DecidableEq, Repr

/-- An operation on a table, with the heap it allocates on. -/
abbrev TableOp (α : Type) := Fallible (PageTable × Heap) MapFailure α

namespace TableOp

/-- The check loop of `map_inner` and `modify`: a fault at the first page that does not
    pass. -/
def ensurePages (c : PageTable → PageNumber → Bool) : List PageNumber → TableOp Unit
  | [] => pure ()
  | n :: rest => do
    let s ← get
    if c s.1 n then ensurePages c rest else throw (.fault (.generalProtection n.vaddrBase))

/-- The second loop of `map_inner`, over the pages left: an abort if `insert` finds an old
    page. -/
def insertPages (region : MapRegion) (prot : MemProt) (start : PageNumber) :
    List PageNumber → TableOp Unit
  | [] => pure ()
  | n :: rest => do
    let s ← get
    let mapped := region.newSource s.2 (n - start)
    set (s.1.insert n ⟨mapped.1, prot⟩, mapped.2)
    if s.1.containsKey n then throw .abort else insertPages region prot start rest

/-- `PageTable::map_inner` (lines 710–765). -/
def mapInner (region : MapRegion) (prot : MemProt) (pages : List PageNumber) : TableOp Unit := do
  ensurePages (fun t n => !t.containsKey n) pages
  insertPages region prot (pages.headD 0) pages

/-- `PageTable::unmap` (lines 777–783), where `removed` changes what its closure
    captures. -/
def unmap {σ : Type} (removed : PageEntry → σ → σ) : List PageNumber → σ → TableOp σ
  | [], captured => pure captured
  | n :: rest, captured => do
    let s ← get
    set (s.1.remove n, s.2)
    match s.1.get? n with
    | some entry => unmap removed rest (removed entry captured)
    | none => unmap removed rest captured

/-- The second loop of `modify`: an abort if a page has no entry. -/
def modifyPages {σ : Type} (f : PageNumber → PageEntry → σ → PageEntry × σ) :
    List PageNumber → σ → TableOp σ
  | [], captured => pure captured
  | n :: rest, captured => do
    let s ← get
    match s.1.get? n with
    | some entry => do
      set (s.1.modify n fun _ => (f n entry captured).1, s.2)
      modifyPages f rest (f n entry captured).2
    | none => throw .abort

/-- `PageTable::modify` (lines 785–804). -/
def modify {σ : Type} (f : PageNumber → PageEntry → σ → PageEntry × σ) (pages : List PageNumber)
    (captured : σ) : TableOp σ := do
  ensurePages PageTable.containsKey pages
  modifyPages f pages captured

end TableOp

/-! ## Operations of an MMU -/

namespace IoMMU

/-- An MMU operation ends with a result, the MMU and the heap. -/
abbrev Outcome (α : Type) := Except MapFailure α × IoMMU × Heap

/-- `IoMMU::modify_table` (lines 138–177): the guard that changes the identifier is dropped
    if the table was modified, and forgotten if not or on an error. -/
def modifyTable (mmu : IoMMU) (h : Heap) (token : Token) (transform : TableOp Bool) :
    Outcome Unit :=
  match transform.run.run (mmu.table, h) with
  | (.ok true, t, h') => (.ok (), ⟨token, t⟩, h')
  | (.ok false, t, h') => (.ok (), ⟨mmu.identifier, t⟩, h')
  | (.error e, t, h') => (.error e, ⟨mmu.identifier, t⟩, h')

/-- The operations take the pages of a range, and do nothing for an empty one. -/
def onPages (mmu : IoMMU) (h : Heap) (token : Token) (base size : BitVec 64)
    (transform : List PageNumber → TableOp Bool) : Outcome Unit :=
  match getPages base size with
  | .error f => (.error (.fault f), mmu, h)
  | .ok none => (.ok (), mmu, h)
  | .ok (some pages) => mmu.modifyTable h token (transform pages)

/-- `IoMMU::map_region` (lines 180–198). -/
def mapRegion (mmu : IoMMU) (h : Heap) (token : Token) (base size : BitVec 64) (prot : MemProt)
    (region : MapRegion) : Outcome Unit :=
  mmu.onPages h token base size fun pages => do
    TableOp.mapInner region prot pages
    return true

/-- `IoMMU::map`. -/
def map (mmu : IoMMU) (h : Heap) (token : Token) (base size : BitVec 64) (lazy shared : Bool)
    (prot : MemProt) : Outcome Unit :=
  mmu.mapRegion h token base size prot (anonRegion lazy shared)

/-- `IoMMU::map_extern`: panics on a pointer that is not aligned or null, and on a shared
    readonly mapping. -/
def mapExtern (mmu : IoMMU) (h : Heap) (token : Token) (base size ptr : BitVec 64)
    (readonly shared : Bool) (prot : MemProt) : Outcome Unit :=
  if ptr.toNat % PAGE_SIZE ≠ 0 then (.error .panic, mmu, h)
  else if ptr = 0 then (.error .panic, mmu, h)
  else
    match externFlags readonly shared with
    | some flags => mmu.mapRegion h token base size prot (.external flags (ptr.toNat / PAGE_SIZE))
    | none => (.error .panic, mmu, h)

/-- `IoMMU::map_device`. -/
def mapDevice (mmu : IoMMU) (h : Heap) (token : Token) (base size : BitVec 64) (device : ℕ)
    (shared : Bool) (prot : MemProt) : Outcome Unit :=
  mmu.mapRegion h token base size prot (.object shared device)

/-- `IoMMU::unmap`. -/
def unmap (mmu : IoMMU) (h : Heap) (token : Token) (start size : BitVec 64) : Outcome Unit :=
  mmu.onPages h token start size fun pages => TableOp.unmap (fun _ _ => true) pages false

/-- `IoMMU::protect`. -/
def protect (mmu : IoMMU) (h : Heap) (token : Token) (start size : BitVec 64) (prot : MemProt) :
    Outcome Unit :=
  mmu.onPages h token start size fun pages =>
    TableOp.modify (fun _ entry modified =>
      ({ entry with protections := prot }, modified || entry.protections != prot)) pages false

end IoMMU

/-! ## The loops -/

namespace TableOp

variable {region : MapRegion} {prot : MemProt} {start : PageNumber} {t : PageTable} {h : Heap}

theorem run_get (s : PageTable × Heap) :
    (get : TableOp (PageTable × Heap)).run.run s = (.ok s, s) := rfl

theorem run_ensurePages_cons (c : PageTable → PageNumber → Bool) (n : PageNumber)
    (pages : List PageNumber) :
    (ensurePages c (n :: pages)).run.run (t, h) =
      if c t n then (ensurePages c pages).run.run (t, h)
      else (.error (.fault (.generalProtection n.vaddrBase)), t, h) := by
  rw [ensurePages, run_bind, run_get]
  by_cases hc : c t n = true
  · rw [if_pos hc]
    simp only [hc, if_pos]
  · rw [if_neg hc]
    simp only [hc]
    rfl

/-- The check passes if every page does. -/
theorem run_ensurePages {c : PageTable → PageNumber → Bool} {pages : List PageNumber}
    (hall : ∀ n ∈ pages, c t n = true) : (ensurePages c pages).run.run (t, h) = (.ok (), t, h) := by
  induction pages with
  | nil => rfl
  | cons n pages ih =>
    rw [run_ensurePages_cons, if_pos (hall n List.mem_cons_self)]
    exact ih fun k hk => hall k (List.mem_cons_of_mem _ hk)

/-- Else it faults, and has changed nothing. -/
theorem run_ensurePages_fault {c : PageTable → PageNumber → Bool} {pages : List PageNumber}
    (hnot : ¬ ∀ n ∈ pages, c t n = true) :
    ∃ f, (ensurePages c pages).run.run (t, h) = (.error (.fault f), t, h) := by
  induction pages with
  | nil => exact absurd (fun n hn => absurd hn List.not_mem_nil) hnot
  | cons n pages ih =>
    rw [run_ensurePages_cons]
    by_cases hc : c t n = true
    · rw [if_pos hc]
      refine ih fun hall => hnot fun k hk => ?_
      rcases List.mem_cons.1 hk with rfl | hk
      · exact hc
      · exact hall k hk
    · rw [if_neg hc]
      exact ⟨_, rfl⟩

/-- On pages that are not mapped the loop inserts them all. -/
theorem run_insertPages {pages : List PageNumber} (hnodup : pages.Nodup)
    (hnew : ∀ n ∈ pages, n ∉ t.keys) :
    (insertPages region prot start pages).run.run (t, h) =
      (.ok (), mapPages region prot start pages t h) := by
  induction pages generalizing t h with
  | nil => rfl
  | cons n pages ih =>
    obtain ⟨hn, hnodup⟩ := List.nodup_cons.1 hnodup
    have hkey : t.containsKey n = false := decide_eq_false (hnew n List.mem_cons_self)
    rw [insertPages, run_bind, run_get]
    simp only
    rw [run_bind]
    show ((if t.containsKey n = true then throw .abort else insertPages region prot start pages) :
      TableOp Unit).run.run _ = _
    rw [hkey, if_neg Bool.false_ne_true, ih hnodup]
    · rfl
    · intro k hk hmem
      rcases mapPages_keys region prot start [n] t h k hmem with hold | hold
      · exact hnew k (List.mem_cons_of_mem _ hk) hold
      · obtain rfl := List.mem_singleton.1 hold
        exact hn hk

theorem containsKey_eq (t : PageTable) (n : PageNumber) : t.containsKey n = (t.get? n).isSome := by
  rw [Bool.eq_iff_iff, Option.isSome_iff_exists]
  exact decide_eq_true_iff.trans PageTable.mem_keys_iff

/-- The loop removes all pages, and reports whether one of them was mapped. -/
theorem run_unmap (pages : List PageNumber) (modified : Bool) :
    (unmap (fun _ _ => true) pages modified).run.run (t, h) =
      (.ok (modified || pages.any fun n => t.containsKey n),
        pages.foldl PageTable.remove t, h) := by
  induction pages generalizing t modified with
  | nil =>
    rw [List.any_nil, Bool.or_false]
    rfl
  | cons n pages ih =>
    rw [unmap, run_bind, run_get]
    simp only
    rw [run_bind, List.any_cons, containsKey_eq t n]
    cases hget : t.get? n with
    | none =>
      -- nothing is removed
      have hremove : [n].foldl PageTable.remove t = t := by
        refine foldl_remove_eq fun k hk hmem => ?_
        obtain rfl := List.mem_singleton.1 hk
        obtain ⟨entry, hentry⟩ := PageTable.mem_keys_iff.1 hmem
        rw [hget] at hentry
        cases hentry
      change t.remove n = t at hremove
      refine (ih modified).trans ?_
      rw [List.foldl_cons, hremove, Option.isSome_none, Bool.false_or]
    | some entry =>
      refine (ih true).trans ?_
      rw [Option.isSome_some, Bool.true_or, Bool.true_or, Bool.or_true]
      rfl

/-- A page in range is protected, and the others are left alone. -/
def protectEntry (prot : MemProt) (entry : PageEntry) : PageEntry :=
  { entry with protections := prot }

/-- Whether protecting a page changes its entry. -/
def protectChanges (t : PageTable) (prot : MemProt) (n : PageNumber) : Bool :=
  (t.get? n).any fun entry => entry.protections != prot

theorem modify_keys (t : PageTable) (n : PageNumber) (f : PageEntry → PageEntry) :
    (t.modify n f).keys = t.keys :=
  mapVals_keys t _

/-- On mapped pages the loop protects them all, and reports whether one of them had other
    protections. -/
theorem run_protect {pages : List PageNumber} (hnodup : pages.Nodup)
    (hmapped : ∀ n ∈ pages, n ∈ t.keys) (modified : Bool) :
    (modifyPages (fun _ entry modified =>
        (protectEntry prot entry, modified || entry.protections != prot)) pages
          modified).run.run (t, h) =
      (.ok (modified || pages.any (protectChanges t prot)),
        World.protectPages pages prot t, h) := by
  induction pages generalizing t modified with
  | nil =>
    have heq : World.protectPages [] prot t = t :=
      protectPages_eq fun p _ hp => absurd hp List.not_mem_nil
    rw [List.any_nil, Bool.or_false, heq]
    rfl
  | cons n pages ih =>
    obtain ⟨hn, hnodup⟩ := List.nodup_cons.1 hnodup
    obtain ⟨entry, hget⟩ := PageTable.mem_keys_iff.1 (hmapped n List.mem_cons_self)
    rw [modifyPages, run_bind, run_get]
    simp only [hget]
    rw [run_bind]
    have hrest := @ih (t.modify n fun _ => protectEntry prot entry) hnodup
      (fun k hk => by
        rw [modify_keys]
        exact hmapped k (List.mem_cons_of_mem _ hk))
      (modified || entry.protections != prot)
    refine hrest.trans ?_
    have hany : pages.any (protectChanges (t.modify n fun _ => protectEntry prot entry) prot) =
        pages.any (protectChanges t prot) := by
      rw [Bool.eq_iff_iff, List.any_eq_true, List.any_eq_true]
      refine exists_congr fun k => and_congr_right fun hk => ?_
      unfold protectChanges
      rw [PageTable.get?_modify, if_neg fun heq : k = n => hn (heq ▸ hk)]
    have htable : World.protectPages pages prot (t.modify n fun _ => protectEntry prot entry) =
        World.protectPages (n :: pages) prot t := by
      apply PageTable.ext
      show (t.entries.map _).map _ = t.entries.map _
      rw [List.map_map]
      refine List.map_congr_left fun p hp => ?_
      by_cases hpn : p.1 = n
      · have hp2 : p.2 = entry := by
          have hgetp := PageTable.get?_of_mem_entries hp
          rw [hpn, hget] at hgetp
          exact (Option.some.inj hgetp).symm
        simp [hpn, hn, hp2, protectEntry]
      · simp [hpn, List.mem_cons]
    have hchange : protectChanges t prot n = (entry.protections != prot) := by
      unfold protectChanges
      rw [hget]
      rfl
    rw [hany, htable, List.any_cons, hchange, Bool.or_assoc]

end TableOp

/-! ## New mappings -/

/-- Page objects, slots and the zero page stay what they are. -/
structure Heap.Retains (h h' : Heap) : Prop where
  host : ∀ {page host}, h.hostOf page = some host → h'.hostOf page = some host
  slot : ∀ {i : ℕ} {slot : ObjectSlot}, h.slots[i]? = some slot → h'.slots[i]? = some slot
  zero : ∀ {page}, h.zeroPage = some page → h'.zeroPage = some page

theorem Heap.Retains.refl (h : Heap) : h.Retains h := ⟨id, id, id⟩

theorem Heap.Retains.trans {h₁ h₂ h₃ : Heap} (h₁₂ : h₁.Retains h₂) (h₂₃ : h₂.Retains h₃) :
    h₁.Retains h₃ :=
  ⟨fun h => h₂₃.host (h₁₂.host h), fun h => h₂₃.slot (h₁₂.slot h), fun h => h₂₃.zero (h₁₂.zero h)⟩

/-- The source of a page that is mapped with these flags. -/
def MemMapFlags.source (page : PageId) : MemMapFlags → PageSource
  | priv => .priv page false
  | cow => .priv page true
  | shared => .shared page

/-- A source for the page at offset `k` of a new mapping: an empty slot for page `k` of the
    object, a page object on the host page `k` pages after the pointer, or anonymous
    memory, which is the zero page if it is copy-on-write. -/
def MapRegion.Fits (region : MapRegion) (h : Heap) (k : ℕ) (source : PageSource) : Prop :=
  match region with
  | object shared obj => ∃ slot, source = .object slot shared ∧ h.slots[slot]? = some ⟨none, obj, k⟩
  | external flags basePtr =>
    ∃ page, source = flags.source page ∧ h.hostOf page = some (.external (basePtr + k))
  | anon .cow => ∃ page, source = MemMapFlags.cow.source page ∧ h.zeroPage = some page
  | anon flags => ∃ page i, source = flags.source page ∧ h.hostOf page = some (.alloc i)

theorem MapRegion.Fits.mono {region : MapRegion} {h h' : Heap} {k : ℕ} {source : PageSource}
    (hf : region.Fits h k source) (hg : h.Retains h') : region.Fits h' k source := by
  match region, hf with
  | object shared obj, ⟨slot, hs, hslot⟩ => exact ⟨slot, hs, hg.slot hslot⟩
  | external flags basePtr, ⟨page, hs, hhost⟩ => exact ⟨page, hs, hg.host hhost⟩
  | anon .cow, ⟨page, hs, hzero⟩ => exact ⟨page, hs, hg.zero hzero⟩
  | anon .priv, ⟨page, i, hs, hhost⟩ => exact ⟨page, i, hs, hg.host hhost⟩
  | anon .shared, ⟨page, i, hs, hhost⟩ => exact ⟨page, i, hs, hg.host hhost⟩

theorem Heap.extends_newPage {h h' : Heap} {host : HostPage} {flags : BitVec 8}
    (hpages : h'.pages = h.pages ++ [⟨host, flags⟩]) (hslots : h'.slots = h.slots)
    (hzero : ∀ {page}, h.zeroPage = some page → h'.zeroPage = some page) :
    h.Retains h' ∧ h'.hostOf h.pages.length = some host := by
  refine ⟨⟨(Heap.le_of_pages_append hpages hslots).host, fun hs => by rwa [hslots], hzero⟩, ?_⟩
  unfold Heap.hostOf
  rw [hpages, List.getElem?_append_right (le_refl _), Nat.sub_self]
  rfl

/-- The new source fits, and nothing else changes. -/
theorem newSource_fits (region : MapRegion) (h : Heap) (k : ℕ) :
    region.Fits (region.newSource h k).2 k (region.newSource h k).1 ∧
      h.Retains (region.newSource h k).2 := by
  match region with
  | .object shared obj =>
    refine ⟨⟨h.slots.length, rfl, ?_⟩, id, fun {i slot} hs => ?_, id⟩
    · show (h.slots ++ [_])[h.slots.length]? = _
      rw [List.getElem?_append_right (le_refl _), Nat.sub_self]
      rfl
    · show (h.slots ++ [_])[i]? = some slot
      rw [List.getElem?_append_left (getElem?_eq_some_lt hs)]
      exact hs
  | .external flags basePtr =>
    obtain ⟨hg, hhost⟩ :=
      @Heap.extends_newPage h (h.newExtern (.external (basePtr + k))).2 _ _ rfl rfl id
    cases flags with
    | priv => exact ⟨⟨_, rfl, hhost⟩, hg⟩
    | shared => exact ⟨⟨_, rfl, hhost⟩, hg⟩
    | cow => exact ⟨⟨_, rfl, hhost⟩, hg⟩
  | .anon .priv =>
    obtain ⟨hg, hhost⟩ := @Heap.extends_newPage h h.allocZeroed.2 _ _ rfl rfl id
    exact ⟨⟨_, _, rfl, hhost⟩, hg⟩
  | .anon .shared =>
    obtain ⟨hg, hhost⟩ := @Heap.extends_newPage h h.allocZeroed.2 _ _ rfl rfl id
    exact ⟨⟨_, _, rfl, hhost⟩, hg⟩
  | .anon .cow =>
    simp only [MapRegion.newSource, Heap.getZeroPage]
    cases hz : h.zeroPage with
    | some page => exact ⟨⟨page, rfl, hz⟩, Heap.Retains.refl h⟩
    | none =>
      have hg := (@Heap.extends_newPage h
        { h.allocZeroed.2 with zeroPage := some h.allocZeroed.1 } _ _ rfl rfl
        (fun hp => by rw [hz] at hp; cases hp)).1
      exact ⟨⟨_, rfl, rfl⟩, hg⟩

theorem extends_mapPages (region : MapRegion) (prot : MemProt) (start : PageNumber)
    (pages : List PageNumber) (t : PageTable) (h : Heap) :
    h.Retains (mapPages region prot start pages t h).2 := by
  induction pages generalizing t h with
  | nil => exact Heap.Retains.refl h
  | cons n pages ih => exact (newSource_fits region h (n - start)).2.trans (ih _ _)

/-- The entries after mapping pages that were not mapped. -/
theorem get?_mapPages (region : MapRegion) (prot : MemProt) (start : PageNumber)
    {pages : List PageNumber} (hnodup : pages.Nodup) {t : PageTable}
    (hnew : ∀ n ∈ pages, n ∉ t.keys) (h : Heap) (k : PageNumber) :
    (k ∈ pages → ∃ source, (mapPages region prot start pages t h).1.get? k = some ⟨source, prot⟩ ∧
      region.Fits (mapPages region prot start pages t h).2 (k - start) source) ∧
    (k ∉ pages → (mapPages region prot start pages t h).1.get? k = t.get? k) := by
  induction pages generalizing t h with
  | nil => exact ⟨fun hk => absurd hk List.not_mem_nil, fun _ => rfl⟩
  | cons n pages ih =>
    obtain ⟨hn, hnodup⟩ := List.nodup_cons.1 hnodup
    obtain ⟨hfits, -⟩ := newSource_fits region h (n - start)
    have hinsert := PageTable.get?_insert t n k ⟨(region.newSource h (n - start)).1, prot⟩
    rw [if_neg (hnew n List.mem_cons_self)] at hinsert
    have hrest := ih hnodup (t := t.insert n ⟨(region.newSource h (n - start)).1, prot⟩)
      (fun j hj hmem => by
        rcases mapPages_keys region prot start [n] t h j hmem with hold | hold
        · exact hnew j (List.mem_cons_of_mem _ hj) hold
        · obtain rfl := List.mem_singleton.1 hold
          exact hn hj)
      (region.newSource h (n - start)).2
    by_cases hkn : k = n
    · subst hkn
      rw [if_pos rfl] at hinsert
      refine ⟨fun _ => ⟨_, (hrest.2 hn).trans hinsert, ?_⟩, fun hk => absurd List.mem_cons_self hk⟩
      exact hfits.mono (extends_mapPages region prot start pages
        (t.insert k ⟨(region.newSource h (k - start)).1, prot⟩) _)
    · rw [if_neg hkn] at hinsert
      refine ⟨fun hk => hrest.1 ((List.mem_cons.1 hk).resolve_left hkn), fun hk => ?_⟩
      exact (hrest.2 fun hmem => hk (List.mem_cons_of_mem _ hmem)).trans hinsert

/-! ## Ranges -/

/-- Page-aligned, and not past the end of the address space. -/
def ValidRange (base size : BitVec 64) : Prop :=
  base.toNat % PAGE_SIZE = 0 ∧ size.toNat % PAGE_SIZE = 0 ∧ base.toNat + size.toNat ≤ 2 ^ 64

/-- A page of `[base, base + size)`. -/
def InRange (base size : BitVec 64) (n : PageNumber) : Prop :=
  base.toNat ≤ n * PAGE_SIZE ∧ n * PAGE_SIZE < base.toNat + size.toNat

theorem mem_range_arith {base size n : ℕ} (hbase : base % 4096 = 0) (hsize : size % 4096 = 0) :
    (base / 4096 ≤ n ∧ n < base / 4096 + size / 4096) ↔
      (base ≤ n * 4096 ∧ n * 4096 < base + size) := by
  omega

/-- The three answers of `get_pages`. -/
theorem getPages_cases (base size : BitVec 64) :
    (¬ ValidRange base size ∧ ∃ f, getPages base size = .error f) ∨
    (ValidRange base size ∧ getPages base size = .ok none ∧ ∀ n, ¬ InRange base size n) ∨
    (ValidRange base size ∧ ∃ pages, getPages base size = .ok (some pages) ∧ pages ≠ [] ∧
      pages.Nodup ∧
      pages.headD 0 = PageNumber.fromVaddr base ∧ ∀ n, n ∈ pages ↔ InRange base size n) := by
  unfold getPages ValidRange
  by_cases hbase : base.toNat % PAGE_SIZE ≠ 0
  · rw [if_pos hbase]
    exact .inl ⟨fun hv => hbase hv.1, _, rfl⟩
  rw [if_neg hbase]
  by_cases hsize : size.toNat % PAGE_SIZE ≠ 0
  · rw [if_pos hsize]
    exact .inl ⟨fun hv => hsize hv.2.1, _, rfl⟩
  rw [if_neg hsize]
  by_cases hwrap : base.toNat + size.toNat > 2 ^ 64
  · rw [if_pos hwrap]
    exact .inl ⟨fun hv => not_lt.2 hv.2.2 hwrap, _, rfl⟩
  rw [if_neg hwrap]
  rw [not_not] at hbase hsize
  have hvalid := And.intro hbase (And.intro hsize (not_lt.1 hwrap))
  have hmem : ∀ n, n ∈ List.range' (PageNumber.fromVaddr base) (size.toNat / PAGE_SIZE) ↔
      InRange base size n := fun n => List.mem_range'_1.trans (mem_range_arith hbase hsize)
  by_cases hzero : size.toNat / PAGE_SIZE = 0
  · rw [if_pos hzero]
    refine .inr (.inl ⟨hvalid, rfl, fun n hn => ?_⟩)
    have hn' := (hmem n).2 hn
    rw [hzero] at hn'
    cases hn'
  · rw [if_neg hzero]
    obtain ⟨count, hcount⟩ := Nat.exists_eq_succ_of_ne_zero hzero
    refine .inr (.inr ⟨hvalid, _, rfl, ?_, List.nodup_range', ?_, hmem⟩)
    · rw [hcount]
      exact List.cons_ne_nil _ _
    · rw [hcount]
      rfl

/-! ## Every operation -/

/-- A mapping operation, on a range that comes with it. -/
inductive MappingOp
  | map (lazy shared : Bool) (prot : MemProt)
  | mapExtern (ptr : BitVec 64) (readonly shared : Bool) (prot : MemProt)
  | mapDevice (device : ℕ) (shared : Bool) (prot : MemProt)
  | unmap
  | protect (prot : MemProt)

namespace MappingOp

/-- The call. -/
def run (op : MappingOp) (mmu : IoMMU) (h : Heap) (token : Token) (base size : BitVec 64) :
    IoMMU.Outcome Unit :=
  match op with
  | map lazy shared prot => mmu.map h token base size lazy shared prot
  | mapExtern ptr readonly shared prot => mmu.mapExtern h token base size ptr readonly shared prot
  | mapDevice device shared prot => mmu.mapDevice h token base size device shared prot
  | unmap => mmu.unmap h token base size
  | protect prot => mmu.protect h token base size prot

/-- The pointer of `map_extern` is aligned and not null, and the mapping not both readonly
    and shared. -/
def Allowed : MappingOp → Prop
  | mapExtern ptr readonly shared _ =>
    ptr.toNat % PAGE_SIZE = 0 ∧ ptr ≠ 0 ∧ ¬ (readonly = true ∧ shared = true)
  | _ => True

/-- What the operation maps, and with which permissions. -/
def mapped : MappingOp → Option (MapRegion × MemProt)
  | map lazy shared prot => some (anonRegion lazy shared, prot)
  | mapExtern ptr readonly shared prot =>
    (externFlags readonly shared).map fun flags => (.external flags (ptr.toNat / PAGE_SIZE), prot)
  | mapDevice device shared prot => some (.object shared device, prot)
  | unmap | protect _ => none

/-- What a page of the range must be: not mapped for a new mapping, mapped for
    `protect`. -/
def Admits (t : PageTable) (n : PageNumber) : MappingOp → Prop
  | map .. | mapExtern .. | mapDevice .. => t.get? n = none
  | unmap => True
  | protect _ => ∃ entry, t.get? n = some entry

/-- What the entry of page `k` of the range becomes. -/
def Turns (h : Heap) (k : ℕ) (before after : Option PageEntry) (op : MappingOp) : Prop :=
  match op with
  | unmap => after = none
  | protect prot => ∃ entry, before = some entry ∧ after = some { entry with protections := prot }
  | op => ∃ region prot source, op.mapped = some (region, prot) ∧ after = some ⟨source, prot⟩ ∧
      region.Fits h k source

end MappingOp

/-- The operation is all or nothing, on its range and nothing else. -/
structure MappingAtomic (op : MappingOp) (mmu : IoMMU) (h : Heap) (token : Token)
    (base size : BitVec 64) : Prop where
  ok_iff : (op.run mmu h token base size).1 = .ok () ↔
    ValidRange base size ∧ ∀ n, InRange base size n → op.Admits mmu.table n
  fault : ∀ e, (op.run mmu h token base size).1 = .error e → ∃ f, e = .fault f
  unchanged : ∀ e, (op.run mmu h token base size).1 = .error e →
    (op.run mmu h token base size).2 = (mmu, h)
  turns : (op.run mmu h token base size).1 = .ok () → ∀ n, InRange base size n →
    op.Turns (op.run mmu h token base size).2.2 (n - PageNumber.fromVaddr base) (mmu.table.get? n)
      ((op.run mmu h token base size).2.1.table.get? n)
  others : ∀ n, ¬ InRange base size n →
    (op.run mmu h token base size).2.1.table.get? n = mmu.table.get? n
  heap : h.Retains (op.run mmu h token base size).2.2
  ident : (∃ n, (op.run mmu h token base size).2.1.table.get? n ≠ mmu.table.get? n) ∧
      (op.run mmu h token base size).2.1.identifier = token ∨
    (op.run mmu h token base size).2.1.table = mmu.table ∧
      (op.run mmu h token base size).2.1.identifier = mmu.identifier

/-- What a table operation must do for this on the pages of a range: all of it if every
    page admits it, and else fault and do nothing. -/
def Performs (op : MappingOp) (start : PageNumber) (pages : List PageNumber)
    (t : PageTable) (h : Heap)
    (transform : TableOp Bool) : Prop :=
  ((∀ n ∈ pages, op.Admits t n) ∧ ∃ modified t' h',
    transform.run.run (t, h) = (.ok modified, t', h') ∧
    (∀ n ∈ pages, op.Turns h' (n - start) (t.get? n) (t'.get? n)) ∧
    (∀ n ∉ pages, t'.get? n = t.get? n) ∧ h.Retains h' ∧
    (modified = true → ∃ n, t'.get? n ≠ t.get? n) ∧ (modified = false → t' = t)) ∨
  ((¬ ∀ n ∈ pages, op.Admits t n) ∧ ∃ f, transform.run.run (t, h) = (.error (.fault f), t, h))

theorem mappingAtomic_of_performs {op : MappingOp} {mmu : IoMMU} {h : Heap} {token : Token}
    {base size : BitVec 64} {transform : List PageNumber → TableOp Bool}
    (hrun : op.run mmu h token base size = mmu.onPages h token base size transform)
    (hperforms : ∀ pages, pages ≠ [] → pages.Nodup → pages.headD 0 = PageNumber.fromVaddr base →
      Performs op (PageNumber.fromVaddr base) pages mmu.table h (transform pages)) :
    MappingAtomic op mmu h token base size := by
  -- a call that fails and changes nothing
  have hfails : ∀ f, op.run mmu h token base size = (.error (.fault f), mmu, h) →
      ¬ (ValidRange base size ∧ ∀ n, InRange base size n → op.Admits mmu.table n) →
      MappingAtomic op mmu h token base size := by
    intro f heq hnot
    constructor <;> rw [heq]
    · exact ⟨fun hok => (by cases hok), fun hall => absurd hall hnot⟩
    · rintro e he
      exact ⟨f, (Except.error.inj he).symm⟩
    · exact fun _ _ => rfl
    · exact fun hok => by cases hok
    · exact fun _ _ => rfl
    · exact Heap.Retains.refl h
    · exact .inr ⟨rfl, rfl⟩
  unfold IoMMU.onPages at hrun
  rcases getPages_cases base size with ⟨hinvalid, f, hpages⟩ | ⟨hvalid, hpages, hempty⟩ |
    ⟨hvalid, pages, hpages, hne, hnodup, hhead, hmem⟩
  · rw [hpages] at hrun
    exact hfails f hrun fun hall => hinvalid hall.1
  · -- an empty range
    rw [hpages] at hrun
    constructor <;> rw [hrun]
    · exact ⟨fun _ => ⟨hvalid, fun n hn => absurd hn (hempty n)⟩, fun _ => rfl⟩
    · exact fun e he => by cases he
    · exact fun _ _ => rfl
    · exact fun _ n hn => absurd hn (hempty n)
    · exact fun _ _ => rfl
    · exact Heap.Retains.refl h
    · exact .inr ⟨rfl, rfl⟩
  · simp only [hpages, IoMMU.modifyTable] at hrun
    rcases hperforms pages hne hnodup hhead with
      ⟨hadmits, modified, t', h', htransform, hturns, hothers, hgrows, htrue, hfalse⟩ |
      ⟨hadmits, f, htransform⟩
    · have hresult : op.run mmu h token base size =
          (.ok (), ⟨if modified then token else mmu.identifier, t'⟩, h') := by
        rw [hrun, htransform]
        cases modified with
        | true => rfl
        | false => rfl
      constructor <;> rw [hresult]
      · exact ⟨fun _ => ⟨hvalid, fun n hn => hadmits n ((hmem n).2 hn)⟩, fun _ => rfl⟩
      · exact fun e he => by cases he
      · exact fun e he => by cases he
      · exact fun _ n hn => hturns n ((hmem n).2 hn)
      · exact fun n hn => hothers n fun hn' => hn ((hmem n).1 hn')
      · exact hgrows
      · cases modified with
        | true => exact .inl ⟨htrue rfl, rfl⟩
        | false => exact .inr ⟨hfalse rfl, rfl⟩
    · rw [htransform] at hrun
      exact hfails f hrun fun hall => hadmits fun n hn => hall.2 n ((hmem n).1 hn)

/-! ## The operations perform -/

theorem notMem_keys_iff {t : PageTable} {n : PageNumber} : t.get? n = none ↔ n ∉ t.keys := by
  rw [PageTable.mem_keys_iff, ← Option.isSome_iff_exists, Option.not_isSome_iff_eq_none]

/-- A new mapping. -/
theorem performs_map {op : MappingOp} {region : MapRegion} {prot : MemProt}
    (hmapped : op.mapped = some (region, prot)) {start : PageNumber} {pages : List PageNumber}
    (hne : pages ≠ []) (hnodup : pages.Nodup) (hhead : pages.headD 0 = start) (t : PageTable)
    (h : Heap) :
    Performs op start pages t h (do
      TableOp.mapInner region prot pages
      return true) := by
  have hadmits : ∀ n, op.Admits t n ↔ n ∉ t.keys := by
    intro n
    rw [← notMem_keys_iff]
    cases op with
    | map => exact Iff.rfl
    | mapExtern => exact Iff.rfl
    | mapDevice => exact Iff.rfl
    | unmap => cases hmapped
    | protect => cases hmapped
  have hturns : ∀ h' k before source, region.Fits h' k source →
      op.Turns h' k before (some ⟨source, prot⟩) := by
    intro h' k before source hf
    cases op with
    | map => exact ⟨region, prot, source, hmapped, rfl, hf⟩
    | mapExtern => exact ⟨region, prot, source, hmapped, rfl, hf⟩
    | mapDevice => exact ⟨region, prot, source, hmapped, rfl, hf⟩
    | unmap => cases hmapped
    | protect => cases hmapped
  have hkey : ∀ n, (!t.containsKey n) = true ↔ n ∉ t.keys := by
    intro n
    simp [PageTable.containsKey]
  unfold TableOp.mapInner
  by_cases hall : ∀ n ∈ pages, n ∉ t.keys
  · left
    have hcheck : (TableOp.ensurePages (fun t n => !t.containsKey n) pages).run.run (t, h) =
        (.ok (), t, h) := TableOp.run_ensurePages fun n hn => (hkey n).2 (hall n hn)
    refine ⟨fun n hn => (hadmits n).2 (hall n hn), true, (mapPages region prot start pages t h).1,
      (mapPages region prot start pages t h).2, ?_, ?_, ?_,
        extends_mapPages region prot start pages t h,
      fun _ => ?_, fun heq => (by cases heq)⟩
    · have hinsert := @TableOp.run_insertPages region prot start t h pages hnodup hall
      rw [run_bind, run_bind, hcheck, hhead]
      simp only [hinsert]
      rfl
    · intro n hn
      obtain ⟨source, hget, hf⟩ := (get?_mapPages region prot start hnodup hall h n).1 hn
      rw [hget]
      exact hturns _ _ _ _ hf
    · exact fun n hn => (get?_mapPages region prot start hnodup hall h n).2 hn
    · obtain ⟨n, hn⟩ := List.exists_mem_of_ne_nil pages hne
      obtain ⟨source, hget, -⟩ := (get?_mapPages region prot start hnodup hall h n).1 hn
      refine ⟨n, ?_⟩
      rw [hget, notMem_keys_iff.2 (hall n hn)]
      exact Option.some_ne_none _
  · right
    refine ⟨fun ha => hall fun n hn => (hadmits n).1 (ha n hn), ?_⟩
    obtain ⟨f, hcheck⟩ := @TableOp.run_ensurePages_fault t h (fun t n => !t.containsKey n) pages
      fun hkeys => hall fun n hn => (hkey n).1 (hkeys n hn)
    exact ⟨f, by rw [run_bind, run_bind, hcheck]⟩

theorem get?_foldl_remove (pages : List PageNumber) (t : PageTable) (k : PageNumber) :
    (pages.foldl PageTable.remove t).get? k = if k ∈ pages then none else t.get? k := by
  induction pages generalizing t with
  | nil => simp
  | cons n pages ih =>
    rw [List.foldl_cons, ih, PageTable.get?_remove]
    by_cases hk : k ∈ pages
    · simp [hk]
    · simp [hk]

theorem performs_unmap {start : PageNumber} (pages : List PageNumber) (t : PageTable) (h : Heap) :
    Performs .unmap start pages t h (TableOp.unmap (fun _ _ => true) pages false) := by
  refine .inl ⟨fun _ _ => trivial, _, _, _, TableOp.run_unmap pages false, ?_, ?_,
    Heap.Retains.refl h, fun hm => ?_, fun hm => ?_⟩
  · intro n hn
    show (pages.foldl PageTable.remove t).get? n = none
    rw [get?_foldl_remove, if_pos hn]
  · intro n hn
    rw [get?_foldl_remove, if_neg hn]
  · rw [Bool.false_or, List.any_eq_true] at hm
    obtain ⟨n, hn, hkey⟩ := hm
    refine ⟨n, ?_⟩
    rw [get?_foldl_remove, if_pos hn]
    rw [TableOp.containsKey_eq] at hkey
    exact fun heq => by rw [← heq] at hkey; cases hkey
  · rw [Bool.false_or, List.any_eq_false] at hm
    exact foldl_remove_eq fun n hn hkey => hm n hn (decide_eq_true hkey)

theorem get?_protectPages (pages : List PageNumber) (prot : MemProt) (t : PageTable)
    (k : PageNumber) :
    (World.protectPages pages prot t).get? k =
      if k ∈ pages then (t.get? k).map (TableOp.protectEntry prot) else t.get? k := by
  unfold World.protectPages
  rw [PageTable.get?_mapVals]
  by_cases hk : k ∈ pages
  · simp only [if_pos hk]
    rfl
  · simp [if_neg hk]

theorem performs_protect {start : PageNumber} {pages : List PageNumber} (hnodup : pages.Nodup)
    (prot : MemProt) (t : PageTable) (h : Heap) :
    Performs (.protect prot) start pages t h (TableOp.modify (fun _ entry modified =>
      ({ entry with protections := prot }, modified || entry.protections != prot)) pages
        false) := by
  unfold TableOp.modify
  by_cases hall : ∀ n ∈ pages, n ∈ t.keys
  · left
    have hcheck : (TableOp.ensurePages PageTable.containsKey pages).run.run (t, h) =
        (.ok (), t, h) :=
      TableOp.run_ensurePages fun n hn => decide_eq_true (hall n hn)
    refine ⟨fun n hn => PageTable.mem_keys_iff.1 (hall n hn),
      false || pages.any (TableOp.protectChanges t prot), World.protectPages pages prot t, h, ?_,
        ?_, ?_, Heap.Retains.refl h, fun hm => ?_, fun hm => ?_⟩
    · rw [run_bind, hcheck]
      exact TableOp.run_protect hnodup hall false
    · intro n hn
      obtain ⟨entry, hget⟩ := PageTable.mem_keys_iff.1 (hall n hn)
      refine ⟨entry, hget, ?_⟩
      rw [get?_protectPages, if_pos hn, hget]
      rfl
    · intro n hn
      rw [get?_protectPages, if_neg hn]
    · rw [Bool.false_or, List.any_eq_true] at hm
      obtain ⟨n, hn, hchange⟩ := hm
      refine ⟨n, ?_⟩
      rw [get?_protectPages, if_pos hn]
      unfold TableOp.protectChanges at hchange
      intro heq
      cases hget : t.get? n with
      | none =>
        rw [hget] at hchange
        cases hchange
      | some entry =>
        rw [hget] at heq hchange
        have hprot : entry.protections = prot :=
          (congrArg PageEntry.protections (Option.some.inj heq)).symm
        simp [hprot] at hchange
    · rw [Bool.false_or, List.any_eq_false] at hm
      refine protectPages_eq fun p hp hmem => ?_
      have hn := hm p.1 hmem
      unfold TableOp.protectChanges at hn
      rw [PageTable.get?_of_mem_entries hp] at hn
      simpa using hn
  · right
    refine ⟨fun ha => hall fun n hn => PageTable.mem_keys_iff.2 (ha n hn), ?_⟩
    obtain ⟨f, hcheck⟩ := @TableOp.run_ensurePages_fault t h PageTable.containsKey pages
      fun hkeys => hall fun n hn => of_decide_eq_true (hkeys n hn)
    exact ⟨f, by rw [run_bind, hcheck]⟩

/-- Every mapping operation, on every table and every range, is all or nothing, and touches
    its range and nothing else. -/
theorem mapping_atomic (op : MappingOp) (hop : op.Allowed) (mmu : IoMMU) (h : Heap) (token : Token)
    (base size : BitVec 64) : MappingAtomic op mmu h token base size := by
  cases op with
  | map lazy shared prot =>
    exact mappingAtomic_of_performs rfl fun pages hne hnodup hhead =>
      performs_map rfl hne hnodup hhead mmu.table h
  | mapExtern ptr readonly shared prot =>
    obtain ⟨halign, hnull, hflags⟩ := hop
    obtain ⟨flags, hflags⟩ : ∃ flags, externFlags readonly shared = some flags := by
      cases readonly <;> cases shared <;> first | exact ⟨_, rfl⟩ | exact absurd ⟨rfl, rfl⟩ hflags
    have hmapped : (MappingOp.mapExtern ptr readonly shared prot).mapped =
        some (.external flags (ptr.toNat / PAGE_SIZE), prot) := by
      show (externFlags readonly shared).map _ = _
      rw [hflags]
      rfl
    refine mappingAtomic_of_performs ?_ fun pages hne hnodup hhead =>
      performs_map hmapped hne hnodup hhead mmu.table h
    show mmu.mapExtern h token base size ptr readonly shared prot = _
    unfold IoMMU.mapExtern
    rw [if_neg (not_not.2 halign), if_neg hnull, hflags]
    rfl
  | mapDevice device shared prot =>
    exact mappingAtomic_of_performs rfl fun pages hne hnodup hhead =>
      performs_map rfl hne hnodup hhead mmu.table h
  | unmap =>
    exact mappingAtomic_of_performs rfl fun pages _ _ _ => performs_unmap pages mmu.table h
  | protect prot =>
    exact mappingAtomic_of_performs rfl fun pages _ hnodup _ =>
      performs_protect hnodup prot mmu.table h

/-- Two external pages are mapped. -/
theorem mapping_atomic_extern :
    let op := MappingOp.mapExtern 0x5000#64 false false MemProt.READ
    MappingAtomic op ⟨0, .new⟩ .empty 1 0x1000#64 0x2000#64 ∧
      (op.run ⟨0, .new⟩ .empty 1 0x1000#64 0x2000#64).1 = .ok () := by
  exact ⟨mapping_atomic (.mapExtern 0x5000#64 false false MemProt.READ)
    ⟨by decide, by decide, by decide⟩ _ _ _ _ _, rfl⟩

/-! ## The calls of a world -/

namespace World

variable {w : World} {m : ℕ} {mmu : IoMMU}

/-- The world after an operation of one of its MMUs. -/
def afterOutcome (w : World) (m : ℕ) (r : IoMMU.Outcome Unit) : World :=
  { w with heap := r.2.2 }.setMmu m r.2.1

theorem afterOutcome_self (hm : w.mmu? m = some mmu) (e : Except MapFailure Unit) :
    w.afterOutcome m (e, mmu, w.heap) = w :=
  setMmu_self hm

theorem mapRegion_eq (hm : w.mmu? m = some mmu) (token : Token) (base size : BitVec 64)
    (prot : MemProt) (region : MapRegion) :
    w.mapRegion token m base size prot region =
      w.afterOutcome m (mmu.mapRegion w.heap token base size prot region) := by
  unfold mapRegion IoMMU.mapRegion IoMMU.onPages
  rw [hm]
  rcases getPages_cases base size with ⟨-, f, hpages⟩ | ⟨-, hpages, -⟩ |
    ⟨-, pages, hpages, hne, hnodup, -, -⟩
  · rw [hpages]
    exact (afterOutcome_self hm _).symm
  · rw [hpages]
    exact (afterOutcome_self hm _).symm
  · simp only [hpages, mapInner, TableOp.mapInner, IoMMU.modifyTable]
    by_cases hall : ∀ n ∈ pages, n ∉ mmu.table.keys
    · have hcheck : (TableOp.ensurePages (fun t n => !t.containsKey n) pages).run.run
          (mmu.table, w.heap) = (.ok (), mmu.table, w.heap) :=
        TableOp.run_ensurePages fun n hn => by simp [PageTable.containsKey, hall n hn]
      have hfind : (pages.find? fun n => mmu.table.containsKey n) = none :=
        List.find?_eq_none.2 fun n hn => by simp [PageTable.containsKey, hall n hn]
      have hinsert := @TableOp.run_insertPages region prot (pages.headD 0) mmu.table w.heap pages
        hnodup hall
      rw [run_bind, run_bind, hcheck]
      simp only [hinsert, hfind]
      rfl
    · obtain ⟨f, hcheck⟩ := @TableOp.run_ensurePages_fault mmu.table w.heap
        (fun t n => !t.containsKey n) pages fun hkeys => hall fun n hn => by
          simpa [PageTable.containsKey] using hkeys n hn
      rw [run_bind, run_bind, hcheck]
      cases hfind : pages.find? fun n => mmu.table.containsKey n with
      | none =>
        refine absurd (fun n hn hkey => ?_) hall
        exact List.find?_eq_none.1 hfind n hn (decide_eq_true hkey)
      | some n => exact (afterOutcome_self hm _).symm

theorem unmap_eq (hm : w.mmu? m = some mmu) (token : Token) (start size : BitVec 64) :
    w.unmap token m start size = w.afterOutcome m (mmu.unmap w.heap token start size) := by
  unfold unmap IoMMU.unmap IoMMU.onPages
  rw [hm]
  cases hpages : getPages start size with
  | error f => exact (afterOutcome_self hm _).symm
  | ok pages =>
    cases pages with
    | none => exact (afterOutcome_self hm _).symm
    | some pages =>
      simp only [IoMMU.modifyTable, TableOp.run_unmap, Bool.false_or]
      cases pages.any fun n => mmu.table.containsKey n with
      | true => rfl
      | false => rfl

/-- The world finds the changed entries in the table, and the loop in the range. -/
theorem protect_modified (pages : List PageNumber) (prot : MemProt) (t : PageTable) :
    (t.entries.any fun p => p.1 ∈ pages ∧ p.2.protections ≠ prot) =
      pages.any (TableOp.protectChanges t prot) := by
  rw [Bool.eq_iff_iff, List.any_eq_true, List.any_eq_true]
  unfold TableOp.protectChanges
  constructor
  · rintro ⟨p, hp, hchange⟩
    obtain ⟨hmem, hne⟩ := of_decide_eq_true hchange
    refine ⟨p.1, hmem, ?_⟩
    rw [PageTable.get?_of_mem_entries hp]
    simpa using hne
  · rintro ⟨n, hn, hchange⟩
    cases hget : t.get? n with
    | none =>
      rw [hget] at hchange
      cases hchange
    | some entry =>
      rw [hget] at hchange
      refine ⟨(n, entry), PageTable.mem_entries_of_get? hget, decide_eq_true ⟨hn, ?_⟩⟩
      simpa using hchange

theorem protect_eq (hm : w.mmu? m = some mmu) (token : Token) (start size : BitVec 64)
    (prot : MemProt) :
    w.protect token m start size prot =
      w.afterOutcome m (mmu.protect w.heap token start size prot) := by
  unfold protect IoMMU.protect IoMMU.onPages
  rw [hm]
  rcases getPages_cases start size with ⟨-, f, hpages⟩ | ⟨-, hpages, -⟩ |
    ⟨-, pages, hpages, -, hnodup, -, -⟩
  · rw [hpages]
    exact (afterOutcome_self hm _).symm
  · rw [hpages]
    exact (afterOutcome_self hm _).symm
  · simp only [hpages, TableOp.modify, IoMMU.modifyTable, protect_modified]
    by_cases hall : ∀ n ∈ pages, n ∈ mmu.table.keys
    · have hcheck : (TableOp.ensurePages PageTable.containsKey pages).run.run (mmu.table, w.heap) =
          (.ok (), mmu.table, w.heap) :=
            TableOp.run_ensurePages fun n hn => decide_eq_true (hall n hn)
      have hrun := @TableOp.run_protect prot mmu.table w.heap pages hnodup hall false
      have hkeys : (pages.all fun n => mmu.table.containsKey n) = true :=
        List.all_eq_true.2 fun n hn => decide_eq_true (hall n hn)
      unfold TableOp.protectEntry at hrun
      rw [run_bind, hcheck, if_pos hkeys]
      simp only [hrun, Bool.false_or]
      cases pages.any (TableOp.protectChanges mmu.table prot) with
      | true => rfl
      | false => rfl
    · obtain ⟨f, hcheck⟩ :=
        @TableOp.run_ensurePages_fault mmu.table w.heap PageTable.containsKey pages
        fun hkeys => hall fun n hn => of_decide_eq_true (hkeys n hn)
      rw [run_bind, hcheck, if_neg]
      · exact (afterOutcome_self hm _).symm
      · intro hkeys
        exact hall fun n hn => of_decide_eq_true (List.all_eq_true.1 hkeys n hn)

end World

end RapidArm.Mmu
