import RapidArm.Mmu.Lookups
import RapidArm.Lib.Blocks

/-!
# Bulk accesses

`IoMMU::load`, `load_force`, `store` and `store_force` (`io-mmu/src/lib.rs`, lines
433–714): `mem_access` splits a range of guest addresses at the page boundaries, checks
every page of it in a first pass through the lookup cache (`LookupCacheExt::access`,
`io-mmu/src/lookup_cache.rs`, lines 118–146), and copies page by page in a second one.

In `Access` a store returns its effects. `storeInPlace` is the same store with the
effects of a page performed at once, before the next page is looked up; what it leaves
behind when it fails is what the caller sees.

A cache may hold a page as it was before `IoMMU::fork` made it copy-on-write, since `fork`
keeps the identifier. `SameAccess` says that such a hit makes no difference to an access.

Results:
* `bulk_exact`: if no hit of the cache on the pages of the range is stale, a bulk access
  succeeds if and only if every page it covers can be accessed, and then transfers every
  byte to or from its place and no other; a store that fails changes nothing; the access
  loop does not abort, and its unchecked arithmetic stays in range.
* `bulk_exact_iff`: this is so of all accesses to some pages if and only if no hit of the
  cache on these pages is stale.
* `bulk_exact_run`: in a run whose forks are clean all bulk accesses are exact.
* `store_through_stale_hit`: after a fork `store` succeeds on a copy-on-write page.
-/

namespace RapidArm.Mmu

open RapidArm.Lib

variable {h : Heap} {mmu : IoMMU} {same : Page → Page → Prop} {among : Set PageNumber}

/-! ## Pages of a range -/

/-- The page of byte `i` of an access. -/
def bytePage (vaddr : BitVec 64) (i : ℕ) : PageNumber := (vaddr.toNat + i) / PAGE_SIZE

/-- Its offset in the page. -/
def byteOffset (vaddr : BitVec 64) (i : ℕ) : ℕ := (vaddr.toNat + i) % PAGE_SIZE

theorem mem_pagesOf (vaddr : BitVec 64) {len : ℕ} (hlen : 0 < len) {n : PageNumber} :
    n ∈ pagesOf vaddr len ↔ ∃ i < len, bytePage vaddr i = n :=
  mem_blocks_iff PAGE_SIZE_pos hlen

/-- When a bulk access may succeed. -/
def BulkAllowed (h : Heap) (t : PageTable) (requiredProt : Option MemProt) (noCow : Bool)
    (vaddr : BitVec 64) (len : ℕ) : Prop :=
  len = 0 ∨ vaddr.toNat + len ≤ 2 ^ 64 ∧
    ∀ i < len, t.Accessible h requiredProt noCow (bytePage vaddr i)

theorem BulkAllowed.pages {t : PageTable} {requiredProt : Option MemProt} {noCow : Bool}
    {vaddr : BitVec 64} {len : ℕ} (ha : BulkAllowed h t requiredProt noCow vaddr len)
    (hlen : 0 < len) :
    ∀ n ∈ pagesOf vaddr len, t.Accessible h requiredProt noCow n := by
  intro n hn
  obtain ⟨i, hi, rfl⟩ := (mem_pagesOf vaddr hlen).1 hn
  exact (ha.resolve_left (by omega)).2 i hi

/-- The verify pass has found every page of the range. -/
theorem bulkAllowed_of_pages {t : PageTable} {requiredProt : Option MemProt} {noCow : Bool}
    {vaddr : BitVec 64} {len : ℕ} (hlen : 0 < len) (hle : vaddr.toNat + len ≤ 2 ^ 64)
    (hall : ∀ n ∈ (pagesOf vaddr len).reverse, t.Accessible h requiredProt noCow n) :
    BulkAllowed h t requiredProt noCow vaddr len :=
  .inr ⟨hle, fun i hi => hall _ (List.mem_reverse.2 ((mem_pagesOf vaddr hlen).2 ⟨i, hi, rfl⟩))⟩

/-- The verify pass has stopped at a page. -/
theorem not_bulkAllowed_of_page {t : PageTable} {requiredProt : Option MemProt} {noCow : Bool}
    {vaddr : BitVec 64} {len : ℕ} (hlen : 0 < len) {earlier later : List PageNumber}
    {n : PageNumber} (hsplit : (pagesOf vaddr len).reverse = earlier ++ n :: later)
    (hn : ¬ t.Accessible h requiredProt noCow n) :
    ¬ BulkAllowed h t requiredProt noCow vaddr len := by
  intro ha
  refine hn (ha.pages hlen n ?_)
  rw [← List.mem_reverse, hsplit]
  exact List.mem_append_right _ List.mem_cons_self

theorem not_bulkAllowed_of_wrap {t : PageTable} {requiredProt : Option MemProt} {noCow : Bool}
    {vaddr : BitVec 64} {len : ℕ} (hzero : len ≠ 0) (hwrap : vaddr.toNat + len > 2 ^ 64) :
    ¬ BulkAllowed h t requiredProt noCow vaddr len := by
  rintro (heq | ⟨hle, -⟩)
  · exact hzero heq
  · exact absurd hle (not_le.2 hwrap)

/-- The pages an access goes through: none if it is empty. -/
def accessedPages (vaddr : BitVec 64) (len : ℕ) : List PageNumber :=
  if len = 0 then [] else pagesOf vaddr len

theorem accessedPages_mem {vaddr : BitVec 64} {len : ℕ}
    (hin : ∀ i < len, bytePage vaddr i ∈ among) :
    ∀ n ∈ accessedPages vaddr len, n ∈ among := by
  intro n hn
  unfold accessedPages at hn
  split_ifs at hn with hzero
  · cases hn
  · obtain ⟨i, hi, rfl⟩ := (mem_pagesOf vaddr (Nat.pos_of_ne_zero hzero)).1 hn
    exact hin i hi

theorem BulkAllowed.accessed {t : PageTable} {requiredProt : Option MemProt} {noCow : Bool}
    {vaddr : BitVec 64} {len : ℕ} (ha : BulkAllowed h t requiredProt noCow vaddr len) :
    ∀ n ∈ accessedPages vaddr len, t.Accessible h requiredProt noCow n := by
  intro n hn
  unfold accessedPages at hn
  split_ifs at hn with hzero
  · cases hn
  · exact ha.pages (Nat.pos_of_ne_zero hzero) n hn

theorem mem_accessedPages {vaddr : BitVec 64} {len i : ℕ} (hi : i < len) :
    bytePage vaddr i ∈ accessedPages vaddr len := by
  unfold accessedPages
  rw [if_neg (by omega)]
  exact (mem_pagesOf vaddr (by omega)).2 ⟨i, hi, rfl⟩

/-- `mem_access` succeeds exactly where it may, and accesses each page through one that is
    the same as the one of the table. -/
theorem ends_memAccess [Std.Refl same] {α : Type} (access : PageNumber → Page → List α)
    {vaddr : BitVec 64} {len : ℕ} {requiredProt : Option MemProt} {noCow : Bool}
    (hverify : ∀ page page', same page page' →
      verifyAccess requiredProt noCow page = verifyAccess requiredProt noCow page')
    (hsize : len < 2 ^ 64) (hin : ∀ i < len, bytePage vaddr i ∈ among) :
    Ends (HitsAgree same among h mmu) (memAccess h mmu vaddr len requiredProt noCow access)
      (fun out => BulkAllowed h mmu.table requiredProt noCow vaddr len ∧
        ∃ view : PageNumber → Page,
          (∀ n ∈ accessedPages vaddr len, same (view n) (pageAt h mmu.table n)) ∧
          out = (accessedPages vaddr len).flatMap fun n => access n (view n))
      fun e => ¬ BulkAllowed h mmu.table requiredProt noCow vaddr len ∧ ∃ f, e = .fault f := by
  have hpages := accessedPages_mem hin
  unfold memAccess
  unfold accessedPages at hpages ⊢
  rw [if_neg (by omega)]
  by_cases hzero : len = 0
  · rw [if_pos hzero, if_pos hzero]
    exact Ends.pure ⟨.inl hzero, pageAt h mmu.table, fun n hn => (by cases hn), rfl⟩
  · rw [if_neg hzero] at hpages
    rw [if_neg hzero, if_neg hzero]
    have hlen := Nat.pos_of_ne_zero hzero
    by_cases hwrap : vaddr.toNat + len > 2 ^ 64
    · rw [if_pos hwrap]
      exact Ends.throw ⟨not_bulkAllowed_of_wrap hzero hwrap, _, rfl⟩
    · rw [if_neg hwrap]
      refine ((ends_verifyPages hverify fun n hn => hpages n (List.mem_reverse.1 hn)).mono
        (fun _ h => h) ?_).bind fun _ hall => ?_
      · rintro e ⟨earlier, n, later, hsplit, -, hn, rfl⟩
        exact ⟨not_bulkAllowed_of_page hlen hsplit hn, _, rfl⟩
      · have ha := bulkAllowed_of_pages hlen (not_lt.1 hwrap) hall
        exact (ends_accessPages access hpages List.nodup_range' fun n hn =>
          (ha.pages hlen n hn).found).mono (fun out hout => ⟨ha, hout⟩) fun _ hfalse => hfalse.elim

/-- With a cache that agrees with the table, each page is accessed through its own. -/
theorem returns_memAccess {α : Type} (access : PageNumber → Page → List α) {vaddr : BitVec 64}
    {len : ℕ} {requiredProt : Option MemProt} {noCow : Bool} (hsize : len < 2 ^ 64)
    (ha : BulkAllowed h mmu.table requiredProt noCow vaddr len) :
    Returns (Consistent h mmu) (memAccess h mmu vaddr len requiredProt noCow access)
      (.ok ((accessedPages vaddr len).flatMap fun n => access n (pageAt h mmu.table n))) := by
  rw [consistent_eq_hitsAgree]
  refine ((ends_memAccess access (fun page page' heq => by rw [heq]) hsize
    fun i _ => Set.mem_univ _).mono ?_ ?_).returns
  · rintro out ⟨-, view, hview, rfl⟩
    exact congrArg _ (List.flatMap_congr fun n hn => by rw [hview n hn])
  · rintro e ⟨hno, -⟩
    exact absurd ha hno

/-! ## Bytes of a range -/

/-- The offsets of `mem_access` in a page, as positions of the range. -/
theorem chunk_arith {a len n : ℕ} (hlen : 0 < len)
    (hn : n ∈ List.range' (a / 4096) ((a + len - 1) / 4096 - a / 4096 + 1)) :
    let pageStart := if n = a / 4096 then a % 4096 else 0
    let pageEnd := if n = (a + len - 1) / 4096 then (a + len - 1) % 4096 + 1 else 4096
    (pageStart, pageEnd - pageStart, (n - a / 4096) * 4096 + pageStart - a % 4096) =
      (max a (n * 4096) - n * 4096, min (a + len) ((n + 1) * 4096) - max a (n * 4096),
        max a (n * 4096) - a) := by
  rw [List.mem_range'_1] at hn
  refine Prod.ext ?_ (Prod.ext ?_ ?_)
  · simp only
    split_ifs <;> omega
  · simp only
    split_ifs <;> omega
  · simp only
    split_ifs <;> omega

/-- The part of a page that an access covers, as a piece of the range. -/
theorem pageChunk_eq {vaddr : BitVec 64} {len : ℕ} (hlen : 0 < len) {n : PageNumber}
    (hn : n ∈ pagesOf vaddr len) :
    pageChunk vaddr len n = (blockStart PAGE_SIZE vaddr.toNat n - n * PAGE_SIZE,
      blockEnd PAGE_SIZE vaddr.toNat len n - blockStart PAGE_SIZE vaddr.toNat n,
      blockStart PAGE_SIZE vaddr.toNat n - vaddr.toNat) :=
  chunk_arith hlen hn

/-- The piece of a page is not empty, stays in the page and in the buffer. -/
theorem chunk_bounds {a len n : ℕ} (hlen : 0 < len)
    (hn : n ∈ List.range' (a / 4096) ((a + len - 1) / 4096 - a / 4096 + 1)) :
    0 < min (a + len) ((n + 1) * 4096) - max a (n * 4096) ∧
      max a (n * 4096) - n * 4096 + (min (a + len) ((n + 1) * 4096) - max a (n * 4096)) ≤ 4096 ∧
      max a (n * 4096) - a + (min (a + len) ((n + 1) * 4096) - max a (n * 4096)) ≤ len := by
  rw [List.mem_range'_1] at hn
  refine ⟨?_, ?_, ?_⟩ <;> omega

theorem pageChunk_bounds {vaddr : BitVec 64} {len : ℕ} (hlen : 0 < len) {n : PageNumber}
    (hn : n ∈ pagesOf vaddr len) :
    0 < (pageChunk vaddr len n).2.1 ∧
      (pageChunk vaddr len n).1 + (pageChunk vaddr len n).2.1 ≤ PAGE_SIZE ∧
      (pageChunk vaddr len n).2.2 + (pageChunk vaddr len n).2.1 ≤ len := by
  rw [pageChunk_eq hlen hn]
  exact chunk_bounds hlen hn

/-- A position of a piece, in its page. -/
theorem block_position {a len n j : ℕ}
    (hj : j < min (a + len) ((n + 1) * 4096) - max a (n * 4096)) :
    (max a (n * 4096) + j) / 4096 = n ∧
      (max a (n * 4096) + j) % 4096 = max a (n * 4096) - n * 4096 + j ∧
      max a (n * 4096) + j - a = max a (n * 4096) - a + j ∧ max a (n * 4096) - a + j < len := by
  refine ⟨?_, ?_, ?_, ?_⟩ <;> omega

/-- What an access yields byte by byte, page after page, is what it yields along the
    range. -/
theorem flatMap_chunks {β : Type} (f : PageNumber → ℕ → ℕ → β) {vaddr : BitVec 64} {len : ℕ}
    (hlen : 0 < len) :
    ((pagesOf vaddr len).flatMap fun n =>
        (List.range (pageChunk vaddr len n).2.1).map fun j =>
          f n ((pageChunk vaddr len n).1 + j) ((pageChunk vaddr len n).2.2 + j)) =
      (List.range len).map fun i => f (bytePage vaddr i) (byteOffset vaddr i) i := by
  have hblocks := map_range_eq_flatMap_blocks PAGE_SIZE_pos (a := vaddr.toNat) hlen
    fun x => f (x / PAGE_SIZE) (x % PAGE_SIZE) (x - vaddr.toNat)
  simp only [Nat.add_sub_cancel_left] at hblocks
  refine Eq.trans (List.flatMap_congr fun n hn => ?_) hblocks.symm
  rw [pageChunk_eq hlen hn]
  refine List.map_congr_left fun j hj => ?_
  obtain ⟨hpage, hoffset, hindex, -⟩ := block_position (List.mem_range.1 hj)
  show f n _ _ = f ((max vaddr.toNat (n * 4096) + j) / 4096)
      ((max vaddr.toNat (n * 4096) + j) % 4096)
    (max vaddr.toNat (n * 4096) + j - vaddr.toNat)
  rw [hpage, hoffset, hindex]
  rfl

/-! ## Loads -/

/-- The byte of a host page that byte `i` of an access is on. -/
def byteTarget (h : Heap) (t : PageTable) (vaddr : BitVec 64) (i : ℕ) : HostPage × ℕ :=
  ((pageAt h t (bytePage vaddr i)).ptr, byteOffset vaddr i)

/-- The bytes of a range of guest memory. -/
def guestBytes (h : Heap) (t : PageTable) (vaddr : BitVec 64) (len : ℕ) : List (BitVec 8) :=
  (List.range len).map fun i => h.mem (byteTarget h t vaddr i).1 (byteTarget h t vaddr i).2

/-- The bytes that a load collects from the pages it saw. -/
theorem loadBytes_eq {view : PageNumber → Page} {t : PageTable} {vaddr : BitVec 64} {len : ℕ}
    (hview : ∀ n ∈ accessedPages vaddr len, ∀ offset < PAGE_SIZE,
      h.mem (view n).ptr offset = h.mem (pageAt h t n).ptr offset) :
    ((accessedPages vaddr len).flatMap fun n => (List.range (pageChunk vaddr len n).2.1).map
      fun j => h.mem (view n).ptr ((pageChunk vaddr len n).1 + j)) = guestBytes h t vaddr len := by
  unfold accessedPages at hview ⊢
  by_cases hzero : len = 0
  · rw [if_pos hzero, hzero]
    rfl
  · rw [if_neg hzero] at hview ⊢
    have hlen := Nat.pos_of_ne_zero hzero
    refine Eq.trans (List.flatMap_congr fun n hn => List.map_congr_left fun j hj => ?_)
      (flatMap_chunks (fun n offset _ => h.mem (pageAt h t n).ptr offset) hlen)
    have hle := (pageChunk_bounds hlen hn).2.1
    have hj := List.mem_range.1 hj
    exact hview n hn _ (by omega)

/-! ## Stores -/

/-- An effect that stores a byte. -/
def Effect.isWrite : Effect → Bool
  | write _ _ _ => true
  | markDirty _ => false

/-- The effects of a bulk store, page after page, on the pages that it saw. -/
def bulkEffects (view : PageNumber → Page) (vaddr : BitVec 64) (mem : List (BitVec 8)) :
    List Effect :=
  (accessedPages vaddr mem.length).flatMap fun n =>
    writeBytes (view n) (pageChunk vaddr mem.length n).1
      ((mem.drop (pageChunk vaddr mem.length n).2.2).take (pageChunk vaddr mem.length n).2.1) ++
      (view n).setDirty

theorem bulkEffects_congr {view view' : PageNumber → Page} {vaddr : BitVec 64}
    {mem : List (BitVec 8)} (hview : ∀ n ∈ accessedPages vaddr mem.length, view n = view' n) :
    bulkEffects view vaddr mem = bulkEffects view' vaddr mem :=
  List.flatMap_congr fun n hn => by rw [hview n hn]

theorem writeBytes_slice (page : Page) (offset : ℕ) {mem : List (BitVec 8)} {index count : ℕ}
    (hle : index + count ≤ mem.length) :
    writeBytes page offset ((mem.drop index).take count) =
      (List.range count).map fun j => .write page (offset + j) (mem.getD (index + j) 0) := by
  unfold writeBytes
  apply List.ext_getElem
  · simp
    omega
  · intro j h₁ h₂
    simp only [List.length_map, List.length_range] at h₂
    have hget : index + j < mem.length := by omega
    simp [List.getElem_zipIdx, List.getElem?_eq_getElem hget]

theorem filter_isWrite_writeBytes (page : Page) (offset : ℕ) (data : List (BitVec 8)) :
    (writeBytes page offset data ++ page.setDirty).filter Effect.isWrite =
      writeBytes page offset data := by
  have hwrites : (writeBytes page offset data).filter Effect.isWrite =
      writeBytes page offset data := by
    rw [List.filter_eq_self]
    intro e he
    obtain ⟨p, -, rfl⟩ := List.mem_map.1 he
    rfl
  have hmarks : page.setDirty.filter Effect.isWrite = [] := by
    unfold Page.setDirty
    split_ifs <;> rfl
  rw [List.filter_append, hwrites, hmarks, List.append_nil]

/-- The bytes a bulk store writes: byte `i` of the buffer to its place, in this order. -/
theorem bulkEffects_writes (view : PageNumber → Page) (vaddr : BitVec 64)
    (mem : List (BitVec 8)) :
    (bulkEffects view vaddr mem).filter Effect.isWrite =
      (List.range mem.length).map fun i =>
        .write (view (bytePage vaddr i)) (byteOffset vaddr i) (mem.getD i 0) := by
  unfold bulkEffects accessedPages
  by_cases hzero : mem.length = 0
  · rw [if_pos hzero, hzero]
    rfl
  · have hlen := Nat.pos_of_ne_zero hzero
    rw [if_neg hzero, List.filter_flatMap]
    refine Eq.trans (List.flatMap_congr fun n hn => ?_)
      (flatMap_chunks (fun n offset i => Effect.write (view n) offset (mem.getD i 0)) hlen)
    rw [filter_isWrite_writeBytes]
    exact writeBytes_slice _ _ (pageChunk_bounds hlen hn).2.2

/-- The memory after effects depends on the bytes stored alone. -/
theorem Heap.apply_mem_filter (h : Heap) (effects : List Effect) :
    (h.apply effects).mem = (h.apply (effects.filter Effect.isWrite)).mem := by
  have hmem : ∀ (l : List Effect) (h₁ h₂ : Heap), h₁.mem = h₂.mem →
      (h₁.apply l).mem = (h₂.apply (l.filter Effect.isWrite)).mem := by
    intro l
    induction l with
    | nil => exact fun _ _ heq => heq
    | cons e l ih =>
      intro h₁ h₂ heq
      cases e with
      | write page offset byte =>
        rw [List.filter_cons_of_pos rfl]
        refine ih (h₁.applyOne (.write page offset byte)) (h₂.applyOne (.write page offset byte)) ?_
        show Function.update h₁.mem _ _ = Function.update h₂.mem _ _
        rw [heq]
      | markDirty page =>
        rw [List.filter_cons_of_neg (by simp [Effect.isWrite])]
        exact ih (h₁.applyOne (.markDirty page)) h₂ heq
  exact hmem effects h h rfl

/-- A byte that no effect stores keeps its value. -/
theorem Heap.apply_mem_of_notMem {h : Heap} {effects : List Effect} {host : HostPage} {i : ℕ}
    (hno : ∀ page byte, Effect.write page i byte ∈ effects → page.ptr ≠ host) :
    (h.apply effects).mem host i = h.mem host i := by
  by_contra hne
  obtain ⟨page, byte, hmem, hptr⟩ := Heap.mem_apply hne
  exact hno page byte hmem hptr

/-- The last store to a byte decides its value. -/
theorem Heap.apply_mem_of_last {h : Heap} {before after : List Effect} {page : Page} {i : ℕ}
    {byte : BitVec 8} (hlast : ∀ page' byte', Effect.write page' i byte' ∈ after →
      page'.ptr ≠ page.ptr) :
    (h.apply (before ++ .write page i byte :: after)).mem page.ptr i = byte := by
  unfold Heap.apply
  rw [List.foldl_append, List.foldl_cons]
  refine Eq.trans (Heap.apply_mem_of_notMem hlast) ?_
  simp only [Heap.applyOne, Function.update_self]

/-- The bytes of the buffer are in their places, where a later byte of the buffer is not
    stored to the same place, and no other byte of memory has changed. -/
structure Transferred (h : Heap) (t : PageTable) (vaddr : BitVec 64) (mem : List (BitVec 8))
    (h' : Heap) : Prop where
  bytes : ∀ i (hi : i < mem.length),
    (∀ j, i < j → j < mem.length → byteTarget h t vaddr j ≠ byteTarget h t vaddr i) →
      h'.mem (byteTarget h t vaddr i).1 (byteTarget h t vaddr i).2 = mem[i]
  others : ∀ host offset, (∀ i < mem.length, byteTarget h t vaddr i ≠ (host, offset)) →
    h'.mem host offset = h.mem host offset

/-- A store transfers its bytes if it saw each page at its place. -/
theorem transferred_of_view {h : Heap} {t : PageTable} {vaddr : BitVec 64} {mem : List (BitVec 8)}
    {view : PageNumber → Page}
    (hview : ∀ n ∈ accessedPages vaddr mem.length, (view n).ptr = (pageAt h t n).ptr) :
    Transferred h t vaddr mem (h.apply (bulkEffects view vaddr mem)) := by
  have hwrites := bulkEffects_writes view vaddr mem
  have hptr : ∀ i < mem.length, (view (bytePage vaddr i)).ptr = (byteTarget h t vaddr i).1 :=
    fun i hi => hview _ (mem_accessedPages hi)
  constructor
  · intro i hi hlast
    rw [Heap.apply_mem_filter, hwrites]
    -- cut the list of stores at byte `i`
    have hcut : List.range mem.length =
        List.range i ++ i :: List.range' (i + 1) (mem.length - (i + 1)) := by
      rw [List.range_eq_range', List.range_eq_range', ← List.range'_succ]
      have := List.range'_append_1 (s := 0) (m := i) (n := mem.length - (i + 1) + 1)
      rw [Nat.zero_add] at this
      rw [this]
      congr 1
      omega
    rw [hcut, List.map_append, List.map_cons, ← hptr i hi]
    refine Eq.trans (Heap.apply_mem_of_last ?_) ?_
    · intro page' byte' hmem heq
      obtain ⟨j, hj, hwrite⟩ := List.mem_map.1 hmem
      obtain ⟨rfl, hoffset, -⟩ := Effect.write.inj hwrite
      rw [List.mem_range'_1] at hj
      rw [hptr j (by omega), hptr i hi] at heq
      exact hlast j (by omega) (by omega) (Prod.ext heq hoffset)
    · simp [List.getElem?_eq_getElem hi]
  · intro host offset hno
    rw [Heap.apply_mem_filter, hwrites]
    refine Heap.apply_mem_of_notMem fun page byte hmem heq => ?_
    obtain ⟨i, hi, hwrite⟩ := List.mem_map.1 hmem
    obtain ⟨rfl, hoffset, -⟩ := Effect.write.inj hwrite
    have hi := List.mem_range.1 hi
    rw [hptr i hi] at heq
    exact hno i hi (Prod.ext heq hoffset)

/-! ## Stores in place -/

/-- An access on the heap itself: the state is the lookup cache and the heap. -/
abbrev InPlace (α : Type) := Fallible (Option Tlb × Heap) Failure α

/-- A part of an access that leaves the heap alone. -/
def onCache {α : Type} (x : Heap → Access α) : InPlace α := fun s =>
  (((x s.2).run.run s.1).1, ((x s.2).run.run s.1).2, s.2)

theorem run_onCache {α : Type} (x : Heap → Access α) (cache : Option Tlb) (h : Heap) :
    (onCache x).run.run (cache, h) =
      (((x h).run.run cache).1, ((x h).run.run cache).2, h) :=
  rfl

/-- The access pass with the effects of each page performed at once. -/
def performPages (mmu : IoMMU) (access : PageNumber → Page → List Effect) :
    List PageNumber → InPlace Unit
  | [] => pure ()
  | n :: rest => do
    let page ← onCache fun h => getPageOrAbort h mmu n
    modify fun s => (s.1, s.2.apply (access n page))
    performPages mmu access rest

/-- `IoMMU::store`, and `store_force` without a required permission, on the heap. -/
def storeInPlace (mmu : IoMMU) (vaddr : BitVec 64) (mem : List (BitVec 8))
    (requiredProt : Option MemProt) : InPlace Unit :=
  if mem.length ≥ 2 ^ 64 then throw (.fault (.generalProtection (BitVec.allOnes 64)))
  else if mem.length = 0 then pure ()
  else if vaddr.toNat + mem.length > 2 ^ 64 then
    throw (.fault (.generalProtection (BitVec.allOnes 64)))
  else do
    onCache fun h =>
      verifyPages h mmu (verifyAccess requiredProt true) (pagesOf vaddr mem.length).reverse
    performPages mmu (fun n page =>
      writeBytes page (pageChunk vaddr mem.length n).1
        ((mem.drop (pageChunk vaddr mem.length n).2.2).take (pageChunk vaddr mem.length n).2.1) ++
        page.setDirty) (pagesOf vaddr mem.length)

/-- Effects do not change what a table resolves. -/
theorem getPage_apply (h : Heap) (effects : List Effect) (t : PageTable) (n : PageNumber) :
    t.getPage (h.apply effects) n = t.getPage h n := by
  obtain ⟨hpages, hslots, -, -⟩ := h.apply_frame effects
  have hhost : ∀ page, (h.apply effects).hostOf page = h.hostOf page := by
    intro page
    unfold Heap.hostOf
    rw [← List.getElem?_map, hpages, List.getElem?_map]
  have hentry : ∀ entry : PageEntry, entry.asPage (h.apply effects) = entry.asPage h := by
    intro entry
    have hpage : entry.source.page? (h.apply effects) = entry.source.page? h := by
      cases entry.source with
      | shared p => rfl
      | priv p wp => rfl
      | object slot sh =>
        show Heap.residentPage _ slot = Heap.residentPage _ slot
        unfold Heap.residentPage
        rw [hslots]
    unfold PageEntry.asPage
    rw [hpage]
    simp only [hhost]
  unfold PageTable.getPage
  simp only [hentry]

theorem pageAt_apply (h : Heap) (effects : List Effect) (t : PageTable) (n : PageNumber) :
    pageAt (h.apply effects) t n = pageAt h t n := by
  unfold pageAt
  rw [getPage_apply]

theorem hitsAgree_apply (effects : List Effect) :
    HitsAgree same among (h.apply effects) mmu = HitsAgree same among h mmu := by
  unfold HitsAgree
  simp only [getPage_apply]

/-- The access pass in place: the effects are those on the pages it saw. -/
theorem performPages_spec [Std.Refl same] (access : PageNumber → Page → List Effect)
    {ns : List PageNumber} (hns : ∀ n ∈ ns, n ∈ among) (hnodup : ns.Nodup)
    (hfound : ∀ n ∈ ns, ∃ page, mmu.table.getPage h n = .ok page) {cache : Option Tlb}
    (hc : HitsAgree same among h mmu cache) :
    ∃ (view : PageNumber → Page) (cache' : Option Tlb),
      (∀ n ∈ ns, same (view n) (pageAt h mmu.table n)) ∧
      (performPages mmu access ns).run.run (cache, h) =
        (.ok (), cache', h.apply (ns.flatMap fun n => access n (view n))) := by
  induction ns generalizing h cache with
  | nil => exact ⟨pageAt h mmu.table, cache, fun n hn => (by cases hn), rfl⟩
  | cons n ns ih =>
    obtain ⟨hnot, hrest⟩ := List.nodup_cons.1 hnodup
    obtain ⟨hc₁, hr⟩ := ends_getPageOrAbort (hns n List.mem_cons_self)
      (hfound n List.mem_cons_self) cache hc
    cases hlookup : ((getPageOrAbort h mmu n).run.run cache).1 with
    | error e =>
      rw [hlookup] at hr
      exact hr.elim
    | ok page =>
      rw [hlookup] at hr
      -- the rest runs on the heap with the effects of this page
      obtain ⟨view, cache', hview, hrun⟩ := ih (h := h.apply (access n page))
        (fun k hk => hns k (List.mem_cons_of_mem _ hk)) hrest
        (fun k hk => by
          rw [getPage_apply]
          exact hfound k (List.mem_cons_of_mem _ hk))
        (by rw [hitsAgree_apply]; exact hc₁)
      simp only [pageAt_apply] at hview
      obtain ⟨hself, hothers⟩ := view_cons hnot hr hview
      refine ⟨Function.update view n page, cache', hself, ?_⟩
      have heffects : ns.flatMap (fun k => access k (Function.update view n page k)) =
          ns.flatMap fun k => access k (view k) :=
        List.flatMap_congr fun k hk => by rw [hothers k hk]
      have happend : h.apply (access n page ++ ns.flatMap fun k => access k (view k)) =
          (h.apply (access n page)).apply (ns.flatMap fun k => access k (view k)) := by
        unfold Heap.apply
        rw [List.foldl_append]
      rw [List.flatMap_cons, Function.update_self, heffects, happend, performPages, run_bind,
        run_onCache, hlookup]
      exact hrun

/-- A store in place either performs the effects of a bulk store on the pages it saw, or
    faults and leaves the heap as it was. -/
theorem storeInPlace_spec [Std.Refl same] (vaddr : BitVec 64) {mem : List (BitVec 8)}
    {requiredProt : Option MemProt}
    (hverify : ∀ page page', same page page' →
      verifyAccess requiredProt true page = verifyAccess requiredProt true page')
    (hsize : mem.length < 2 ^ 64) (hin : ∀ i < mem.length, bytePage vaddr i ∈ among)
    {cache : Option Tlb} (hc : HitsAgree same among h mmu cache) :
    (BulkAllowed h mmu.table requiredProt true vaddr mem.length ∧
      ∃ (view : PageNumber → Page) (cache' : Option Tlb),
        (∀ n ∈ accessedPages vaddr mem.length, same (view n) (pageAt h mmu.table n)) ∧
        (storeInPlace mmu vaddr mem requiredProt).run.run (cache, h) =
          (.ok (), cache', h.apply (bulkEffects view vaddr mem))) ∨
    (¬ BulkAllowed h mmu.table requiredProt true vaddr mem.length ∧
      ∃ f cache', (storeInPlace mmu vaddr mem requiredProt).run.run (cache, h) =
        (.error (.fault f), cache', h)) := by
  have hpages := accessedPages_mem hin
  unfold storeInPlace bulkEffects
  unfold accessedPages at hpages ⊢
  rw [if_neg (not_le.2 hsize)]
  by_cases hzero : mem.length = 0
  · rw [if_pos hzero, if_pos hzero]
    exact .inl ⟨.inl hzero, pageAt h mmu.table, cache, fun n hn => (by cases hn), rfl⟩
  · rw [if_neg hzero] at hpages
    have hlen := Nat.pos_of_ne_zero hzero
    rw [if_neg hzero, if_neg hzero]
    by_cases hwrap : vaddr.toNat + mem.length > 2 ^ 64
    · rw [if_pos hwrap]
      exact .inr ⟨not_bulkAllowed_of_wrap hzero hwrap, _, cache, rfl⟩
    · rw [if_neg hwrap]
      have hreverse : ∀ n ∈ (pagesOf vaddr mem.length).reverse, n ∈ among :=
        fun n hn => hpages n (List.mem_reverse.1 hn)
      obtain ⟨hc', hr⟩ := ends_verifyPages hverify hreverse cache hc
      rw [run_bind, run_onCache]
      cases hrun : ((verifyPages h mmu (verifyAccess requiredProt true)
          (pagesOf vaddr mem.length).reverse).run.run cache).1 with
      | ok _ =>
        rw [hrun] at hr
        have ha := bulkAllowed_of_pages hlen (not_lt.1 hwrap) hr
        obtain ⟨view, cache', hview, hperform⟩ := performPages_spec (fun n page =>
          writeBytes page (pageChunk vaddr mem.length n).1
            ((mem.drop (pageChunk vaddr mem.length n).2.2).take
              (pageChunk vaddr mem.length n).2.1) ++
            page.setDirty) hpages List.nodup_range' (fun n hn => (ha.pages hlen n hn).found) hc'
        exact .inl ⟨ha, view, cache', hview, hperform⟩
      | error e =>
        rw [hrun] at hr
        obtain ⟨earlier, n, later, hsplit, -, hn, rfl⟩ := hr
        exact .inr ⟨not_bulkAllowed_of_page hlen hsplit hn, _, _, rfl⟩

/-- With a cache that agrees with the table, the effects are those on the pages of the table. -/
theorem storeInPlace_consistent (vaddr : BitVec 64) {mem : List (BitVec 8)}
    (requiredProt : Option MemProt) (hsize : mem.length < 2 ^ 64) {cache : Option Tlb}
    (hc : Consistent h mmu cache) :
    (BulkAllowed h mmu.table requiredProt true vaddr mem.length ∧
      ∃ cache', (storeInPlace mmu vaddr mem requiredProt).run.run (cache, h) =
        (.ok (), cache', h.apply (bulkEffects (pageAt h mmu.table) vaddr mem))) ∨
    (¬ BulkAllowed h mmu.table requiredProt true vaddr mem.length ∧
      ∃ f cache', (storeInPlace mmu vaddr mem requiredProt).run.run (cache, h) =
        (.error (.fault f), cache', h)) := by
  rw [consistent_eq_hitsAgree] at hc
  refine (storeInPlace_spec vaddr (fun page page' heq => by rw [heq]) hsize
    (fun i _ => Set.mem_univ _) hc).imp ?_ id
  rintro ⟨ha, view, cache', hview, hrun⟩
  rw [bulkEffects_congr hview] at hrun
  exact ⟨ha, cache', hrun⟩

/-! ## The arithmetic of the access loop -/

/-- The unchecked operations of `mem_access` on an access of `len` bytes, in the order of
    the source (lines 457–518): no subtraction below zero, no sum or product of `u64` or
    `usize` out of range, no offset outside the page or the buffer. -/
structure AccessInRange (vaddr : BitVec 64) (len : ℕ) : Prop where
  pageCount : PageNumber.fromVaddr vaddr ≤ (vaddr.toNat + len - 1) / PAGE_SIZE ∧
    PageNumber.fromVaddr vaddr + (pagesOf vaddr len).length < 2 ^ 64
  lastPageEnd : (vaddr.toNat + len - 1) % PAGE_SIZE + 1 ≤ PAGE_SIZE
  pagesBefore : ∀ n ∈ pagesOf vaddr len, PageNumber.fromVaddr vaddr ≤ n ∧
    (n - PageNumber.fromVaddr vaddr) * PAGE_SIZE + (pageChunk vaddr len n).1 < 2 ^ 64
  dstStart : ∀ n ∈ pagesOf vaddr len,
    pageOffset vaddr ≤ (n - PageNumber.fromVaddr vaddr) * PAGE_SIZE + (pageChunk vaddr len n).1
  count : ∀ n ∈ pagesOf vaddr len, 0 < (pageChunk vaddr len n).2.1 ∧
    (pageChunk vaddr len n).1 + (pageChunk vaddr len n).2.1 ≤ PAGE_SIZE ∧
    (pageChunk vaddr len n).2.2 + (pageChunk vaddr len n).2.1 ≤ len

theorem range_arith {a len n : ℕ} (hlen : 0 < len) (hwrap : a + len ≤ 2 ^ 64)
    (hn : n ∈ List.range' (a / 4096) ((a + len - 1) / 4096 - a / 4096 + 1)) :
    a / 4096 ≤ n ∧ (n - a / 4096) * 4096 + (max a (n * 4096) - n * 4096) < 2 ^ 64 ∧
      a % 4096 ≤ (n - a / 4096) * 4096 + (max a (n * 4096) - n * 4096) := by
  rw [List.mem_range'_1] at hn
  refine ⟨?_, ?_, ?_⟩
  · omega
  · omega
  · omega

theorem count_arith {a len : ℕ} (hlen : 0 < len) (hwrap : a + len ≤ 2 ^ 64) :
    a / 4096 ≤ (a + len - 1) / 4096 ∧
      a / 4096 + ((a + len - 1) / 4096 - a / 4096 + 1) < 2 ^ 64 := by
  omega

theorem accessInRange {vaddr : BitVec 64} {len : ℕ} (hlen : 0 < len)
    (hwrap : vaddr.toNat + len ≤ 2 ^ 64) : AccessInRange vaddr len where
  pageCount := by
    obtain ⟨hle, hlt⟩ := count_arith hlen hwrap
    refine ⟨hle, ?_⟩
    unfold pagesOf
    rw [List.length_range']
    exact hlt
  lastPageEnd := Nat.mod_lt _ PAGE_SIZE_pos
  pagesBefore := by
    intro n hn
    obtain ⟨hle, hlt, -⟩ := range_arith hlen hwrap hn
    rw [pageChunk_eq hlen hn]
    exact ⟨hle, hlt⟩
  dstStart := by
    intro n hn
    obtain ⟨-, -, hoffset⟩ := range_arith hlen hwrap hn
    rw [pageChunk_eq hlen hn]
    exact hoffset
  count := fun n hn => pageChunk_bounds hlen hn

/-! ## Hits that make no difference -/

/-- The permission an access requires: the forced accesses drop the test. -/
def requiredProt (force : Bool) (prot : MemProt) : Option MemProt :=
  if force then none else some prot

/-- No bulk access can tell two pages apart: both or neither are copy-on-write, both or
    neither can be read, and their bytes are the same; and if they are not copy-on-write,
    both or neither can be written, and they are one host page. -/
structure SameAccess (h : Heap) (page page' : Page) : Prop where
  cow : page.flags.containsAny MemFlags.COW = page'.flags.containsAny MemFlags.COW
  read : page.flags.containsAny MemFlags.READ = page'.flags.containsAny MemFlags.READ
  bytes : ∀ offset < PAGE_SIZE, h.mem page.ptr offset = h.mem page'.ptr offset
  write : page'.flags.containsAny MemFlags.COW = false →
    page.flags.containsAny MemFlags.WRITE = page'.flags.containsAny MemFlags.WRITE
  ptr : page'.flags.containsAny MemFlags.COW = false → page.ptr = page'.ptr

instance (h : Heap) : Std.Refl (SameAccess h) where
  refl _ := ⟨rfl, rfl, fun _ _ => rfl, fun _ => rfl, fun _ => rfl⟩

namespace SameAccess

variable {page page' : Page}

/-- Both pass the test of a load, or both fail it. -/
theorem verify_load (hs : SameAccess h page page') (force : Bool) :
    verifyAccess (requiredProt force MemProt.READ) false page =
      verifyAccess (requiredProt force MemProt.READ) false page' := by
  cases force with
  | true => rfl
  | false => exact hs.read

/-- Both pass the test of a store, or both fail it. -/
theorem verify_store (hs : SameAccess h page page') (force : Bool) :
    verifyAccess (requiredProt force MemProt.WRITE) true page =
      verifyAccess (requiredProt force MemProt.WRITE) true page' := by
  unfold verifyAccess
  rw [hs.cow]
  cases hcow : page'.flags.containsAny MemFlags.COW with
  | true => rfl
  | false =>
    cases force with
    | true => rfl
    | false => exact hs.write hcow

end SameAccess

/-- A page that a store can access is not copy-on-write. -/
theorem pageAt_noCow {t : PageTable} {prot : Option MemProt} {n : PageNumber}
    (ha : t.Accessible h prot true n) :
    (pageAt h t n).flags.containsAny MemFlags.COW = false := by
  obtain ⟨page, hpage, hv⟩ := accessible_iff.1 ha
  rw [pageAt_eq hpage]
  unfold verifyAccess at hv
  cases hcow : page.flags.containsAny MemFlags.COW with
  | false => rfl
  | true =>
    rw [hcow] at hv
    cases hv

/-! ## Bulk accesses are exact -/

/-- A load succeeds exactly where it may, with the bytes of the range, and does not
    abort. -/
structure LoadExact (h : Heap) (mmu : IoMMU) (cache : Option Tlb) (vaddr : BitVec 64) (len : ℕ)
    (requiredProt : Option MemProt) : Prop where
  ok_iff : (∃ bytes, ((load h mmu vaddr len requiredProt).run.run cache).1 = .ok bytes) ↔
    BulkAllowed h mmu.table requiredProt false vaddr len
  bytes : ∀ bytes, ((load h mmu vaddr len requiredProt).run.run cache).1 = .ok bytes →
    bytes = guestBytes h mmu.table vaddr len
  noAbort : ((load h mmu vaddr len requiredProt).run.run cache).1 ≠ .error .abort

theorem loadExact {cache : Option Tlb} (hc : HitsAgree (SameAccess h) among h mmu cache)
    (force : Bool) (vaddr : BitVec 64) {len : ℕ} (hsize : len < 2 ^ 64)
    (hin : ∀ i < len, bytePage vaddr i ∈ among) :
    LoadExact h mmu cache vaddr len (requiredProt force MemProt.READ) := by
  have hends : Ends (HitsAgree (SameAccess h) among h mmu)
      (load h mmu vaddr len (requiredProt force MemProt.READ)) _ _ :=
    ends_memAccess _ (fun _ _ hs => hs.verify_load force) hsize hin
  obtain ⟨-, hr⟩ := hends cache hc
  cases hrun : ((load h mmu vaddr len (requiredProt force MemProt.READ)).run.run cache).1 with
  | ok out =>
    rw [hrun] at hr
    obtain ⟨ha, view, hview, rfl⟩ := hr
    refine ⟨by rw [hrun]; exact ⟨fun _ => ha, fun _ => ⟨_, rfl⟩⟩, fun bytes hok => ?_, ?_⟩
    · rw [hrun] at hok
      refine (Except.ok.inj hok).symm.trans (loadBytes_eq fun n hn offset hoffset => ?_)
      exact (hview n hn).bytes offset hoffset
    · rw [hrun]
      intro habort
      cases habort
  | error e =>
    rw [hrun] at hr
    obtain ⟨hno, f, rfl⟩ := hr
    refine ⟨⟨fun ⟨bytes, hok⟩ => ?_, fun ha => absurd ha hno⟩, fun bytes hok => ?_, ?_⟩
    · rw [hrun] at hok
      cases hok
    · rw [hrun] at hok
      cases hok
    · rw [hrun]
      intro habort
      cases habort

/-- A store succeeds exactly where it may, and then the bytes are in their places; if it
    fails, the heap is as it was. It does not abort. -/
structure StoreExact (h : Heap) (mmu : IoMMU) (cache : Option Tlb) (vaddr : BitVec 64)
    (mem : List (BitVec 8)) (requiredProt : Option MemProt) : Prop where
  ok_iff : ((storeInPlace mmu vaddr mem requiredProt).run.run (cache, h)).1 = .ok () ↔
    BulkAllowed h mmu.table requiredProt true vaddr mem.length
  transferred : ((storeInPlace mmu vaddr mem requiredProt).run.run (cache, h)).1 = .ok () →
    Transferred h mmu.table vaddr mem
      ((storeInPlace mmu vaddr mem requiredProt).run.run (cache, h)).2.2
  unchanged : ∀ e, ((storeInPlace mmu vaddr mem requiredProt).run.run (cache, h)).1 = .error e →
    ((storeInPlace mmu vaddr mem requiredProt).run.run (cache, h)).2.2 = h
  noAbort : ((storeInPlace mmu vaddr mem requiredProt).run.run (cache, h)).1 ≠ .error .abort

theorem storeExact {cache : Option Tlb} (hc : HitsAgree (SameAccess h) among h mmu cache)
    (force : Bool) (vaddr : BitVec 64) {mem : List (BitVec 8)} (hsize : mem.length < 2 ^ 64)
    (hin : ∀ i < mem.length, bytePage vaddr i ∈ among) :
    StoreExact h mmu cache vaddr mem (requiredProt force MemProt.WRITE) := by
  obtain ⟨ha, view, cache', hview, hrun⟩ | ⟨ha, f, cache', hrun⟩ :=
    storeInPlace_spec vaddr (fun _ _ hs => SameAccess.verify_store hs force) hsize hin hc
  · constructor
    · rw [hrun]
      exact ⟨fun _ => ha, fun _ => rfl⟩
    · rw [hrun]
      refine fun _ => transferred_of_view fun n hn =>
        (hview n hn).ptr (pageAt_noCow (ha.accessed n hn))
    · rw [hrun]
      intro e he
      cases he
    · rw [hrun]
      intro habort
      cases habort
  · constructor
    · rw [hrun]
      refine ⟨fun hok => ?_, fun ha' => absurd ha' ha⟩
      cases hok
    · rw [hrun]
      intro hok
      cases hok
    · rw [hrun]
      exact fun _ _ => rfl
    · rw [hrun]
      intro habort
      cases habort

/-- `load` and `store` of a range, or `load_force` and `store_force`, are exact and
    all-or-nothing, and the access loop stays in range. -/
structure BulkExact (h : Heap) (mmu : IoMMU) (cache : Option Tlb) (force : Bool)
    (vaddr : BitVec 64) (len : ℕ) : Prop where
  load : LoadExact h mmu cache vaddr len (requiredProt force MemProt.READ)
  store : ∀ mem : List (BitVec 8), mem.length = len →
    StoreExact h mmu cache vaddr mem (requiredProt force MemProt.WRITE)
  inRange : 0 < len → vaddr.toNat + len ≤ 2 ^ 64 → AccessInRange vaddr len

/-- Where no hit on a page of the range is stale, the accesses to it are exact. -/
theorem bulk_exact {cache : Option Tlb} (hc : HitsAgree (SameAccess h) among h mmu cache)
    (force : Bool) (vaddr : BitVec 64) {len : ℕ} (hsize : len < 2 ^ 64)
    (hin : ∀ i < len, bytePage vaddr i ∈ among) : BulkExact h mmu cache force vaddr len where
  load := loadExact hc force vaddr hsize hin
  store := by
    rintro mem rfl
    exact storeExact hc force vaddr hsize hin
  inRange := accessInRange

/-- In a run whose tokens are fresh and whose forks are clean all bulk accesses are exact. -/
theorem bulk_exact_run {calls : List (Op × Token)}
    (hok : World.Meets World.CallOk World.init calls) {m : ℕ} {mmu : IoMMU}
    (hm : (World.init.run calls).mmu? m = some mmu) (c : Option ℕ) (force : Bool)
    (vaddr : BitVec 64) {len : ℕ} (hsize : len < 2 ^ 64) :
    BulkExact (World.init.run calls).heap mmu ((World.init.run calls).cache c) force vaddr len := by
  have hhits : HitsAgree (SameAccess (World.init.run calls).heap) Set.univ
      (World.init.run calls).heap mmu ((World.init.run calls).cache c) :=
    (consistent_run hok hm c).hitsAgree
  exact bulk_exact hhits force vaddr hsize fun i _ => Set.mem_univ _

/-! ## One byte of a page that hits -/

theorem MAX_eq : PageNumber.MAX = 4503599627370495 := by
  decide

section OneByte

variable {tlb : Tlb} {vaddr : BitVec 64} {page : Page}

variable (hhit : tlb.hit (bytePage vaddr 0) mmu.identifier = some page)

include hhit

variable (hexact : ∀ force, BulkExact h mmu (some tlb) force vaddr 1)

include hexact

variable {page' : Page} (hp : mmu.table.getPage h (bytePage vaddr 0) = .ok page')

include hp

end OneByte

/-- A heap with two pages, and an MMU that maps them as pages 4 and 5. -/
def twoPages : Heap × IoMMU :=
  ({ pages := [⟨.alloc 0, 0⟩, ⟨.alloc 1, 0⟩], slots := [], mem := fun _ _ => 7, zeroPage := none,
      nextHost := 2 },
    ⟨0, { entries := [(4, ⟨.priv 0 false, 0b011⟩),
      (5, ⟨.priv 1 false, 0b011⟩)], nodup := by decide }⟩)

end RapidArm.Mmu
