import RapidArm.Mmu.Fork
import RapidArm.Mmu.Scalar
import RapidArm.Lib.Trace

/-!
# Invalidating the instruction cache

`IoMMU::refresh` (`io-mmu/src/lib.rs`, lines 1251–1255) runs `PageEntry::flush_dyn`
(`io-mmu/src/page_table.rs`, lines 480–576) on every entry: a page with its dirty or its
flushing flag set is reported to `ICache::invalidate`, any other is skipped. The flag is
set by stores, and only through a mapping that is executable or a shared object page.

A `Traced` world remembers the stores that changed a host page since it was last
reported, each with the page objects that were dirty after it.

Results:
* `refresh_invalidates_iff`: the refreshes of a run report every executable page that
  was changed if and only if, at each of them, a page that some store changed and left
  clean is flagged by now (reports of pages that are freed left aside).
* `protect_after_store`: a page that is written and made executable afterwards.
-/

namespace RapidArm.Mmu

open RapidArm.Ir RapidArm.Lib

/-! ## Flushing a page -/

/-- `BOTH_DIRTY_MASK`. -/
def BOTH_DIRTY_MASK : BitVec 8 := IS_DIRTY_FLAG ||| IS_FLUSHING_DIRTY_PAGE

/-- The dirty or the flushing flag is set. -/
def MemoryBackedPage.flagged (p : MemoryBackedPage) : Bool := p.flags &&& BOTH_DIRTY_MASK != 0

/-- The flags that `flush_dyn` has set when it calls `invalidate`: one arm of the `match`
    for each combination. -/
def flushingFlags (flags : BitVec 8) : BitVec 8 :=
  if flags &&& BOTH_DIRTY_MASK = IS_DIRTY_FLAG then flags ^^^ BOTH_DIRTY_MASK
  else if flags &&& BOTH_DIRTY_MASK = BOTH_DIRTY_MASK then flags &&& ~~~ IS_DIRTY_FLAG
  else flags

/-- `flush_dyn`: the heap after it, and the host pages it reports to `invalidate`. -/
def flushEntry (h : Heap) (entry : PageEntry) : Heap × List HostPage :=
  match entry.source.page? h with
  | none => (h, [])
  | some page =>
    match h.pages[page]? with
    | none => (h, [])
    | some p =>
      if p.flagged then
        ({ h with pages := h.pages.modify page fun p =>
            { p with flags := flushingFlags p.flags &&& ~~~ IS_FLUSHING_DIRTY_PAGE } },
          [p.allocatedPage])
      else (h, [])

/-- The loop of `refresh`. -/
def refreshEntries (h : Heap) : List (PageNumber × PageEntry) → Heap × List HostPage
  | [] => (h, [])
  | p :: entries =>
    let (h₁, log) := flushEntry h p.2
    let (h₂, log') := refreshEntries h₁ entries
    (h₂, log ++ log')

/-- The host pages that `refresh` of an MMU reports. -/
def World.invalidated (w : World) (m : ℕ) : List HostPage :=
  match w.mmu? m with
  | none => []
  | some mmu => (refreshEntries w.heap mmu.table.entries).2

theorem flush_clears (flags : BitVec 8) :
    flushingFlags flags &&& ~~~ IS_FLUSHING_DIRTY_PAGE = flags &&& ~~~ BOTH_DIRTY_MASK := by
  revert flags
  decide

theorem flush_clean (flags : BitVec 8) (hclean : (flags &&& BOTH_DIRTY_MASK != 0) = false) :
    flags &&& ~~~ BOTH_DIRTY_MASK = flags := by
  revert flags
  decide

/-- The flags of a page object cleared. -/
def Heap.clearFlags (h : Heap) (page : PageId) : Heap :=
  { h with pages := h.pages.modify page fun p =>
    { p with flags := p.flags &&& ~~~ BOTH_DIRTY_MASK } }

/-- A page that is not flagged is as it would be after a flush. -/
theorem flushEntry_heap (h : Heap) (entry : PageEntry) :
    (flushEntry h entry).1 = match entry.source.page? h with
      | some page => h.clearFlags page
      | none => h := by
  unfold flushEntry
  cases entry.source.page? h with
  | none => rfl
  | some page =>
    cases hp : h.pages[page]? with
    | none =>
      have hlen : h.pages.length ≤ page := List.getElem?_eq_none_iff.1 hp
      simp only [hp, Heap.clearFlags, List.modify_eq_self hlen]
    | some p =>
      by_cases hflag : p.flagged = true
      · simp only [hp, hflag, if_true, Heap.clearFlags, flush_clears]
      · rw [Bool.not_eq_true] at hflag
        have hsame :
            h.pages.modify page (fun p => { p with flags := p.flags &&& ~~~ BOTH_DIRTY_MASK }) =
            h.pages := by
          apply List.ext_getElem?
          intro k
          rw [List.getElem?_modify]
          by_cases hk : page = k
          · subst hk
            rw [hp]
            simp [flush_clean p.flags hflag]
          · simp [hk]
        simp only [hp, hflag, Bool.false_eq_true, if_false, Heap.clearFlags, hsame]

/-- The heap after the loop is that of `World.refresh`. -/
theorem refreshEntries_heap (h : Heap) (entries : List (PageNumber × PageEntry)) :
    (refreshEntries h entries).1 = entries.foldl (fun h p =>
      match p.2.source.page? h with
      | some page => { h with pages := h.pages.modify page fun pg =>
          { pg with flags := pg.flags &&& ~~~ (IS_DIRTY_FLAG ||| IS_FLUSHING_DIRTY_PAGE) } }
      | none => h) h := by
  induction entries generalizing h with
  | nil => rfl
  | cons p entries ih =>
    simp only [refreshEntries, List.foldl_cons]
    rw [ih, flushEntry_heap]
    rfl

theorem refreshEntries_refresh {w : World} {m : ℕ} {mmu : IoMMU} (hm : w.mmu? m = some mmu) :
    (w.refresh m).heap = (refreshEntries w.heap mmu.table.entries).1 := by
  rw [refreshEntries_heap]
  unfold World.refresh
  generalize w.mmu? m = found at hm ⊢
  subst hm
  rfl

/-! ## What a refresh reports -/

/-- A page object of a heap is flagged. -/
def Heap.flagged (h : Heap) (page : PageId) : Bool := (h.pages[page]?).any (·.flagged)

/-- A source resolves to a flagged page object on this host page. -/
def PageSource.Reported (h : Heap) (source : PageSource) (host : HostPage) : Prop :=
  ∃ page, source.page? h = some page ∧ h.hostOf page = some host ∧ h.flagged page = true

theorem flagged_clear (p : MemoryBackedPage) :
    ({ p with flags := p.flags &&& ~~~ BOTH_DIRTY_MASK } : MemoryBackedPage).flagged = false := by
  have hclear : ∀ flags : BitVec 8, (flags &&& ~~~ BOTH_DIRTY_MASK &&& BOTH_DIRTY_MASK != 0) =
      false := by
    decide
  exact hclear p.flags

section Clear

variable (h : Heap) (page k : PageId)

theorem Heap.flagged_clearFlags :
    (h.clearFlags page).flagged k = if k = page then false else h.flagged k := by
  unfold Heap.flagged Heap.clearFlags
  simp only [List.getElem?_modify]
  by_cases hk : k = page
  · subst hk
    simp only [if_true]
    cases h.pages[k]? with
    | none => rfl
    | some p => exact flagged_clear p
  · have hne : ¬ page = k := fun heq => hk heq.symm
    simp only [hk, hne, if_false]
    cases h.pages[k]? <;> rfl

theorem Heap.hostOf_clearFlags : (h.clearFlags page).hostOf k = h.hostOf k := by
  unfold Heap.hostOf Heap.clearFlags
  simp only [List.getElem?_modify]
  by_cases hk : page = k
  · simp only [hk, if_true]
    cases h.pages[k]? <;> rfl
  · simp only [hk, if_false]
    cases h.pages[k]? <;> rfl

theorem Heap.page?_clearFlags (source : PageSource) :
    source.page? (h.clearFlags page) = source.page? h := by
  cases source <;> rfl

end Clear

theorem mem_flushEntry {h : Heap} {entry : PageEntry} {host : HostPage} :
    host ∈ (flushEntry h entry).2 ↔ entry.source.Reported h host := by
  unfold flushEntry PageSource.Reported
  cases entry.source.page? h with
  | none => simp
  | some page =>
    simp only [Option.some.injEq, exists_eq_left']
    unfold Heap.hostOf Heap.flagged
    cases h.pages[page]? with
    | none => simp
    | some p =>
      by_cases hflag : p.flagged = true
      · simp [hflag, eq_comm]
      · simp [hflag]

/-- A refresh reports the host pages of the flagged page objects that its entries resolve
    to, and a page object that is not reported keeps its flags. -/
theorem refreshEntries_spec (h : Heap) (entries : List (PageNumber × PageEntry)) :
    (∀ host, host ∈ (refreshEntries h entries).2 ↔
      ∃ p ∈ entries, p.2.source.Reported h host) ∧
    ∀ page host, h.hostOf page = some host → (refreshEntries h entries).1.hostOf page = some host ∧
      (h.flagged page = true → (refreshEntries h entries).1.flagged page = true ∨
        host ∈ (refreshEntries h entries).2) := by
  induction entries generalizing h with
  | nil => exact ⟨fun host => by simp [refreshEntries], fun page host hhost => ⟨hhost, .inl⟩⟩
  | cons q entries ih =>
    obtain ⟨hreported, hkept⟩ := ih (flushEntry h q.2).1
    have hhead := fun host => @mem_flushEntry h q.2 host
    have hheap := flushEntry_heap h q.2
    simp only [refreshEntries, List.mem_append]
    -- the pages of the other entries, before and after this one is flushed
    have hbefore : ∀ source host, PageSource.Reported (flushEntry h q.2).1 source host →
        source.Reported h host := by
      rintro source host ⟨page, hpage, hhost, hflag⟩
      rw [hheap] at hpage hhost hflag
      cases hq : q.2.source.page? h with
      | none =>
        rw [hq] at hpage hhost hflag
        exact ⟨page, hpage, hhost, hflag⟩
      | some page' =>
        rw [hq] at hpage hhost hflag
        simp only [Heap.page?_clearFlags, Heap.hostOf_clearFlags,
          Heap.flagged_clearFlags] at hpage hhost hflag
        refine ⟨page, hpage, hhost, ?_⟩
        by_cases hk : page = page'
        · rw [if_pos hk] at hflag
          cases hflag
        · rw [if_neg hk] at hflag
          exact hflag
    have hafter : ∀ source host, PageSource.Reported h source host →
        source.Reported (flushEntry h q.2).1 host ∨ host ∈ (flushEntry h q.2).2 := by
      rintro source host ⟨page, hpage, hhost, hflag⟩
      cases hq : q.2.source.page? h with
      | none =>
        rw [hq] at hheap
        rw [hheap]
        exact .inl ⟨page, hpage, hhost, hflag⟩
      | some page' =>
        rw [hq] at hheap
        by_cases hk : page = page'
        · rw [hhead]
          exact .inr ⟨page, hk ▸ hq, hhost, hflag⟩
        · rw [hheap]
          refine .inl ⟨page, ?_, ?_, ?_⟩
          · exact (h.page?_clearFlags page' source).trans hpage
          · exact (h.hostOf_clearFlags page' page).trans hhost
          · rw [Heap.flagged_clearFlags, if_neg hk]
            exact hflag
    constructor
    · intro host
      rw [hhead, hreported, List.exists_mem_cons_iff]
      constructor
      · rintro (hfirst | ⟨p, hp, hrest⟩)
        · exact .inl hfirst
        · exact .inr ⟨p, hp, hbefore _ _ hrest⟩
      · rintro (hfirst | ⟨p, hp, hrest⟩)
        · exact .inl hfirst
        · rcases hafter _ _ hrest with hlater | hnow
          · exact .inr ⟨p, hp, hlater⟩
          · exact .inl ((hhead host).1 hnow)
    · intro page host hhost
      -- the page itself, before and after this entry is flushed
      have hstep : (flushEntry h q.2).1.hostOf page = some host ∧ (h.flagged page = true →
          (flushEntry h q.2).1.flagged page = true ∨ host ∈ (flushEntry h q.2).2) := by
        refine ⟨?_, fun hflag => ?_⟩
        · rw [hheap]
          cases q.2.source.page? h with
          | none => exact hhost
          | some page' => exact (h.hostOf_clearFlags page' page).trans hhost
        · rcases hafter (.shared page) host ⟨page, rfl, hhost, hflag⟩ with
            ⟨page', hpage', -, hflag'⟩ | hnow
          · obtain rfl := Option.some.inj hpage'
            exact .inl hflag'
          · exact .inr hnow
      obtain ⟨hhost', hflags⟩ := hkept page host hstep.1
      refine ⟨hhost', fun hflag => ?_⟩
      rcases hstep.2 hflag with hstill | hnow
      · exact (hflags hstill).imp_right .inr
      · exact .inr (.inl hnow)

/-! ## Page objects keep their flags -/

/-- The page objects of a heap stay as they are; there may be new ones. -/
def Heap.AddsPages (h h' : Heap) : Prop := ∃ new, h'.pages = h.pages ++ new

theorem Heap.AddsPages.refl (h : Heap) : h.AddsPages h := ⟨[], (List.append_nil _).symm⟩

theorem Heap.AddsPages.trans {h₁ h₂ h₃ : Heap} (h₁₂ : h₁.AddsPages h₂) (h₂₃ : h₂.AddsPages h₃) :
    h₁.AddsPages h₃ := by
  obtain ⟨new, hnew⟩ := h₁₂
  obtain ⟨new', hnew'⟩ := h₂₃
  refine ⟨new ++ new', ?_⟩
  rw [hnew', hnew, List.append_assoc]

theorem Heap.AddsPages.flagged {h h' : Heap} (hadds : h.AddsPages h') {page : PageId}
    (hflag : h.flagged page = true) : h'.flagged page = true := by
  obtain ⟨new, hnew⟩ := hadds
  unfold Heap.flagged at hflag ⊢
  cases hp : h.pages[page]? with
  | none =>
    rw [hp] at hflag
    cases hflag
  | some p =>
    rw [hnew, List.getElem?_append_left (getElem?_eq_some_lt hp)]
    exact hflag

theorem Heap.addsPages_newSource (h : Heap) (region : MapRegion) (offset : ℕ) :
    h.AddsPages (region.newSource h offset).2 := by
  cases region with
  | object shared obj => exact ⟨[], (List.append_nil _).symm⟩
  | external flags ptr =>
    cases flags with
    | priv => exact ⟨_, rfl⟩
    | cow => exact ⟨_, rfl⟩
    | shared => exact ⟨_, rfl⟩
  | anon flags =>
    cases flags with
    | priv => exact ⟨_, rfl⟩
    | shared => exact ⟨_, rfl⟩
    | cow =>
      show h.AddsPages h.getZeroPage.2
      unfold Heap.getZeroPage
      cases h.zeroPage with
      | some page => exact .refl h
      | none => exact ⟨_, rfl⟩

theorem Heap.addsPages_mapPages (region : MapRegion) (prot : MemProt) (start : PageNumber)
    (pages : List PageNumber) (t : PageTable) (h : Heap) :
    h.AddsPages (mapPages region prot start pages t h).2 := by
  induction pages generalizing t h with
  | nil => exact .refl h
  | cons n pages ih => exact (h.addsPages_newSource region (n - start)).trans (ih _ _)

theorem Heap.addsPages_clonePage (h : Heap) (page : PageId) : h.AddsPages (h.clonePage page).2 := by
  unfold Heap.clonePage
  split_ifs
  · exact ⟨_, rfl⟩
  · cases h.hostOf page with
    | some host => exact ⟨_, rfl⟩
    | none => exact ⟨_, rfl⟩

namespace World

variable {w : World}

theorem addsPages_mapRegion (token : Token) (m : ℕ) (base size : BitVec 64) (prot : MemProt)
    (region : MapRegion) : w.heap.AddsPages (w.mapRegion token m base size prot region).heap := by
  unfold mapRegion
  split
  · unfold mapInner
    split
    · rename_i t h heq
      split at heq
      · cases heq
      · obtain ⟨rfl, rfl⟩ := Prod.mk.inj (Except.ok.inj heq)
        exact Heap.addsPages_mapPages ..
    · exact .refl _
  · exact .refl _

theorem addsPages_unCowAt (held : List PageId) (m : ℕ) (n : PageNumber) :
    w.heap.AddsPages (w.unCowAt held m n).heap := by
  cases hm : w.mmu? m with
  | none =>
    unfold unCowAt
    rw [hm]
    exact .refl _
  | some mmu =>
    obtain ⟨heq, -⟩ | ⟨page, prot, page', h', -, hpage, heq⟩ := unCowAt_cases held hm n
    · rw [heq]
      exact .refl _
    · rw [heq]
      show w.heap.AddsPages h'
      rcases hpage with ⟨hpage, -⟩ | ⟨hpage, -⟩
      · obtain ⟨-, rfl⟩ := Prod.mk.inj hpage
        exact .refl _
      · have hclone := w.heap.addsPages_clonePage page
        rw [← hpage] at hclone
        exact hclone

theorem addsPages_copyAllCowPages (token : Token) (m : ℕ) (held : List PageId) :
    w.heap.AddsPages (w.copyAllCowPages token m held).heap := by
  have hfold : ∀ (ns : List PageNumber) (w : World),
      w.heap.AddsPages (ns.foldl (fun w n => w.unCowAt held m n) w).heap := by
    intro ns
    induction ns with
    | nil => exact fun w => .refl _
    | cons n ns ih => exact fun w => (addsPages_unCowAt held m n).trans (ih _)
  unfold copyAllCowPages
  split
  · exact .refl _
  · rename_i mmu hm
    simp only
    split
    · exact hfold _ _
    · split_ifs
      · exact hfold _ _
      · exact hfold _ _

/-- A call other than a refresh leaves flagged page objects flagged. -/
theorem flagged_step {op : Op} (hop : ∀ m, op ≠ .refresh m) (token : Token) {page : PageId}
    (hflag : w.heap.flagged page = true) : (w.step op token).heap.flagged page = true := by
  have hload : ∀ {α : Type} m c (x : Heap → IoMMU → Access α), (w.runLoad m c x).heap = w.heap := by
    intro α m c x
    unfold runLoad
    split
    · rfl
    · exact setCache_heap _ _
  cases op with
  | newMmu => exact hflag
  | newTlb => exact hflag
  | dropMmu m => exact hflag
  | dropTlb t => exact hflag
  | map m base size lazy shared prot => exact (addsPages_mapRegion ..).flagged hflag
  | mapExtern m base size ptr readonly shared prot =>
    simp only [step]
    split
    · exact (addsPages_mapRegion ..).flagged hflag
    · exact hflag
  | mapDevice m base size device shared prot => exact (addsPages_mapRegion ..).flagged hflag
  | unmap m start size =>
    simp only [step, unmap]
    split
    · exact hflag
    · exact hflag
  | protect m start size prot =>
    simp only [step, protect]
    split
    · split
      · exact hflag
      · exact hflag
    · exact hflag
  | fork m =>
    cases hm : w.mmu? m with
    | none =>
      simp only [step, fork, hm]
      exact hflag
    | some mmu =>
      have hpages : (w.step (.fork m) token).heap.pages = w.heap.pages :=
        (fork_entries token hm).1.pages
      unfold Heap.flagged at hflag ⊢
      rw [hpages]
      exact hflag
  | copyAllCowPages m held => exact (addsPages_copyAllCowPages token m held).flagged hflag
  | faultIn slot bytes =>
    simp only [step, Heap.faultIn]
    split
    · exact Heap.AddsPages.flagged ⟨_, rfl⟩ hflag
    · exact hflag
  | refresh m => exact absurd rfl (hop m)
  | lookup m c n => exact (congrArg (fun h => h.flagged page) (hload m c _)).trans hflag
  | load m c vaddr len force => exact (congrArg (fun h => h.flagged page) (hload m c _)).trans hflag
  | scalarLoad m c width vaddr =>
    exact (congrArg (fun h => h.flagged page) (hload m c _)).trans hflag
  | store m c sop =>
    obtain ⟨-, hheap | ⟨mmu, effects, -, -, hheap⟩⟩ := w.runStore_cases m c sop
    · exact (congrArg (fun h => h.flagged page) hheap).trans hflag
    · refine (congrArg (fun h => h.flagged page) hheap).trans ?_
      unfold Heap.flagged at hflag ⊢
      rw [Heap.apply_pages]
      cases hp : w.heap.pages[page]? with
      | none =>
        rw [hp] at hflag
        cases hflag
      | some p =>
        rw [hp] at hflag
        have hmark : ∀ flags : BitVec 8, (flags &&& BOTH_DIRTY_MASK != 0) = true →
            ((flags ||| IS_DIRTY_FLAG) &&& BOTH_DIRTY_MASK != 0) = true := by
          decide
        rw [Option.map_some, Option.any_some]
        split_ifs
        · exact hmark p.flags hflag
        · exact hflag

end World

/-! ## Changes since a page was last reported -/

/-- A store that changed a host page, with the page objects that were dirty after it. -/
structure HostChange where
  host : HostPage
  dirty : Set PageId

/-- A world with the changes of each host page since a refresh last reported it. The report
    that `Drop for MemoryBackedPage` makes of a page that is freed is left out here: in a run
    with `unmap` or `dropMmu` a change may still be remembered that the code has reported, as
    when one of two page objects on external memory is freed. -/
structure Traced where
  world : World
  changes : Set HostChange

/-- The changes a store makes. -/
def storeChanges (w w' : World) : Set HostChange :=
  {c | (∃ i, w'.heap.mem c.host i ≠ w.heap.mem c.host i) ∧
    c.dirty = {page | w'.heap.isDirty page = true}}

/-- One call. -/
def Traced.step (s : Traced) (call : Op × Token) : Traced where
  world := s.world.step call.1 call.2
  changes :=
    match call.1 with
    | .store _ _ _ => s.changes ∪ storeChanges s.world (s.world.step call.1 call.2)
    | .refresh m => {c ∈ s.changes | c.host ∉ s.world.invalidated m}
    | _ => s.changes

/-- The world after a run, from the start, with the changes. -/
def Traced.run (calls : List (Op × Token)) : Traced :=
  calls.foldl Traced.step ⟨World.init, ∅⟩

theorem Traced.run_world (calls : List (Op × Token)) :
    (Traced.run calls).world = World.init.run calls := by
  have hfold : ∀ s : Traced, (calls.foldl Traced.step s).world = s.world.run calls := by
    induction calls with
    | nil => exact fun s => rfl
    | cons call calls ih => exact fun s => ih (s.step call)
  exact hfold _

/-- The page objects that a change left dirty exist, and are flagged as long as the change
    is not reported. -/
def Traced.Tracked (s : Traced) : Prop :=
  ∀ c ∈ s.changes, ∀ page ∈ c.dirty, page < s.world.heap.pages.length ∧
    (s.world.heap.hostOf page = some c.host → s.world.heap.flagged page = true)

theorem Heap.flagged_of_isDirty {h : Heap} {page : PageId} (hdirty : h.isDirty page = true) :
    page < h.pages.length ∧ h.flagged page = true := by
  unfold Heap.isDirty at hdirty
  unfold Heap.flagged
  cases hp : h.pages[page]? with
  | none =>
    rw [hp] at hdirty
    cases hdirty
  | some p =>
    rw [hp] at hdirty
    have hmask : ∀ flags : BitVec 8, (flags &&& IS_DIRTY_FLAG != 0) = true →
        (flags &&& BOTH_DIRTY_MASK != 0) = true := by
      decide
    exact ⟨getElem?_eq_some_lt hp, hmask p.flags hdirty⟩

theorem Heap.Le.pages_le {h h' : Heap} (hle : h.Le h') : h.pages.length ≤ h'.pages.length := by
  by_contra hlt
  obtain ⟨host, hhost⟩ := Heap.exists_hostOf (Nat.lt_of_not_le hlt)
  exact absurd (Heap.hostOf_lt (hle.host hhost)) (lt_irrefl _)

theorem Traced.Tracked.step {s : Traced} (hs : s.Tracked) (call : Op × Token) :
    (s.step call).Tracked := by
  obtain ⟨op, token⟩ := call
  have hle := World.heap_le_step s.world op token
  -- a change that is there already
  have hold : (∀ m, op ≠ .refresh m) → ∀ c ∈ s.changes, ∀ page ∈ c.dirty,
      page < (s.step (op, token)).world.heap.pages.length ∧
        ((s.step (op, token)).world.heap.hostOf page = some c.host →
          (s.step (op, token)).world.heap.flagged page = true) := by
    intro hop c hc page hpage
    obtain ⟨hlt, hflag⟩ := hs c hc page hpage
    refine ⟨lt_of_lt_of_le hlt hle.pages_le, fun hhost => World.flagged_step hop token (hflag ?_)⟩
    rw [← hle.hostOf_eq hlt]
    exact hhost
  cases op with
  | store m c sop =>
    rintro change (hc | ⟨-, hdirty⟩)
    · exact hold nofun change hc
    · intro page hpage
      rw [hdirty] at hpage
      obtain ⟨hlt, hflag⟩ := Heap.flagged_of_isDirty hpage
      exact ⟨hlt, fun _ => hflag⟩
  | refresh m =>
    rintro change ⟨hc, hnot⟩ page hpage
    obtain ⟨hlt, hflag⟩ := hs change hc page hpage
    refine ⟨lt_of_lt_of_le hlt hle.pages_le, fun hhost => ?_⟩
    rw [show (s.step (.refresh m, token)).world.heap.hostOf page = _ from
      hle.hostOf_eq hlt] at hhost
    have hwas := hflag hhost
    cases hm : s.world.mmu? m with
    | none =>
      have hsame : s.world.refresh m = s.world := by
        unfold World.refresh
        rw [hm]
      show (s.world.refresh m).heap.flagged page = true
      rw [hsame]
      exact hwas
    | some mmu =>
      show (s.world.refresh m).heap.flagged page = true
      rw [refreshEntries_refresh hm]
      unfold World.invalidated at hnot
      rw [hm] at hnot
      exact (((refreshEntries_spec s.world.heap mmu.table.entries).2 page _ hhost).2
        hwas).resolve_right
        hnot
  | _ => exact hold nofun

theorem Traced.tracked_run (calls : List (Op × Token)) : (Traced.run calls).Tracked := by
  have hfold : ∀ s : Traced, s.Tracked → (calls.foldl Traced.step s).Tracked := by
    induction calls with
    | nil => exact fun s hs => hs
    | cons call calls ih => exact fun s hs => ih (s.step call) (hs.step call)
  exact hfold _ fun c hc => by cases hc

/-! ## Refreshing an MMU -/

/-- An MMU maps the page with `EXECUTE`, through this page object and on this host page. -/
def World.Executes (w : World) (m : ℕ) (n : PageNumber) (page : PageId) (host : HostPage) : Prop :=
  ∃ entry, w.entryAt m n = some entry ∧ entry.protections &&& MemProt.EXECUTE ≠ 0 ∧
    entry.source.page? w.heap = some page ∧ w.heap.hostOf page = some host

/-- A refresh of the MMU reports every executable page that has changed. -/
def Traced.Refreshed (s : Traced) (m : ℕ) : Prop :=
  ∀ n page host, s.world.Executes m n page host → (∃ c ∈ s.changes, c.host = host) →
    host ∈ s.world.invalidated m

/-- Some entry of the MMU resolves to a flagged page object on the host page. -/
def World.FlaggedIn (w : World) (m : ℕ) (host : HostPage) : Prop :=
  ∃ n entry, w.entryAt m n = some entry ∧ entry.source.Reported w.heap host

/-- An executable page that a store changed and left clean is flagged by now. -/
def Traced.FlaggedByNow (s : Traced) (m : ℕ) : Prop :=
  ∀ n page host, s.world.Executes m n page host → ∀ c ∈ s.changes, c.host = host →
    page ∉ c.dirty → s.world.FlaggedIn m host

/-- At every refresh of a run `P` holds of the world before it and the MMU it refreshes. -/
def EveryRefresh (P : Traced → ℕ → Prop) (calls : List (Op × Token)) : Prop :=
  Always (fun before call => ∀ m, call.1 = .refresh m → P (Traced.run before) m) calls

theorem World.mem_invalidated {w : World} {m : ℕ} {host : HostPage} :
    host ∈ w.invalidated m ↔ w.FlaggedIn m host := by
  unfold World.invalidated World.FlaggedIn World.entryAt
  cases w.mmu? m with
  | none => simp
  | some mmu =>
    simp only [Option.bind_some]
    rw [(refreshEntries_spec w.heap mmu.table.entries).1]
    constructor
    · rintro ⟨⟨n, entry⟩, hmem, hreported⟩
      exact ⟨n, entry, PageTable.get?_of_mem_entries hmem, hreported⟩
    · rintro ⟨n, entry, hget, hreported⟩
      exact ⟨(n, entry), PageTable.mem_entries_of_get? hget, hreported⟩

/-- A change that left the page dirty is reported, as the page is flagged until then. -/
theorem Traced.Tracked.flaggedIn {s : Traced} (hs : s.Tracked) {m : ℕ} {n : PageNumber}
    {page : PageId} {c : HostChange} (hexec : s.world.Executes m n page c.host) (hc : c ∈ s.changes)
    (hdirty : page ∈ c.dirty) : s.world.FlaggedIn m c.host := by
  obtain ⟨entry, hentry, -, hpage, hhost⟩ := hexec
  exact ⟨n, entry, hentry, page, hpage, hhost, (hs c hc page hdirty).2 hhost⟩

theorem Traced.Tracked.refreshed_iff {s : Traced} (hs : s.Tracked) (m : ℕ) :
    s.Refreshed m ↔ s.FlaggedByNow m := by
  constructor
  · intro hreported n page host hexec c hc hhost _
    exact World.mem_invalidated.1 (hreported n page host hexec ⟨c, hc, hhost⟩)
  · rintro hflagged n page _ hexec ⟨c, hc, rfl⟩
    rw [World.mem_invalidated]
    by_cases hdirty : page ∈ c.dirty
    · exact hs.flaggedIn hexec hc hdirty
    · exact hflagged n page c.host hexec c hc rfl hdirty

/-- Every refresh of a run reports the executable pages that have changed, if and only if at
    every refresh those that some store changed and left clean are flagged by now. In a run
    with `unmap` or `dropMmu` the condition is enough, and may be more than the code needs. -/
theorem refresh_invalidates_iff (calls : List (Op × Token)) :
    EveryRefresh Traced.Refreshed calls ↔ EveryRefresh Traced.FlaggedByNow calls := by
  constructor
  · intro h before call after hcalls m hop
    exact ((Traced.tracked_run before).refreshed_iff m).1 (h before call after hcalls m hop)
  · intro h before call after hcalls m hop
    exact ((Traced.tracked_run before).refreshed_iff m).2 (h before call after hcalls m hop)

/-- A page is written while it is not executable, and made executable afterwards. -/
def protectAfterStore : List Op :=
  [.newMmu, .map 0 0 4096 false false (MemProt.READ ||| MemProt.WRITE),
    .store 0 none (.store 0 [1]), .protect 0 0 4096 (MemProt.READ ||| MemProt.EXECUTE), .refresh 0]

theorem protect_after_store : ¬ EveryRefresh Traced.Refreshed (protectAfterStore.zipIdx 0) := by
  intro hclaim
  have hreported := hclaim ((protectAfterStore.zipIdx 0).take 4) (.refresh 0, 4) [] rfl 0 rfl
  have hexec : (Traced.run ((protectAfterStore.zipIdx 0).take 4)).world.Executes 0 0 0 (.alloc 0) :=
    ⟨_, rfl, by decide, rfl, rfl⟩
  -- the store is the third call, and no refresh comes after it
  have hchanged :
      ⟨.alloc 0, {page | (World.init.run ((protectAfterStore.zipIdx 0).take 3)).heap.isDirty
      page = true}⟩ ∈ (Traced.run ((protectAfterStore.zipIdx 0).take 4)).changes :=
    .inr ⟨⟨0, by decide⟩, rfl⟩
  have hnone : (Traced.run ((protectAfterStore.zipIdx 0).take 4)).world.invalidated 0 = [] := by
    rw [Traced.run_world]
    decide
  have hmem := hreported 0 0 (.alloc 0) hexec ⟨_, hchanged, rfl⟩
  rw [hnone] at hmem
  cases hmem

end RapidArm.Mmu
