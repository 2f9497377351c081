import RapidArm.Mmu.Coherence
import RapidArm.Mmu.Isolation

/-!
# Copy-on-write isolation

A store must not change a page that its MMU holds copy-on-write: the page belongs to
other address spaces too, or is the fabric's zero page. `store` and `store_force`
refuse such pages by their `COW` flag. The scalar stores, the inline store and the
exclusive stores only test for `WRITE`, which `PageEntry::as_page` removes from the
flags of a copy-on-write page and adds again on its last line; and a TLB entry from
before a fork still says that the page is not copy-on-write.

Results:
* `World.Isolated.step`: in a call that meets `World.StoreSafe`, isolation is kept.
* `cow_isolation_run`: in every run of such calls a store changes no copy-on-write page
  and no private page of another MMU, and the zero page stays zero.
* `World.Coherent.noStale`: coherence gives the condition on the TLB.
* `store_to_zero_page`: a byte stored through a lazy mapping changes the zero page.
-/

namespace RapidArm.Mmu

open RapidArm.Ir RapidArm.Lib

/-! ## Safe stores -/

/-- The stores that refuse pages by their `COW` flag. -/
def StoreOp.checksCow : StoreOp → Bool
  | store .. | storeForce .. => true
  | _ => false

/-- The cache has no outdated entry for these pages of an MMU. -/
def World.NoStale (w : World) (mmu : IoMMU) (c : Option ℕ) (pages : List PageNumber) : Prop :=
  ∀ tlb i entry, w.cache c = some tlb → tlb i = some entry →
    entry.ioMmuIdent = mmu.identifier → entry.virtualPageNumber ∈ pages →
    mmu.table.getPage w.heap entry.virtualPageNumber = .ok entry.page

/-- The condition on a call: a store meets no outdated TLB entry, and one that does not
    check for `COW` covers no copy-on-write page that is mapped with `WRITE`. -/
def World.StoreSafe (w : World) (call : Op × Token) : Prop :=
  ∀ m c op mmu, call.1 = .store m c op → w.mmu? m = some mmu →
    w.NoStale mmu c op.pages ∧
    (op.checksCow = false → ∀ n ∈ op.pages, ∀ entry, mmu.table.get? n = some entry →
      entry.source.sharing = .cow → entry.protections &&& MemProt.WRITE = 0)

/-- Coherent TLBs have no outdated entries. -/
theorem World.Coherent.noStale {w : World} (hw : w.Coherent) {m : ℕ} {mmu : IoMMU}
    (hm : w.mmu? m = some mmu) (c : Option ℕ) (pages : List PageNumber) :
    w.NoStale mmu c pages := by
  intro tlb i entry hc hi hident _
  exact cacheAll_cache hw.tlb c tlb hc i entry hi m mmu hm hident.symm

/-- The entry of MMU `m` for page `n` and what it resolves to. -/
def World.Resolves (w : World) (m : ℕ) (n : PageNumber) (entry : PageEntry) (page : Page) : Prop :=
  ∃ mmu, w.mmu? m = some mmu ∧ mmu.table.get? n = some entry ∧ entry.asPage w.heap = some page

theorem World.Resolves.source {w : World} {m : ℕ} {n : PageNumber} {entry : PageEntry} {page : Page}
    (h : w.Resolves m n entry page) :
    w.source? m n = some entry.source ∧ entry.source.page? w.heap = some page.mutableFlags ∧
      w.heap.hostOf page.mutableFlags = some page.ptr := by
  obtain ⟨mmu, hm, hget, hpage⟩ := h
  refine ⟨source?_eq_some.2 ⟨mmu, entry, hm, hget, rfl⟩, ?_, asPage_host hpage⟩
  simp only [PageEntry.asPage, Option.bind_eq_bind, Option.bind_eq_some_iff, Option.pure_def,
    Option.some.injEq] at hpage
  obtain ⟨id, hid, host, -, rfl⟩ := hpage
  exact hid

/-! ## What a safe store writes -/

/-- A copy-on-write page has the `COW` flag, and the `WRITE` flag if it is mapped with it. -/
theorem asPage_cow_flags {h : Heap} {entry : PageEntry} {page : Page}
    (hp : entry.asPage h = some page) (hcow : entry.source.sharing = .cow) :
    page.flags.containsAny MemFlags.COW = true ∧
      (page.flags.containsAny MemFlags.WRITE = true → entry.protections &&& MemProt.WRITE ≠ 0) := by
  have hflags : ∀ prot : MemProt,
      let flags := MemFlags.COW ||| MemFlags.fromProt (prot &&& ~~~ MemProt.WRITE) |||
        MemFlags.fromProt prot
      MemFlags.containsAny flags MemFlags.COW = true ∧
        (MemFlags.containsAny flags MemFlags.WRITE = true → prot &&& MemProt.WRITE ≠ 0) := by
    decide
  simp only [PageEntry.asPage, Option.bind_eq_bind, Option.bind_eq_some_iff, Option.pure_def,
    Option.some.injEq] at hp
  obtain ⟨id, -, host, -, rfl⟩ := hp
  obtain ⟨source, prot⟩ := entry
  cases source with
  | shared p => cases hcow
  | object s sh => cases sh <;> cases hcow
  | priv p wp =>
    cases wp with
    | false => cases hcow
    | true => exact hflags prot

/-- A safe store writes only through entries that are not copy-on-write. -/
theorem World.StoreSafe.writes {w : World} (hw : w.Bounded) {m : ℕ} {mmu : IoMMU} {c : Option ℕ}
    {op : StoreOp} {token : Token} (hsafe : w.StoreSafe (.store m c op, token))
    (hm : w.mmu? m = some mmu) {effects : List Effect}
    (hrun : ((op.run w.heap mmu).run.run (w.cache c)).1 = .ok effects) :
    WritesOnly (fun page => ∃ n ∈ op.pages, ∃ entry, w.Resolves m n entry page ∧
      entry.source.sharing ≠ .cow) effects := by
  obtain ⟨hstale, hcow⟩ := hsafe m c op mmu rfl hm
  -- the entries of the cache are valid, and current for the pages of this store
  let P : TlbEntry → Prop := fun entry => entry.Valid w.heap ∧
    (entry.ioMmuIdent = mmu.identifier → entry.virtualPageNumber ∈ op.pages →
      mmu.table.getPage w.heap entry.virtualPageNumber = .ok entry.page)
  have hcache : CacheAll P (w.cache c) := fun tlb htlb i entry hi =>
    ⟨cacheAll_cache hw.tlb c tlb htlb i entry hi, hstale tlb i entry htlb hi⟩
  have hget : ∀ n, Keeps (CacheAll P) (getPage w.heap mmu n) fun page =>
      n ∈ op.pages → mmu.table.getPage w.heap n = .ok page := by
    intro n
    refine (keeps_getPage n fun page hpage => ?_).mono fun page hpage hn => ?_
    · obtain ⟨entry, hentry, hasPage⟩ := getPage_eq_ok.1 hpage
      exact ⟨⟨hw.keys m mmu hm n (PageTable.mem_keys_iff.2 ⟨entry, hentry⟩), asPage_host hasPage⟩,
        fun _ _ => hpage⟩
    · rcases hpage with hpage | hpage
      · exact hpage
      · exact hpage.2 rfl hn
  have hhit : ∀ tlb vaddr page, CacheAll P (some tlb) → inlineHit mmu tlb vaddr = some page →
      PageNumber.fromVaddr vaddr ∈ op.pages →
      mmu.table.getPage w.heap (PageNumber.fromVaddr vaddr) = .ok page := by
    intro tlb vaddr page hI hprobe hn
    have hhit := hit_of_inlineHit (fun i entry hi => (hI tlb rfl i entry hi).1.1) hprobe
    exact (hI tlb rfl _ _ (Tlb.hit_eq_some hhit)).2 rfl hn
  have hwrites := (keeps_storeOp hget hhit op (w.cache c) hcache).2 effects hrun
  intro page offset byte hmem
  obtain ⟨n, hn, hpage, page', hpage', hallows⟩ := hwrites page offset byte hmem
  obtain ⟨entry, hentry, hasPage⟩ := getPage_eq_ok.1 (hpage hn)
  obtain rfl : page = page' := Except.ok.inj ((hpage hn).symm.trans (hpage' hn))
  refine ⟨n, hn, entry, ⟨mmu, hm, hentry, hasPage⟩, fun hsharing => ?_⟩
  obtain ⟨hflag, hwrite⟩ := asPage_cow_flags hasPage hsharing
  cases op with
  | store vaddr mem => exact absurd (hallows.1.symm.trans hflag) (by decide)
  | storeForce vaddr mem => exact absurd (hallows.symm.trans hflag) (by decide)
  | scalar width vaddr value => exact hwrite hallows (hcow rfl n hn entry hentry hsharing)
  | jitInline width vaddr value => exact hwrite hallows (hcow rfl n hn entry hentry hsharing)
  | strex width reservation intact vaddr value =>
    exact hwrite hallows (hcow rfl n hn entry hentry hsharing)

/-- A byte that effects change was written. -/
theorem Heap.mem_apply {h : Heap} {effects : List Effect} {host : HostPage} {i : ℕ}
    (hne : (h.apply effects).mem host i ≠ h.mem host i) :
    ∃ page byte, Effect.write page i byte ∈ effects ∧ page.ptr = host := by
  unfold Heap.apply at hne
  induction effects generalizing h with
  | nil => exact (hne rfl).elim
  | cons e effects ih =>
    rw [List.foldl_cons] at hne
    by_cases hstep : (h.applyOne e).mem host i = h.mem host i
    · rw [← hstep] at hne
      obtain ⟨page, byte, hmem, hptr⟩ := ih hne
      exact ⟨page, byte, List.mem_cons_of_mem _ hmem, hptr⟩
    · cases e with
      | markDirty page => exact (hstep rfl).elim
      | write page offset byte =>
        have hptr : host = page.ptr := by
          by_contra hptr
          exact hstep (congrFun (Function.update_of_ne hptr _ _) i)
        subst hptr
        have hoff : i = offset := by
          by_contra hoff
          refine hstep ?_
          show Function.update h.mem page.ptr _ page.ptr i = _
          rw [Function.update_self, Function.update_of_ne hoff]
        subst hoff
        exact ⟨page, byte, List.mem_cons_self, rfl⟩

/-- Effects change bytes and flags only. -/
theorem Heap.apply_frame (h : Heap) (effects : List Effect) :
    (h.apply effects).pages.map (·.allocatedPage) = h.pages.map (·.allocatedPage) ∧
      (h.apply effects).slots = h.slots ∧ (h.apply effects).nextHost = h.nextHost ∧
      (h.apply effects).zeroPage = h.zeroPage := by
  unfold Heap.apply
  induction effects generalizing h with
  | nil => exact ⟨rfl, rfl, rfl, rfl⟩
  | cons e effects ih =>
    rw [List.foldl_cons]
    obtain ⟨hpages, hslots, hnext, hzero⟩ := ih (h.applyOne e)
    rw [hpages, hslots, hnext, hzero]
    cases e with
    | write page offset byte => exact ⟨rfl, rfl, rfl, rfl⟩
    | markDirty page => exact ⟨map_modify _ _ fun _ => rfl, rfl, rfl, rfl⟩

/-! ## Calls keep isolation -/

namespace World

variable {w : World}

/-- A store that changes the heap succeeded, and its effects are the change. -/
theorem runStore_cases (m : ℕ) (c : Option ℕ) (op : StoreOp) :
    (∀ k, (w.runStore m c op.run).mmu? k = w.mmu? k) ∧
      ((w.runStore m c op.run).heap = w.heap ∨
        ∃ mmu effects, w.mmu? m = some mmu ∧
          ((op.run w.heap mmu).run.run (w.cache c)).1 = .ok effects ∧
          (w.runStore m c op.run).heap = w.heap.apply effects) := by
  unfold runStore
  cases hm : w.mmu? m with
  | none => exact ⟨fun _ => rfl, .inl rfl⟩
  | some mmu =>
    cases hr : ((op.run w.heap mmu).run.run (w.cache c)).1 with
    | error e =>
      simp only [hr]
      exact ⟨setCache_mmu? _ _, .inl (setCache_heap _ _)⟩
    | ok effects =>
      simp only [hr]
      refine ⟨setCache_mmu? _ _, .inr ⟨mmu, effects, rfl, hr, ?_⟩⟩
      rw [setCache_heap]

/-- The page objects of two entries that are on one allocated host page. -/
theorem Isolated.same_object (hw : w.Isolated) {p p' : PageId} {host : HostPage}
    (hp : w.heap.hostOf p = some host) (hp' : w.heap.hostOf p' = some host)
    (hcaller : ∀ k, host = .external k → p' = p) : p' = p := by
  cases host with
  | alloc k => exact hw.sound.host_inj p' p k hp' hp
  | external k => exact hcaller k rfl

theorem Isolated.store (hw : w.Isolated) (hb : w.Bounded) {m : ℕ} {c : Option ℕ} {op : StoreOp}
    {token : Token} (hsafe : w.StoreSafe (.store m c op, token)) :
    (w.runStore m c op.run).Isolated := by
  obtain ⟨hmmu, hheap | ⟨mmu, effects, hm, hrun, hheap⟩⟩ := w.runStore_cases m c op
  · exact hw.of_mmus hheap fun k x hk => by rwa [hmmu] at hk
  · obtain ⟨hpages, hslots, hnext, hzero⟩ := w.heap.apply_frame effects
    rw [← hheap] at hpages hslots hnext hzero
    refine hw.of_hosts hmmu hpages hslots hnext hzero fun p k hp hk i hi => ?_
    -- a written byte of the zero page would be one of an entry that is not copy-on-write
    by_contra hne
    rw [← hi, hheap] at hne
    obtain ⟨page, byte, hmem, hptr⟩ := Heap.mem_apply hne
    obtain ⟨n, -, entry, hres, hsharing⟩ := hsafe.writes hb hm hrun page i byte hmem
    obtain ⟨hsrc, hpage, hhost⟩ := hres.source
    rw [hptr] at hhost
    have hobj : page.mutableFlags = p := hw.sound.host_inj _ _ k hhost hk
    rw [hobj] at hpage
    exact hsharing (hw.isolated.zero m n _ p hsrc hpage hp)

theorem Isolated.step (hw : w.Isolated) (hb : w.Bounded) {call : Op × Token}
    (hsafe : w.StoreSafe call) : (w.step call.1 call.2).Isolated := by
  obtain ⟨op, token⟩ := call
  have hload : ∀ {α : Type} m c (x : Heap → IoMMU → Access α), (w.runLoad m c x).Isolated := by
    intro α m c x
    unfold runLoad
    split
    · exact hw
    · refine hw.of_mmus (setCache_heap _ _) fun k mmu hk => ?_
      rwa [setCache_mmu?] at hk
  cases op with
  | newMmu => exact hw.newMmu token
  | newTlb => exact hw.of_mmus rfl fun _ _ h => h
  | dropMmu m => exact hw.of_mmus rfl fun _ _ h => mmu?_of_drop h
  | dropTlb t => exact hw.of_mmus rfl fun _ _ h => h
  | map => exact hw.mapRegion ..
  | mapExtern m base size ptr readonly shared prot =>
    simp only [World.step]
    split
    · exact hw.mapRegion ..
    · exact hw
  | mapDevice => exact hw.mapRegion ..
  | unmap => exact hw.unmap ..
  | protect => exact hw.protect ..
  | fork => exact hw.fork ..
  | copyAllCowPages => exact hw.copyAllCowPages ..
  | faultIn slot bytes =>
    exact ⟨hw.sound.faultIn slot bytes, hw.isolated.faultIn hw.sound slot bytes⟩
  | refresh m => exact hw.refresh m
  | lookup m c n => exact hload m c fun h mmu => getPage h mmu n
  | load m c vaddr len force =>
    exact hload m c fun h mmu =>
      Mmu.load h mmu vaddr len (if force then none else some MemProt.READ)
  | scalarLoad m c width vaddr => exact hload m c fun h mmu => Mmu.scalarLoad h mmu width vaddr
  | store => exact hw.store hb hsafe

theorem Meets.isolated {calls : List (Op × Token)} (hok : Meets StoreSafe World.init calls) :
    (World.init.run calls).Isolated ∧ (World.init.run calls).Bounded :=
  @Meets.invariant _ (fun w => w.Isolated ∧ w.Bounded)
    (fun _ call hw hcall => ⟨hw.1.step hw.2 hcall, hw.2.step call.1 call.2⟩) _ _
    ⟨isolated_init, bounded_init⟩ hok

end World

/-! ## Isolation of stores -/

/-- External memory under a page is not mapped a second time, as another page object. -/
def World.NotAliased (w : World) (page : Page) : Prop :=
  ∀ k, page.ptr = .external k → ∀ m n entry page', w.Resolves m n entry page' →
    page'.ptr = page.ptr → page'.mutableFlags = page.mutableFlags

/-- What a store of MMU `m` to the given pages, from `w` to `w'`, leaves alone. -/
structure StoreIsolated (w w' : World) (m : ℕ) (pages : List PageNumber) : Prop where
  /-- Bytes change only in pages of the store that are not copy-on-write. -/
  writes : ∀ host i, w'.heap.mem host i ≠ w.heap.mem host i →
    ∃ n ∈ pages, ∃ entry page, w.Resolves m n entry page ∧ page.ptr = host ∧
      entry.source.sharing ≠ .cow
  /-- The copy-on-write pages of all MMUs, that of the store included, keep their bytes. -/
  cow : ∀ k n entry page, w.Resolves k n entry page → entry.source.sharing = .cow →
    w.NotAliased page → ∀ i, w'.heap.mem page.ptr i = w.heap.mem page.ptr i
  /-- The private pages of the other MMUs keep their bytes. -/
  other : ∀ k n entry page, w.Resolves k n entry page → k ≠ m → entry.source.sharing ≠ .shared →
    w.NotAliased page → ∀ i, w'.heap.mem page.ptr i = w.heap.mem page.ptr i
  /-- The zero page is zero. -/
  zero : ∀ p host, w'.heap.zeroPage = some p → w'.heap.hostOf p = some host →
    ∀ i, w'.heap.mem host i = 0

/-- A store in an isolated world changes no page that an entry other than a shared one
    holds elsewhere. -/
theorem World.Isolated.storeIsolated {w : World} (hw : w.Isolated) (hb : w.Bounded) {m : ℕ}
    {c : Option ℕ} {op : StoreOp} {token : Token} (hsafe : w.StoreSafe (.store m c op, token)) :
    StoreIsolated w (w.runStore m c op.run) m op.pages := by
  have hwrites : ∀ host i, (w.runStore m c op.run).heap.mem host i ≠ w.heap.mem host i →
      ∃ n ∈ op.pages, ∃ entry page, w.Resolves m n entry page ∧ page.ptr = host ∧
        entry.source.sharing ≠ .cow := by
    intro host i hne
    obtain ⟨-, hheap | ⟨mmu, effects, hm, hrun, hheap⟩⟩ := w.runStore_cases m c op
    · exact (hne (by rw [hheap])).elim
    · rw [hheap] at hne
      obtain ⟨page, byte, hmem, hptr⟩ := Heap.mem_apply hne
      obtain ⟨n, hn, entry, hres, hsharing⟩ := hsafe.writes hb hm hrun page i byte hmem
      exact ⟨n, hn, entry, page, hres, hptr, hsharing⟩
  -- an entry on the page that a changed byte is in
  have hshares : ∀ k n entry page, w.Resolves k n entry page → w.NotAliased page →
      ∀ i, (w.runStore m c op.run).heap.mem page.ptr i ≠ w.heap.mem page.ptr i →
      entry.source.sharing ≠ .cow ∧ (k = m ∨ entry.source.sharing = .shared) := by
    intro k n entry page hres halias i hne
    obtain ⟨n', -, entry', page', hres', hptr, hsharing⟩ := hwrites _ i hne
    obtain ⟨hsrc, hpage, hhost⟩ := hres.source
    obtain ⟨hsrc', hpage', hhost'⟩ := hres'.source
    have hobj : page'.mutableFlags = page.mutableFlags :=
      hw.same_object hhost (hptr ▸ hhost') fun j hj => halias j hj m n' entry' page' hres' hptr
    rw [hobj] at hpage'
    rcases hw.isolated.page k n _ m n' _ _ hsrc hsrc' hpage hpage' with ⟨hk, hn⟩ | ⟨hsame, hown⟩
    · rw [hk, hn, hsrc'] at hsrc
      rw [← Option.some.inj hsrc]
      exact ⟨hsharing, .inl hk⟩
    · refine ⟨hsame ▸ hsharing, .inr ?_⟩
      cases hs : entry.source.sharing with
      | shared => rfl
      | cow => exact (hsharing (hsame ▸ hs)).elim
      | own => exact (hown hs).elim
  refine ⟨hwrites, ?_, ?_, ?_⟩
  · intro k n entry page hres hcow halias i
    by_contra hne
    exact (hshares k n entry page hres halias i hne).1 hcow
  · intro k n entry page hres hk hns halias i
    by_contra hne
    rcases (hshares k n entry page hres halias i hne).2 with heq | hs
    · exact hk heq
    · exact hns hs
  · intro p host hp hhost i
    obtain ⟨k, hk, hbytes⟩ := (hw.store hb hsafe).sound.zero p hp
    obtain rfl := Option.some.inj (hhost.symm.trans hk)
    exact hbytes i

/-- In every run whose stores are safe, a store is isolated: it changes no copy-on-write
    page and no private page of another MMU, and the zero page stays zero. -/
theorem cow_isolation_run {calls : List (Op × Token)} {m : ℕ} {c : Option ℕ} {op : StoreOp}
    {token : Token}
    (hok : World.Meets World.StoreSafe World.init calls)
    (hstore : (World.init.run calls).StoreSafe (.store m c op, token)) :
    StoreIsolated (World.init.run calls) ((World.init.run calls).step (.store m c op) token) m
      op.pages := by
  obtain ⟨hisolated, hbounded⟩ := hok.isolated
  exact hisolated.storeIsolated hbounded hstore

/-- A private page is mapped, the MMU is forked, the new MMU copies its pages and looks
    the page up through a TLB. -/
def forkThenCopy : List Op :=
  [.newMmu, .map 0 0 4096 false false (MemProt.READ ||| MemProt.WRITE), .fork 0,
    .copyAllCowPages 1 [], .newTlb, .lookup 1 (some 0) 0]

/-- A byte that the new MMU then stores through the TLB is in its own page, and the page
    of the first MMU keeps its bytes. -/
theorem cow_isolation_forkThenCopy :
    let w := World.init.run (forkThenCopy.zipIdx 0)
    let w' := w.step (.store 1 (some 0) (.scalar .w8 0 7)) 6
    w'.heap.mem (.alloc 1) 0 = 7 ∧ w.Resolves 0 0 ⟨.priv 0 true, 0b011⟩ ⟨.alloc 0, 0b10011, 0⟩ ∧
      ∀ i, w'.heap.mem (.alloc 0) i = w.heap.mem (.alloc 0) i := by
  have hforks : World.Meets (fun w call => ∀ m, call.1 = .fork m → w.ForkClean m) World.init
      (forkThenCopy.zipIdx 0) := by
    refine ⟨fun m h => ?_, fun m h => ?_, fun m h => ?_, fun m h => ?_, fun m h => ?_,
      fun m h => ?_, trivial⟩ <;> try cases h
    refine World.forkClean_of_noTlb rfl fun mmu hm p hp slot hs => ?_
    obtain rfl := Option.some.inj hm
    obtain rfl := List.mem_singleton.1 hp
    cases hs
  have hcoherent : (World.init.run (forkThenCopy.zipIdx 0)).Coherent :=
    World.Meets.invariant (fun w call hw hcall => hw.step hcall) World.coherent_init
      ((World.tokensBelow_init.meets_fresh _).and hforks)
  have hok : World.Meets World.StoreSafe World.init (forkThenCopy.zipIdx 0) := by
    refine ⟨?_, ?_, ?_, ?_, ?_, ?_, trivial⟩ <;> (intro m c op mmu hop; cases hop)
  have hstore : (World.init.run (forkThenCopy.zipIdx 0)).StoreSafe
      (.store 1 (some 0) (.scalar .w8 0 7), 6) := by
    rintro m c op mmu hop hm
    cases hop
    refine ⟨hcoherent.noStale hm _ _, fun _ n hn entry hget hcow => ?_⟩
    -- the only page covered is the copy
    obtain rfl := Option.some.inj hm
    obtain rfl := List.mem_singleton.1 hn
    obtain rfl := Option.some.inj hget
    cases hcow
  refine ⟨by decide, ⟨_, rfl, rfl, rfl⟩, ?_⟩
  refine (cow_isolation_run hok hstore).other 0 0 ⟨.priv 0 true, 0b011⟩ ⟨.alloc 0, 0b10011, 0⟩
    ⟨_, rfl, rfl, rfl⟩ (by decide) (by decide) ?_
  intro k hk
  cases hk

/-- A lazy mapping: the page is the zero page, copy-on-write. -/
def mapLazily : List Op :=
  [.newMmu, .map 0 0 4096 true false (MemProt.READ ||| MemProt.WRITE)]

/-- `store_byte` through the lazy mapping changes the zero page. -/
theorem store_to_zero_page :
    ¬ ∀ calls m c op token, World.Meets World.Fresh World.init (calls ++ [(.store m c op, token)]) →
      ∀ n entry page, (World.init.run calls).Resolves m n entry page →
        entry.source.sharing = .cow → (World.init.run calls).NotAliased page →
        ∀ i, ((World.init.run calls).step (.store m c op) token).heap.mem page.ptr i =
          (World.init.run calls).heap.mem page.ptr i := by
  intro hclaim
  have hfresh := World.tokensBelow_init.meets_fresh
    [.newMmu, .map 0 0 4096 true false (MemProt.READ ||| MemProt.WRITE),
      .store 0 none (.scalar .w8 0 1)]
  have hsame := hclaim (mapLazily.zipIdx 0) 0 none (.scalar .w8 0 1) 2 hfresh 0
    ⟨.priv 0 true, 0b011⟩ ⟨.alloc 0, 0b10011, 0⟩ ⟨_, rfl, rfl, rfl⟩ rfl
    (fun k hk => by cases hk) 0
  revert hsame
  decide

end RapidArm.Mmu
