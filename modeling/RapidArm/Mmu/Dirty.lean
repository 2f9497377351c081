import RapidArm.Mmu.Coherence

/-!
# Dirty tracking

A page whose flags contain `EXECUTE` or `OBJ_BACKED` must have `IS_DIRTY` set after
a guest store changed it: translated code is discarded, and object pages are written
back, by that flag. Every store but the exclusive ones ends with `Page::set_dirty`
on each page it wrote; `strexb`, `strexh`, `strex` and `strexd` never mark a page.

Results:
* `Heap.isDirty_apply`: the dirty flag after a list of effects.
* `dirty_complete_iff`: after a successful store in any reachable world, all written
  pages that must be dirty are, unless the store is an exclusive one and its page was
  clean before.
* `strex_clean_code_page`: an exclusive store to a clean executable page.
-/

namespace RapidArm.Mmu

open RapidArm.Ir RapidArm.Lib

/-! ## The dirty flag -/

/-- `IS_DIRTY` of a page object. -/
def Heap.isDirty (h : Heap) (page : PageId) : Bool :=
  match h.pages[page]? with
  | some p => p.flags &&& IS_DIRTY_FLAG != 0
  | none => false

theorem dirty_or_flag (flags : BitVec 8) : (flags ||| IS_DIRTY_FLAG) &&& IS_DIRTY_FLAG ≠ 0 := by
  revert flags
  decide

theorem Heap.isDirty_write (h : Heap) (page : Page) (offset : ℕ) (byte : BitVec 8) (k : PageId) :
    (h.applyOne (.write page offset byte)).isDirty k = h.isDirty k := rfl

theorem Heap.isDirty_markDirty (h : Heap) (page k : PageId) :
    (h.applyOne (.markDirty page)).isDirty k =
      (h.isDirty k || decide (k = page ∧ page < h.pages.length)) := by
  unfold isDirty applyOne
  simp only [List.getElem?_modify]
  by_cases hk : page = k
  · subst hk
    by_cases hlt : page < h.pages.length
    · simpa [hlt] using dirty_or_flag (h.pages[page]).flags
    · simp [hlt]
  · have hne : ¬ k = page := fun heq => hk heq.symm
    simp [hk, hne]

theorem Heap.length_applyOne (h : Heap) (e : Effect) :
    (h.applyOne e).pages.length = h.pages.length := by
  cases e with
  | write page offset byte => rfl
  | markDirty page => exact List.length_modify ..

/-- Effects set the dirty flags of the pages they mark, and clear none. -/
theorem Heap.isDirty_apply (h : Heap) (effects : List Effect) (k : PageId) :
    (h.apply effects).isDirty k =
      (h.isDirty k || decide (Effect.markDirty k ∈ effects ∧ k < h.pages.length)) := by
  unfold Heap.apply
  induction effects generalizing h with
  | nil => simp
  | cons e effects ih =>
    rw [List.foldl_cons, ih, length_applyOne]
    cases e with
    | write page offset byte => simp [isDirty_write]
    | markDirty page =>
      rw [isDirty_markDirty]
      by_cases hk : k = page
      · subst hk
        by_cases hlt : k < h.pages.length <;> simp [hlt]
      · have hne : ¬ page = k := fun heq => hk heq.symm
        simp [hk]

/-! ## Successful stores -/

/-- The page a lookup returns: a hit of the TLB, else the page of the table. -/
def lookupPage (h : Heap) (mmu : IoMMU) (cache : Option Tlb) (n : PageNumber) : Option Page :=
  match cache.bind fun tlb => tlb.hit n mmu.identifier with
  | some page => some page
  | none => (mmu.table.getPage h n).toOption

/-- A store succeeds with these effects; an exclusive one returns `Stored`. -/
def StoreOp.Succeeds (op : StoreOp) (h : Heap) (mmu : IoMMU) (cache : Option Tlb)
    (effects : List Effect) : Prop :=
  match op with
  | .strex _ reservation intact vaddr value =>
    ((Mmu.strex h mmu reservation intact vaddr value).run.run cache).1 = .ok (.stored, effects)
  | op => ((op.run h mmu).run.run cache).1 = .ok effects

/-- Every page written whose flags require it is dirty in `after`. -/
def DirtyComplete (effects : List Effect) (after : Heap) : Prop :=
  ∀ page offset byte, Effect.write page offset byte ∈ effects →
    page.flags.containsAny MemFlags.MUST_DIRTY = true → after.isDirty page.mutableFlags = true

/-- The page an exclusive store resolves needs no mark: its flags do not require one,
    or it is dirty already. -/
def StoreOp.NeedsNoMark (op : StoreOp) (h : Heap) (mmu : IoMMU) (cache : Option Tlb) : Prop :=
  match op with
  | .strex _ _ _ vaddr _ => ∀ page,
    lookupPage h mmu cache (PageNumber.fromVaddr vaddr) = some page →
      page.flags.containsAny MemFlags.MUST_DIRTY = true → h.isDirty page.mutableFlags = true
  | _ => True

section Outcomes

variable {h : Heap} {mmu : IoMMU} {cache : Option Tlb}

/-- The result of a lookup. -/
theorem getPage_result (n : PageNumber) :
    ∀ page, ((getPage h mmu n).run.run cache).1 = .ok page ↔
      lookupPage h mmu cache n = some page := by
  intro page
  show (getPage h mmu n cache).1 = .ok page ↔ _
  unfold getPage lookupPage
  cases cache with
  | none =>
    simp only [Option.bind_none]
    cases mmu.table.getPage h n with
    | ok page' => simp [Except.toOption]
    | error f => simp [Except.toOption]
  | some tlb =>
    simp only [Option.bind_some]
    cases tlb.hit n mmu.identifier with
    | some page' => simp
    | none =>
      cases mmu.table.getPage h n with
      | ok page' => simp [Except.toOption]
      | error f => simp [Except.toOption]

/-- The effects of a store that succeeds are those its run returns. -/
theorem StoreOp.Succeeds.run {op : StoreOp} {effects : List Effect}
    (hs : op.Succeeds h mmu cache effects) : ((op.run h mmu).run.run cache).1 = .ok effects := by
  cases op with
  | strex w reservation intact vaddr value =>
    exact run_bind_eq_ok.2 ⟨(.stored, effects), hs, rfl⟩
  | _ => exact hs

/-- An exclusive store that returns `Stored` wrote to the page it looked up, and marked
    nothing. -/
theorem strex_stored {w : IntWidth} {reservation : Option Reservation} {intact : Bool}
    {vaddr : BitVec 64} {value : BitVec w.bits} {effects : List Effect}
    (hs : (StoreOp.strex w reservation intact vaddr value).Succeeds h mmu cache effects) :
    ∃ page, lookupPage h mmu cache (PageNumber.fromVaddr vaddr) = some page ∧
      effects = writeBytes page (pageOffset vaddr) (toLeBytes value) := by
  unfold StoreOp.Succeeds Mmu.strex at hs
  simp only at hs
  cases reservation with
  | none => cases hs
  | some r =>
    by_cases hwidth : r.width ≠ w
    · simp only [if_pos hwidth] at hs
      cases hs
    · simp only [if_neg hwidth] at hs
      obtain ⟨⟨page, offset⟩, hresolve, hrest⟩ := run_bind_eq_ok.1 hs
      obtain ⟨-, -, hstore⟩ := run_bind_eq_ok.1 hrest
      -- the lookup is the last step of the resolution
      unfold resolveAlignedScalarAccess ensure at hresolve
      by_cases haligned : decide (vaddr.toNat % w.bytes = 0) = true
      · rw [if_pos haligned] at hresolve
        obtain ⟨-, -, hlookup⟩ := run_bind_eq_ok.1 hresolve
        obtain ⟨page', hpage', heq⟩ := run_bind_eq_ok.1 hlookup
        obtain ⟨rfl, rfl⟩ := Prod.mk.inj (Except.ok.inj heq)
        refine ⟨page', (getPage_result _ page').1 hpage', ?_⟩
        simp only at hstore
        split_ifs at hstore
        · exact (Prod.mk.inj (Except.ok.inj hstore)).2.symm
        · cases hstore
      · rw [if_neg haligned] at hresolve
        cases hresolve

/-- An exclusive store marks nothing. -/
theorem not_mem_writeBytes (page : Page) (offset : ℕ) (data : List (BitVec 8)) (k : PageId) :
    Effect.markDirty k ∉ writeBytes page offset data := by
  intro hmem
  obtain ⟨p, -, hp⟩ := List.mem_map.1 hmem
  cases hp

theorem toLeBytes_ne_nil {w : IntWidth} (value : BitVec w.bits) :
    ∃ byte rest, toLeBytes value = byte :: rest := by
  cases w with
  | w8 => exact ⟨_, _, rfl⟩
  | w16 => exact ⟨_, _, rfl⟩
  | w32 => exact ⟨_, _, rfl⟩
  | w64 => exact ⟨_, _, rfl⟩

end Outcomes

/-! ## Dirty tracking in reachable worlds -/

/-- Stores write through existing page objects. -/
theorem World.Bounded.writes {w : World} (hw : w.Bounded) {m : ℕ} {mmu : IoMMU}
    (hm : w.mmu? m = some mmu) (c : Option ℕ) {op : StoreOp} {effects : List Effect}
    (hrun : ((op.run w.heap mmu).run.run (w.cache c)).1 = .ok effects) :
    WritesOnly (fun page => page.mutableFlags < w.heap.pages.length) effects := by
  have hget : ∀ n, Keeps (CacheAll (TlbEntry.Valid w.heap)) (getPage w.heap mmu n) fun page =>
      w.heap.hostOf page.mutableFlags = some page.ptr := by
    intro n
    refine (keeps_getPage n fun page hpage => ?_).mono fun page hpage => ?_
    · obtain ⟨entry, hentry, hasPage⟩ := getPage_eq_ok.1 hpage
      exact ⟨hw.keys m mmu hm n (PageTable.mem_keys_iff.2 ⟨entry, hentry⟩), asPage_host hasPage⟩
    · rcases hpage with hpage | hpage
      · obtain ⟨entry, -, hasPage⟩ := getPage_eq_ok.1 hpage
        exact asPage_host hasPage
      · exact hpage.2
  have hhit : ∀ tlb vaddr page, CacheAll (TlbEntry.Valid w.heap) (some tlb) →
      inlineHit mmu tlb vaddr = some page →
      w.heap.hostOf page.mutableFlags = some page.ptr := by
    intro tlb vaddr page hI hprobe
    have hhit := hit_of_inlineHit (fun i entry hi => (hI tlb rfl i entry hi).1) hprobe
    exact (hI tlb rfl _ _ (Tlb.hit_eq_some hhit)).2
  have hwrites := (keeps_storeOp hget hhit op (w.cache c) (cacheAll_cache hw.tlb c)).2 effects hrun
  intro page offset byte hmem
  obtain ⟨-, -, hhost, -⟩ := hwrites page offset byte hmem
  unfold Heap.hostOf at hhost
  obtain ⟨p, hp, -⟩ := Option.map_eq_some_iff.1 hhost
  exact getElem?_eq_some_lt hp

/-- The heap after a store that succeeds. -/
theorem World.step_store_heap {w : World} {m : ℕ} {mmu : IoMMU} (hm : w.mmu? m = some mmu)
    (c : Option ℕ) {op : StoreOp} {effects : List Effect} (token : Token)
    (hrun : ((op.run w.heap mmu).run.run (w.cache c)).1 = .ok effects) :
    (w.step (.store m c op) token).heap = w.heap.apply effects := by
  show (w.runStore m c op.run).heap = _
  unfold World.runStore
  rw [hm]
  simp only [hrun, World.setCache_heap]

/-- A successful guest store in any reachable world. Every entry point but the exclusive
    ones marks the pages it must after it wrote to them; and all written pages that must
    be dirty are dirty after the store exactly if it is no exclusive store to a page that
    needed the mark. -/
theorem dirty_complete_iff (calls : List (Op × Token)) (token : Token) (m : ℕ) (c : Option ℕ)
    (op : StoreOp) (mmu : IoMMU) (effects : List Effect)
    (hm : (World.init.run calls).mmu? m = some mmu)
    (hs : op.Succeeds (World.init.run calls).heap mmu ((World.init.run calls).cache c) effects) :
    (op.isStrex = false → MarksFollow effects) ∧
      (DirtyComplete effects ((World.init.run calls).step (.store m c op) token).heap ↔
        op.NeedsNoMark (World.init.run calls).heap mmu ((World.init.run calls).cache c)) := by
  have hw := World.bounded_run calls
  generalize World.init.run calls = w at *
  have hrun := hs.run
  have hmarks : op.isStrex = false → MarksFollow effects :=
    fun hop => (marksFollow_storeOp hop (w.cache c) trivial).2 effects hrun
  refine ⟨hmarks, ?_⟩
  rw [World.step_store_heap hm c token hrun]
  cases hop : op.isStrex with
  | false =>
    have hneeds : op.NeedsNoMark w.heap mmu (w.cache c) := by
      cases op with
      | strex => cases hop
      | _ => trivial
    refine iff_of_true ?_ hneeds
    intro page offset byte hmem hmust
    obtain ⟨before, after, hsplit⟩ := List.append_of_mem hmem
    have hmark := hmarks hop before page offset byte after hsplit hmust
    rw [Heap.isDirty_apply]
    have hmem' : Effect.markDirty page.mutableFlags ∈ effects := by
      rw [hsplit]
      exact List.mem_append_right _ (List.mem_cons_of_mem _ hmark)
    simp [hmem', hw.writes hm c hrun page offset byte hmem]
  | true =>
    cases op with
    | strex width reservation intact vaddr value =>
      obtain ⟨page, hpage, rfl⟩ := strex_stored hs
      -- nothing is marked, so the flag is what it was
      have hkeep :
          ∀ k, (w.heap.apply (writeBytes page (pageOffset vaddr) (toLeBytes value))).isDirty k =
          w.heap.isDirty k := by
        intro k
        rw [Heap.isDirty_apply]
        simp [not_mem_writeBytes]
      constructor
      · intro hcomplete page' hpage' hmust
        obtain rfl : page = page' := Option.some.inj (hpage.symm.trans hpage')
        obtain ⟨byte, rest, hbytes⟩ := toLeBytes_ne_nil value
        rw [← hkeep]
        refine hcomplete page (pageOffset vaddr + 0) byte ?_ hmust
        rw [hbytes]
        exact List.mem_cons_self
      · intro hneeds page' offset byte hmem hmust
        obtain rfl : page = page' :=
          writesOnly_writeBytes (P := Eq page) rfl _ _ page' offset byte hmem
        rw [hkeep]
        exact hneeds page hpage hmust
    | _ => cases hop

/-- A page that can be read, written and executed, mapped at address 0. -/
def mapCodePage : List Op :=
  [.newMmu, .map 0 0 4096 false false (MemProt.READ ||| MemProt.WRITE ||| MemProt.EXECUTE)]

/-- `store_byte` to the code page leaves it dirty. -/
theorem dirty_complete_storeByte :
    let w := World.init.run (mapCodePage.zipIdx 0)
    let op : StoreOp := .scalar .w8 8 1
    let effects : List Effect := [.write ⟨.alloc 0, 0b00111, 0⟩ 8 1, .markDirty 0]
    ∃ mmu, w.mmu? 0 = some mmu ∧ op.Succeeds w.heap mmu (w.cache none) effects ∧
      DirtyComplete effects (w.step (.store 0 none op) 2).heap := by
  refine ⟨_, rfl, rfl, ?_⟩
  exact (dirty_complete_iff (mapCodePage.zipIdx 0) 2 0 none (.scalar .w8 8 1) _ _ rfl
    rfl).2.2 trivial

/-- `strexb` to the code page, with its reservation intact, returns `Stored` and leaves
    it clean. -/
theorem strex_clean_code_page :
    ¬ ∀ calls token m c op mmu effects, World.Meets World.Fresh World.init calls →
      (World.init.run calls).mmu? m = some mmu →
      StoreOp.Succeeds op (World.init.run calls).heap mmu ((World.init.run calls).cache c)
        effects →
      DirtyComplete effects ((World.init.run calls).step (.store m c op) token).heap := by
  intro hclaim
  have hcomplete := hclaim (mapCodePage.zipIdx 0) 2 0 none
    (.strex .w8 (some ⟨.w8, 0⟩) true 8 1) _ [.write ⟨.alloc 0, 0b00111, 0⟩ 8 1]
    (World.tokensBelow_init.meets_fresh _) rfl rfl
  have hdirty := hcomplete ⟨.alloc 0, 0b00111, 0⟩ 8 1 List.mem_cons_self (by decide)
  revert hdirty
  decide

end RapidArm.Mmu
