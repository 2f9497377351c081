import RapidArm.Mmu.Stores

/-!
# Facts about every run

What holds in every world that any sequence of calls reaches, whatever tokens the
allocator returns: how a call changes the parts of a world, and the invariant
`World.Bounded` (existing page numbers in every table and TLB, and TLB entries that
point to page objects on their host pages).
-/

namespace RapidArm.Mmu

open RapidArm.Ir RapidArm.Lib

/-! ## Reading an updated world -/

namespace World

variable {w : World}

theorem mmu?_lt {m : ℕ} {mmu : IoMMU} (h : w.mmu? m = some mmu) : m < w.mmus.length := by
  unfold mmu? at h
  rw [Option.join_eq_some_iff] at h
  exact getElem?_eq_some_lt h

theorem tlb?_lt {t : ℕ} {tlb : Tlb} (h : w.tlb? t = some tlb) : t < w.tlbs.length := by
  unfold tlb? at h
  rw [Option.join_eq_some_iff] at h
  exact getElem?_eq_some_lt h

theorem mmu?_setMmu {m : ℕ} {mmu : IoMMU} (h : w.mmu? m = some mmu) (mmu' : IoMMU) (k : ℕ) :
    (w.setMmu m mmu').mmu? k = if k = m then some mmu' else w.mmu? k := by
  unfold mmu? setMmu
  by_cases hk : k = m
  · rw [if_pos hk, hk, List.getElem?_set_self (mmu?_lt h)]
    rfl
  · rw [if_neg hk, List.getElem?_set_ne (Ne.symm hk)]

/-- An element appended to the MMUs. -/
theorem mmu?_append {mmus : List (Option IoMMU)} {x : Option IoMMU} {heap : Heap}
    {tlbs : List (Option Tlb)} (k : ℕ) :
    (World.mk heap (mmus ++ [x]) tlbs).mmu? k =
      if k = mmus.length then x else (World.mk heap mmus tlbs).mmu? k := by
  unfold mmu?
  simp only
  by_cases hk : k = mmus.length
  · rw [if_pos hk, hk, List.getElem?_concat_length]
    rfl
  · rw [if_neg hk]
    by_cases hlt : k < mmus.length
    · rw [List.getElem?_append_left hlt]
    · have hge : mmus.length + 1 ≤ k := by omega
      rw [List.getElem?_eq_none (by simpa using hge), List.getElem?_eq_none (by omega)]

/-- Dropping an MMU leaves the others. -/
theorem mmu?_of_drop {m k : ℕ} {mmu : IoMMU}
    (h : ({ w with mmus := w.mmus.set m none } : World).mmu? k = some mmu) :
    w.mmu? k = some mmu := by
  unfold mmu? at h ⊢
  rw [Option.join_eq_some_iff] at h ⊢
  by_cases hk : m = k
  · subst hk
    simp [List.getElem?_set] at h
  · rwa [List.getElem?_set_ne hk] at h

theorem tlb?_of_drop {t k : ℕ} {tlb : Tlb}
    (h : ({ w with tlbs := w.tlbs.set t none } : World).tlb? k = some tlb) :
    w.tlb? k = some tlb := by
  unfold tlb? at h ⊢
  rw [Option.join_eq_some_iff] at h ⊢
  by_cases hk : t = k
  · subst hk
    simp [List.getElem?_set] at h
  · rwa [List.getElem?_set_ne hk] at h

/-- The TLBs after a new, empty one was added. -/
theorem tlb?_of_new {k : ℕ} {tlb : Tlb}
    (h : ({ w with tlbs := w.tlbs ++ [some Tlb.new] } : World).tlb? k = some tlb) :
    w.tlb? k = some tlb ∨ tlb = Tlb.new := by
  unfold tlb? at h ⊢
  rw [Option.join_eq_some_iff] at h ⊢
  by_cases hlt : k < w.tlbs.length
  · left
    rwa [List.getElem?_append_left hlt] at h
  · right
    have hmem := List.mem_of_getElem? h
    rw [List.getElem?_append_right (by omega)] at h
    have := List.mem_of_getElem? h
    simpa [eq_comm] using this

/-- The TLBs after the cache of an access was stored back. -/
theorem tlb?_setCache {c : Option ℕ} {cache : Option Tlb} {k : ℕ} {tlb : Tlb}
    (h : (w.setCache c cache).tlb? k = some tlb) : w.tlb? k = some tlb ∨ cache = some tlb := by
  unfold setCache at h
  split at h
  · rename_i t new
    unfold tlb? at h ⊢
    rw [Option.join_eq_some_iff] at h ⊢
    by_cases hk : t = k
    · subst hk
      right
      by_cases hlt : t < w.tlbs.length
      · rw [List.getElem?_set_self hlt] at h
        exact Option.some.inj h
      · rw [List.getElem?_eq_none (by simpa using hlt)] at h
        cases h
    · rw [List.getElem?_set_ne hk] at h
      exact .inl h
  · exact .inl h

theorem setCache_heap (c : Option ℕ) (cache : Option Tlb) : (w.setCache c cache).heap = w.heap := by
  unfold setCache
  split <;> rfl

theorem setCache_mmu? (c : Option ℕ) (cache : Option Tlb) (m : ℕ) :
    (w.setCache c cache).mmu? m = w.mmu? m := by
  unfold setCache
  split <;> rfl

end World

/-! ## Growing heaps -/

theorem Heap.le_of_hosts {h h' : Heap}
    (hp : h'.pages.map (·.allocatedPage) = h.pages.map (·.allocatedPage))
    (hs : h'.slots = h.slots) : h.Le h' := by
  constructor
  · intro page host hh
    unfold hostOf at hh ⊢
    rw [← List.getElem?_map, hp, List.getElem?_map]
    exact hh
  · intro slot page hr
    unfold residentPage at hr ⊢
    rw [hs]
    exact hr

theorem Heap.le_applyOne (h : Heap) (e : Effect) : h.Le (h.applyOne e) := by
  cases e with
  | write page offset byte => exact Heap.le_of_hosts rfl rfl
  | markDirty page => exact Heap.le_of_hosts (map_modify _ _ fun _ => rfl) rfl

theorem Heap.le_apply (h : Heap) (effects : List Effect) : h.Le (h.apply effects) := by
  unfold Heap.apply
  induction effects generalizing h with
  | nil => exact Heap.Le.refl h
  | cons e effects ih => exact (h.le_applyOne e).trans (ih _)

theorem Heap.le_newSource (h : Heap) (region : MapRegion) (offset : ℕ) :
    h.Le (region.newSource h offset).2 := by
  cases region with
  | object shared obj => exact h.le_newSlot obj offset
  | external flags basePtr => cases flags <;> exact h.le_newExtern _
  | anon flags =>
    cases flags with
    | priv => exact h.le_allocPage _
    | shared => exact h.le_allocPage _
    | cow => exact h.le_getZeroPage

theorem Heap.le_mapPages (region : MapRegion) (prot : MemProt) (start : PageNumber)
    (pages : List PageNumber) (t : PageTable) (h : Heap) :
    h.Le (mapPages region prot start pages t h).2 := by
  induction pages generalizing t h with
  | nil => exact Heap.Le.refl h
  | cons n pages ih => exact (h.le_newSource region (n - start)).trans (ih _ _)

theorem Heap.le_sourceFork (h : Heap) (source : PageSource) : h.Le (source.fork h).2.2 := by
  unfold PageSource.fork
  split
  · exact Heap.Le.refl h
  · exact Heap.Le.refl h
  · exact Heap.Le.refl h
  · split
    · exact Heap.Le.refl h
    · exact h.le_newSlot _ _
    · exact Heap.Le.refl h

theorem Heap.le_forkEntries (h : Heap) (entries : List (PageNumber × PageEntry)) :
    h.Le (PageTable.forkEntries h entries).2.2 := by
  induction entries generalizing h with
  | nil => exact Heap.Le.refl h
  | cons p entries ih => exact (h.le_sourceFork p.2.source).trans (ih _)

theorem Heap.le_refresh (w : World) (m : ℕ) : w.heap.Le (w.refresh m).heap := by
  unfold World.refresh
  split
  · exact Heap.Le.refl _
  · rename_i mmu hmmu
    simp only
    generalize mmu.table.entries = entries
    generalize w.heap = h
    induction entries generalizing h with
    | nil => exact Heap.Le.refl h
    | cons p entries ih =>
      rw [List.foldl_cons]
      refine Heap.Le.trans ?_ (ih _)
      cases p.2.source.page? h with
      | none => exact Heap.Le.refl h
      | some page => exact Heap.le_of_hosts (map_modify _ _ fun _ => rfl) rfl

/-! ## What a call can change -/

theorem getPages_le_MAX {base size : BitVec 64} {pages : List PageNumber}
    (h : getPages base size = .ok (some pages)) : ∀ n ∈ pages, n ≤ PageNumber.MAX := by
  unfold getPages at h
  split_ifs at h with hbase hsize hwrap hzero
  · cases h
  obtain rfl := Option.some.inj (Except.ok.inj h)
  intro n hn
  rw [List.mem_range'_1] at hn
  have hmax : PageNumber.MAX = 2 ^ 52 - 1 := by decide
  rw [hmax]
  unfold PageNumber.fromVaddr PAGE_SIZE at *
  lia

/-- The keys of a newly mapped table. -/
theorem mapPages_keys (region : MapRegion) (prot : MemProt) (start : PageNumber)
    (pages : List PageNumber) (t : PageTable) (h : Heap) :
    ∀ n ∈ (mapPages region prot start pages t h).1.keys, n ∈ t.keys ∨ n ∈ pages := by
  induction pages generalizing t h with
  | nil => exact fun n hn => .inl hn
  | cons k pages ih =>
    intro n hn
    rcases ih _ _ n hn with hmem | hmem
    · unfold PageTable.insert PageTable.keys at hmem
      split_ifs at hmem
      · exact .inl hmem
      · rcases List.mem_cons.1 hmem with rfl | hmem
        · exact .inr List.mem_cons_self
        · exact .inl hmem
    · exact .inr (List.mem_cons_of_mem _ hmem)

theorem foldl_remove_keys (pages : List PageNumber) (t : PageTable) :
    ∀ n ∈ (pages.foldl PageTable.remove t).keys, n ∈ t.keys := by
  induction pages generalizing t with
  | nil => exact fun n hn => hn
  | cons k pages ih =>
    intro n hn
    have hmem := ih _ n hn
    exact List.Sublist.subset (List.Sublist.map _ List.filter_sublist) hmem

theorem mapVals_keys (t : PageTable) (f : PageNumber → PageEntry → PageEntry) :
    (t.mapVals f).keys = t.keys := by
  unfold PageTable.mapVals PageTable.keys
  rw [List.map_map]
  rfl

/-- Removing pages that are not mapped changes nothing. -/
theorem foldl_remove_eq {pages : List PageNumber} {t : PageTable} (h : ∀ n ∈ pages, n ∉ t.keys) :
    pages.foldl PageTable.remove t = t := by
  induction pages with
  | nil => rfl
  | cons k pages ih =>
    have hk : t.remove k = t := by
      apply PageTable.ext
      refine List.filter_eq_self.2 fun p hp => ?_
      have hne : p.1 ≠ k := by
        rintro rfl
        exact h p.1 List.mem_cons_self (List.mem_map_of_mem hp)
      simpa using hne
    rw [List.foldl_cons, hk]
    exact ih fun n hn => h n (List.mem_cons_of_mem _ hn)

/-- Protecting pages that have the protection already changes nothing. -/
theorem protectPages_eq {pages : List PageNumber} {prot : MemProt} {t : PageTable}
    (h : ∀ p ∈ t.entries, p.1 ∈ pages → p.2.protections = prot) :
    World.protectPages pages prot t = t := by
  apply PageTable.ext
  show t.entries.map _ = t.entries
  conv_rhs => rw [← List.map_id t.entries]
  refine List.map_congr_left fun p hp => ?_
  by_cases hmem : p.1 ∈ pages
  · simp only [if_pos hmem, ← h p hp hmem]
    rfl
  · simp only [if_neg hmem]
    rfl

namespace World

variable {w : World}

theorem setMmu_self {m : ℕ} {mmu : IoMMU} (h : w.mmu? m = some mmu) : w.setMmu m mmu = w := by
  unfold mmu? at h
  rw [Option.join_eq_some_iff] at h
  unfold setMmu
  congr
  obtain ⟨hlt, hget⟩ := List.getElem?_eq_some_iff.1 h
  rw [← hget]
  exact List.set_getElem_self hlt

/-- What `un_cow` at one page makes of a world: a new entry for a page that was
    copy-on-write. -/
theorem unCowAt_cases (held : List PageId) {m : ℕ} {mmu : IoMMU} (h : w.mmu? m = some mmu)
    (n : PageNumber) :
    (w.unCowAt held m n = w ∧ ∀ entry, mmu.table.get? n = some entry → isCow entry = false) ∨
      ∃ page prot page' h', mmu.table.get? n = some ⟨.priv page true, prot⟩ ∧
        ((page', h') = (page, w.heap) ∧ w.isUnique held page = true ∨
          (page', h') = w.heap.clonePage page ∧ w.isUnique held page = false) ∧
        w.unCowAt held m n = { w with heap := h' }.setMmu m { mmu with
          table :=
            mmu.table.modify n fun entry => { entry with source := .priv page' false } } := by
  unfold unCowAt
  rw [h]
  simp only
  cases hget : mmu.table.get? n with
  | none => exact .inl ⟨rfl, by simp⟩
  | some entry =>
    obtain ⟨source, prot⟩ := entry
    cases source with
    | shared page => exact .inl ⟨rfl, by simp [isCow]⟩
    | object slot sh => exact .inl ⟨rfl, by simp [isCow]⟩
    | priv page wp =>
      cases wp with
      | false => exact .inl ⟨rfl, by simp [isCow]⟩
      | true =>
        right
        cases hu : w.isUnique held page with
        | true => exact ⟨page, prot, page, w.heap, rfl, .inl ⟨rfl, hu⟩, by simp [hu]⟩
        | false =>
          exact ⟨page, prot, (w.heap.clonePage page).1, (w.heap.clonePage page).2, rfl,
            .inr ⟨rfl, hu⟩, by simp [hu]⟩

/-- The heap and the table of MMU `m` were replaced. -/
structure TableChange (w w' : World) (m : ℕ) (mmu mmu' : IoMMU) : Prop where
  old : w.mmu? m = some mmu
  eq : w' = { w with heap := w'.heap }.setMmu m mmu'
  heap : w.heap.Le w'.heap

theorem TableChange.mmu {w' : World} {m : ℕ} {mmu mmu' : IoMMU}
    (h : TableChange w w' m mmu mmu') (k : ℕ) :
    w'.mmu? k = if k = m then some mmu' else w.mmu? k := by
  have hold : ({ w with heap := w'.heap } : World).mmu? m = some mmu := h.old
  rw [h.eq]
  exact mmu?_setMmu hold mmu' k

theorem TableChange.mmu_cases {w' : World} {m : ℕ} {mmu mmu' : IoMMU}
    (h : TableChange w w' m mmu mmu') {k : ℕ} {x : IoMMU} (hk : w'.mmu? k = some x) :
    (k = m ∧ x = mmu') ∨ (k ≠ m ∧ w.mmu? k = some x) := by
  rw [h.mmu] at hk
  by_cases hkm : k = m
  · rw [if_pos hkm] at hk
    exact .inl ⟨hkm, (Option.some.inj hk).symm⟩
  · rw [if_neg hkm] at hk
    exact .inr ⟨hkm, hk⟩

theorem TableChange.tlb {w' : World} {m : ℕ} {mmu mmu' : IoMMU}
    (h : TableChange w w' m mmu mmu') (k : ℕ) : w'.tlb? k = w.tlb? k := by
  rw [h.eq]
  rfl

theorem TableChange.trans {w₁ w₂ : World} {m : ℕ} {mmu mmu₁ mmu₂ : IoMMU}
    (h₁ : TableChange w w₁ m mmu mmu₁) (h₂ : TableChange w₁ w₂ m mmu₁ mmu₂) :
    TableChange w w₂ m mmu mmu₂ where
  old := h₁.old
  eq := by
    rw [h₂.eq, h₁.eq]
    unfold setMmu
    simp
  heap := h₁.heap.trans h₂.heap

theorem TableChange.refl {m : ℕ} {mmu : IoMMU} (h : w.mmu? m = some mmu) :
    TableChange w w m mmu mmu :=
  ⟨h, (setMmu_self h).symm, Heap.Le.refl _⟩

theorem tableChange_unCowAt (held : List PageId) {m : ℕ} {mmu : IoMMU} (h : w.mmu? m = some mmu)
    (n : PageNumber) :
    ∃ t, TableChange w (w.unCowAt held m n) m mmu { mmu with table := t } ∧
      t.keys = mmu.table.keys := by
  rcases unCowAt_cases held h n with ⟨heq, -⟩ | ⟨page, prot, page', h', hget, hpage, heq⟩
  · rw [heq]
    exact ⟨mmu.table, TableChange.refl h, rfl⟩
  · refine ⟨_, ⟨h, by rw [heq]; rfl, ?_⟩, mapVals_keys _ _⟩
    rw [heq]
    show w.heap.Le h'
    rcases hpage with ⟨hpage, -⟩ | ⟨hpage, -⟩
    · obtain ⟨-, rfl⟩ := Prod.mk.inj hpage
      exact Heap.Le.refl _
    · have hclone := w.heap.le_clonePage page
      rw [← hpage] at hclone
      exact hclone

theorem tableChange_unCowFold (held : List PageId) {m : ℕ} (ns : List PageNumber) {mmu : IoMMU}
    (h : w.mmu? m = some mmu) :
    ∃ t, TableChange w (ns.foldl (fun w n => w.unCowAt held m n) w) m mmu { mmu with table := t } ∧
      t.keys = mmu.table.keys := by
  induction ns generalizing w mmu with
  | nil => exact ⟨mmu.table, TableChange.refl h, rfl⟩
  | cons n ns ih =>
    obtain ⟨t₁, h₁, hkeys₁⟩ := tableChange_unCowAt held h n
    have hmmu : (w.unCowAt held m n).mmu? m = some { mmu with table := t₁ } := by
      rw [h₁.mmu, if_pos rfl]
    obtain ⟨t₂, h₂, hkeys₂⟩ := ih hmmu
    exact ⟨t₂, h₁.trans h₂, hkeys₂.trans hkeys₁⟩

/-- Without copy-on-write entries there is nothing to copy. -/
theorem unCowFold_eq (held : List PageId) {m : ℕ} (ns : List PageNumber) {mmu : IoMMU}
    (h : w.mmu? m = some mmu) (hcow : ∀ p ∈ mmu.table.entries, isCow p.2 = false) :
    ns.foldl (fun w n => w.unCowAt held m n) w = w := by
  induction ns with
  | nil => rfl
  | cons n ns ih =>
    have hstep : w.unCowAt held m n = w := by
      rcases unCowAt_cases held h n with ⟨heq, -⟩ | ⟨page, prot, page', h', hget, -, -⟩
      · exact heq
      · have := hcow _ (PageTable.mem_entries_of_get? hget)
        simp [isCow] at this
    rw [List.foldl_cons, hstep]
    exact ih

end World

/-- What a call can do to a world: nothing that removes translations other than
    dropping an MMU or a TLB; a new MMU; a new table of one MMU, with a new identifier
    unless the table is the old one; a fork; or an access. -/
inductive World.Change (w : World) (op : Op) (token : Token) (w' : World) : Prop
  | keep (heap : w.heap.Le w'.heap)
      (mmu : ∀ m mmu, w'.mmu? m = some mmu → w.mmu? m = some mmu)
      (tlb : ∀ t tlb, w'.tlb? t = some tlb → w.tlb? t = some tlb ∨ tlb = Tlb.new)
  | newMmu (eq : w' = { w with mmus := w.mmus ++ [some ⟨token, .new⟩] })
  | table (m : ℕ) (mmu : IoMMU) (modified : Bool) (t : PageTable)
      (change : TableChange w w' m mmu ⟨if modified then token else mmu.identifier, t⟩)
      (same : modified = false → t = mmu.table)
      (keys : ∀ n ∈ t.keys, n ∈ mmu.table.keys ∨ n ≤ PageNumber.MAX)
  | fork (m : ℕ) (mmu : IoMMU) (old : w.mmu? m = some mmu) (op : op = .fork m)
      (eq : w' = w.fork token m)
  | access (m : ℕ) (mmu : IoMMU) (old : w.mmu? m = some mmu) (c : Option ℕ) (cache : Option Tlb)
      (heap : w.heap.Le w'.heap) (mmus : ∀ k, w'.mmu? k = w.mmu? k)
      (tlb : ∀ t tlb, w'.tlb? t = some tlb → w.tlb? t = some tlb ∨ cache = some tlb)
      (lookups : ∀ I : Option Tlb → Prop,
        (∀ n, Keeps I (getPage w.heap mmu n) fun _ => True) → I (w.cache c) → I cache)

namespace World

variable {w : World} {op : Op} {token : Token}

theorem Change.rfl : w.Change op token w :=
  .keep (Heap.Le.refl _) (fun _ _ h => h) fun _ _ h => .inl h

theorem change_modifyTable {m : ℕ} {mmu : IoMMU} (hold : w.mmu? m = some mmu) {modified : Bool}
    {t : PageTable} {h : Heap} (hle : w.heap.Le h) (hsame : modified = false → t = mmu.table)
    (hkeys : ∀ n ∈ t.keys, n ∈ mmu.table.keys ∨ n ≤ PageNumber.MAX) :
    w.Change op token (w.modifyTable m mmu token modified t h) :=
  .table m mmu modified t ⟨hold, Eq.refl _, hle⟩ hsame hkeys

theorem change_mapRegion (m : ℕ) (base size : BitVec 64) (prot : MemProt) (region : MapRegion) :
    w.Change op token (w.mapRegion token m base size prot region) := by
  unfold mapRegion
  split
  · rename_i mmu pages hmmu hpages
    unfold mapInner
    split
    · rename_i t h heq
      split at heq
      · cases heq
      · obtain ⟨rfl, rfl⟩ := Prod.mk.inj (Except.ok.inj heq)
        refine change_modifyTable hmmu (Heap.le_mapPages ..) (fun hfalse => by cases hfalse) ?_
        intro n hn
        exact (mapPages_keys _ _ _ _ _ _ n hn).imp_right (getPages_le_MAX hpages n)
    · exact Change.rfl
  · exact Change.rfl

theorem change_unmap (m : ℕ) (start size : BitVec 64) :
    w.Change op token (w.unmap token m start size) := by
  unfold unmap
  split
  · rename_i mmu pages hmmu hpages
    refine change_modifyTable hmmu (Heap.Le.refl _) ?_ fun n hn => .inl (foldl_remove_keys _ _ n hn)
    intro hmod
    refine foldl_remove_eq fun n hn hmem => ?_
    have := List.any_eq_false.1 hmod n hn
    simp [PageTable.containsKey, hmem] at this
  · exact Change.rfl

theorem change_protect (m : ℕ) (start size : BitVec 64) (prot : MemProt) :
    w.Change op token (w.protect token m start size prot) := by
  unfold protect
  split
  · rename_i mmu pages hmmu hpages
    split_ifs
    · refine change_modifyTable hmmu (Heap.Le.refl _) ?_ ?_
      · intro hmod
        refine protectPages_eq fun p hp hmem => ?_
        have := List.any_eq_false.1 hmod p hp
        simpa [hmem] using this
      · intro n hn
        unfold protectPages at hn
        rw [mapVals_keys] at hn
        exact .inl hn
    · exact Change.rfl
  · exact Change.rfl

theorem change_copyAllCowPages (m : ℕ) (held : List PageId) :
    w.Change op token (w.copyAllCowPages token m held) := by
  unfold copyAllCowPages
  split
  · exact Change.rfl
  · rename_i mmu hmmu
    obtain ⟨t, hchange, hkeys⟩ := tableChange_unCowFold held mmu.table.keys hmmu
    have hnew : (mmu.table.keys.foldl (fun w n => w.unCowAt held m n) w).mmu? m =
        some { mmu with table := t } := by rw [hchange.mmu, if_pos (Eq.refl m)]
    simp only [hnew]
    have hkeys' : ∀ n ∈ t.keys, n ∈ mmu.table.keys ∨ n ≤ PageNumber.MAX := by
      intro n hn
      rw [hkeys] at hn
      exact .inl hn
    split_ifs with hcow
    · refine .table m mmu true t ⟨hmmu, ?_, hchange.heap⟩ (fun hfalse => by cases hfalse) hkeys'
      conv_lhs => rw [hchange.eq]
      unfold setMmu
      simp
    · have hnone : ∀ p ∈ mmu.table.entries, isCow p.2 = false := by
        intro p hp
        by_contra hp'
        exact hcow (List.any_eq_true.2 ⟨p, hp, by simpa using hp'⟩)
      rw [unCowFold_eq held mmu.table.keys hmmu hnone]
      exact Change.rfl

theorem change_runLoad {α : Type} (m : ℕ) (c : Option ℕ) (x : Heap → IoMMU → Access α)
    (hx : ∀ h mmu I, (∀ n, Keeps I (getPage h mmu n) fun _ => True) →
      Keeps I (x h mmu) fun _ => True) : w.Change op token (w.runLoad m c x) := by
  unfold runLoad
  cases hmmu : w.mmu? m with
  | none => exact Change.rfl
  | some mmu =>
    refine .access m mmu hmmu c ((x w.heap mmu).run.run (w.cache c)).2 ?_ ?_ ?_ ?_
    · rw [setCache_heap]
      exact Heap.Le.refl _
    · exact setCache_mmu? _ _
    · exact fun t tlb h => tlb?_setCache h
    · exact fun I hget hI => (hx w.heap mmu I hget _ hI).1

theorem change_runStore (m : ℕ) (c : Option ℕ) (sop : StoreOp) :
    w.Change op token (w.runStore m c sop.run) := by
  unfold runStore
  cases hmmu : w.mmu? m with
  | none => exact Change.rfl
  | some mmu =>
    simp only
    have hlookups : ∀ I : Option Tlb → Prop,
        (∀ n, Keeps I (getPage w.heap mmu n) fun _ => True) → I (w.cache c) →
          I ((sop.run w.heap mmu).run.run (w.cache c)).2 := fun I hget hI =>
      (keeps_storeOp (fun n => hget n) (fun _ _ _ _ _ => trivial) sop _ hI).1
    split
    · rename_i effects heq
      refine .access m mmu hmmu c _ ?_ (setCache_mmu? _ _) (fun t tlb h => tlb?_setCache h) hlookups
      rw [setCache_heap]
      exact Heap.le_apply _ _
    · refine .access m mmu hmmu c _ ?_ (setCache_mmu? _ _) (fun t tlb h => tlb?_setCache h) hlookups
      rw [setCache_heap]
      exact Heap.Le.refl _

/-- Every call changes a world in one of these ways. -/
theorem step_change (w : World) (op : Op) (token : Token) :
    w.Change op token (w.step op token) := by
  cases op with
  | newMmu => exact .newMmu (Eq.refl _)
  | newTlb => exact .keep (Heap.Le.refl _) (fun _ _ h => h) fun _ _ h => tlb?_of_new h
  | dropMmu m => exact .keep (Heap.Le.refl _) (fun _ _ h => mmu?_of_drop h) fun _ _ h => .inl h
  | dropTlb t =>
    exact .keep (Heap.Le.refl _) (fun _ _ h => h) fun _ _ h => .inl (tlb?_of_drop h)
  | map => exact change_mapRegion ..
  | mapExtern m base size ptr readonly shared prot =>
    simp only [step]
    split
    · exact change_mapRegion ..
    · exact Change.rfl
  | mapDevice => exact change_mapRegion ..
  | unmap => exact change_unmap ..
  | protect => exact change_protect ..
  | fork m =>
    cases hmmu : w.mmu? m with
    | none =>
      simp only [step, fork, hmmu]
      exact Change.rfl
    | some mmu => exact .fork m mmu hmmu (Eq.refl _) (Eq.refl _)
  | copyAllCowPages => exact change_copyAllCowPages ..
  | faultIn slot bytes =>
    exact .keep (Heap.le_faultIn _ _ _) (fun _ _ h => h) fun _ _ h => .inl h
  | refresh m =>
    refine .keep (Heap.le_refresh w m) ?_ ?_ <;>
      (simp only [step, refresh]
       split <;> first | exact fun _ _ h => h | exact fun _ _ h => .inl h)
  | lookup m c n => exact change_runLoad m c _ fun h mmu I hget => hget n
  | load m c vaddr len force =>
    exact change_runLoad m c _ fun h mmu I hget => keeps_load hget vaddr len _
  | scalarLoad m c width vaddr =>
    exact change_runLoad m c _ fun h mmu I hget => keeps_scalarLoad hget width vaddr
  | store m c sop => exact change_runStore m c sop

/-! ## Forks -/

/-- The heap, the MMUs and the TLBs after a fork. -/
theorem fork_eq {m : ℕ} {mmu : IoMMU} (hold : w.mmu? m = some mmu) :
    (w.fork token m).heap = (mmu.table.fork w.heap).2.2 ∧
      (∀ k, (w.fork token m).mmu? k =
        if k = w.mmus.length then some ⟨w.forkIdent token mmu, (mmu.table.fork w.heap).2.1⟩
        else if k = m then some ⟨w.forkIdent token mmu, (mmu.table.fork w.heap).1⟩
        else w.mmu? k) ∧
      ∀ k, (w.fork token m).tlb? k = w.tlb? k := by
  unfold fork
  rw [hold]
  refine ⟨Eq.refl _, fun k => ?_, fun k => Eq.refl _⟩
  have hold' : ({ w with heap := (mmu.table.fork w.heap).2.2 } : World).mmu? m = some mmu := hold
  simp only [mmu?_append]
  generalize w.forkIdent token mmu = ident
  have hlen : ({ w with heap := (mmu.table.fork w.heap).2.2 }.setMmu m
      ⟨ident, (mmu.table.fork w.heap).1⟩).mmus.length = w.mmus.length := by
    simp [setMmu]
  have hset := mmu?_setMmu hold' ⟨ident, (mmu.table.fork w.heap).1⟩ k
  rw [hlen]
  by_cases hk : k = w.mmus.length
  · rw [if_pos hk, if_pos hk]
  · rw [if_neg hk, if_neg hk]
    exact hset

theorem fork_mmu_cases {m : ℕ} {mmu : IoMMU} (hold : w.mmu? m = some mmu) {k : ℕ} {x : IoMMU}
    (hk : (w.fork token m).mmu? k = some x) :
    (k = w.mmus.length ∧ x = ⟨w.forkIdent token mmu, (mmu.table.fork w.heap).2.1⟩) ∨
      (k = m ∧ x = ⟨w.forkIdent token mmu, (mmu.table.fork w.heap).1⟩) ∨
      (k ≠ m ∧ w.mmu? k = some x) := by
  rw [(fork_eq hold).2.1] at hk
  by_cases hlen : k = w.mmus.length
  · rw [if_pos hlen] at hk
    exact .inl ⟨hlen, (Option.some.inj hk).symm⟩
  · rw [if_neg hlen] at hk
    by_cases hkm : k = m
    · rw [if_pos hkm] at hk
      exact .inr (.inl ⟨hkm, (Option.some.inj hk).symm⟩)
    · rw [if_neg hkm] at hk
      exact .inr (.inr ⟨hkm, hk⟩)

end World

/-! ## Existing pages -/

/-- A TLB entry for an existing page number that points to a page object and its host
    page. -/
def TlbEntry.Valid (h : Heap) (entry : TlbEntry) : Prop :=
  entry.virtualPageNumber ≤ PageNumber.MAX ∧
    h.hostOf entry.page.mutableFlags = some entry.page.ptr

/-- Tables and TLBs hold existing pages. -/
structure World.Bounded (w : World) : Prop where
  keys : ∀ m mmu, w.mmu? m = some mmu → ∀ n ∈ mmu.table.keys, n ≤ PageNumber.MAX
  tlb : ∀ t tlb, w.tlb? t = some tlb → ∀ i entry, tlb i = some entry → entry.Valid w.heap

theorem TlbEntry.Valid.mono {h h' : Heap} (hle : h.Le h') {entry : TlbEntry}
    (hv : entry.Valid h) : entry.Valid h' :=
  ⟨hv.1, hle.host hv.2⟩

theorem asPage_host {h : Heap} {entry : PageEntry} {page : Page} (hp : entry.asPage h = some page) :
    h.hostOf page.mutableFlags = some page.ptr := by
  simp only [PageEntry.asPage, Option.bind_eq_bind, Option.bind_eq_some_iff, Option.pure_def,
    Option.some.injEq] at hp
  obtain ⟨id, -, host, hhost, rfl⟩ := hp
  exact hhost

theorem getPage_eq_ok {h : Heap} {t : PageTable} {n : PageNumber} {page : Page} :
    t.getPage h n = .ok page ↔ ∃ entry, t.get? n = some entry ∧ entry.asPage h = some page := by
  unfold PageTable.getPage
  cases hb : (t.get? n).bind fun entry => entry.asPage h with
  | none =>
    constructor
    · intro hp
      cases hp
    · rintro ⟨entry, hentry, hpage⟩
      rw [hentry] at hb
      rw [Option.bind_some, hpage] at hb
      cases hb
  | some page' =>
    rw [Option.bind_eq_some_iff] at hb
    constructor
    · intro hp
      obtain rfl := Except.ok.inj hp
      exact hb
    · rintro ⟨entry, hentry, hpage⟩
      obtain ⟨entry', hentry', hpage'⟩ := hb
      rw [hentry] at hentry'
      obtain rfl := Option.some.inj hentry'
      rw [hpage] at hpage'
      rw [Option.some.inj hpage']

/-- The condition on a cache that every entry of a TLB satisfies `P`. -/
def CacheAll (P : TlbEntry → Prop) (cache : Option Tlb) : Prop :=
  ∀ tlb, cache = some tlb → ∀ i entry, tlb i = some entry → P entry

/-- A lookup fills the TLB only with what the table returned, and returns that or the
    page of an entry for this identifier and page number. -/
theorem keeps_getPage {h : Heap} {mmu : IoMMU} {P : TlbEntry → Prop} (n : PageNumber)
    (hfill : ∀ page, mmu.table.getPage h n = .ok page → P ⟨mmu.identifier, n, page⟩) :
    Keeps (CacheAll P) (getPage h mmu n) fun page =>
      mmu.table.getPage h n = .ok page ∨ P ⟨mmu.identifier, n, page⟩ := by
  intro cache hI
  show CacheAll P (getPage h mmu n cache).2 ∧ ∀ page, (getPage h mmu n cache).1 = .ok page → _
  unfold getPage
  cases cache with
  | none =>
    cases hp : mmu.table.getPage h n with
    | error f => exact ⟨hI, fun page heq => by cases heq⟩
    | ok page =>
      refine ⟨hI, fun page' heq => ?_⟩
      obtain rfl := Except.ok.inj heq
      exact .inl rfl
  | some tlb =>
    simp only
    cases hhit : tlb.hit n mmu.identifier with
    | some page =>
      refine ⟨hI, fun page' heq => ?_⟩
      obtain rfl := Except.ok.inj heq
      exact .inr (hI tlb rfl _ _ (Tlb.hit_eq_some hhit))
    | none =>
      cases hp : mmu.table.getPage h n with
      | error f => exact ⟨hI, fun page heq => by cases heq⟩
      | ok page =>
        constructor
        · rintro tlb' heq i entry hentry
          obtain rfl := Option.some.inj heq
          unfold Tlb.updateEntry at hentry
          by_cases hi : i = Tlb.index n
          · rw [hi, Function.update_self] at hentry
            obtain rfl := Option.some.inj hentry
            exact hfill page hp
          · rw [Function.update_of_ne hi] at hentry
            exact hI tlb rfl i entry hentry
        · intro page' heq
          obtain rfl := Except.ok.inj heq
          exact .inl rfl

/-- The caches of a world whose TLB entries all satisfy `P`. -/
theorem cacheAll_cache {w : World} {P : TlbEntry → Prop}
    (h : ∀ t tlb, w.tlb? t = some tlb → ∀ i entry, tlb i = some entry → P entry) (c : Option ℕ) :
    CacheAll P (w.cache c) := by
  intro tlb heq
  unfold World.cache at heq
  obtain ⟨t, -, ht⟩ := Option.bind_eq_some_iff.1 heq
  exact h t tlb ht

theorem World.Bounded.step {w : World} (hw : w.Bounded) (op : Op) (token : Token) :
    (w.step op token).Bounded := by
  cases w.step_change op token with
  | keep heap mmu tlb =>
    constructor
    · exact fun m mmu' hm => hw.keys m mmu' (mmu m mmu' hm)
    · intro t tlb' ht i entry hentry
      rcases tlb t tlb' ht with hold | rfl
      · exact (hw.tlb t tlb' hold i entry hentry).mono heap
      · cases hentry
  | newMmu eq =>
    rw [eq]
    constructor
    · intro m mmu hm n hn
      rw [mmu?_append] at hm
      split_ifs at hm
      · obtain rfl := Option.some.inj hm
        cases hn
      · exact hw.keys m mmu hm n hn
    · exact hw.tlb
  | table m mmu modified t change same keys =>
    constructor
    · intro k mmu' hk n hn
      rcases change.mmu_cases hk with ⟨-, rfl⟩ | ⟨-, hold⟩
      · rcases keys n hn with hold | hle
        · exact hw.keys m mmu change.old n hold
        · exact hle
      · exact hw.keys k mmu' hold n hn
    · intro k tlb hk i entry hentry
      rw [change.tlb] at hk
      exact (hw.tlb k tlb hk i entry hentry).mono change.heap
  | fork m mmu old hop eq =>
    obtain ⟨hself, hcopy⟩ := mmu.table.fork_keys w.heap
    rw [eq]
    constructor
    · intro k mmu' hk n hn
      rcases fork_mmu_cases old hk with ⟨-, rfl⟩ | ⟨-, rfl⟩ | ⟨-, hold⟩
      · rw [hcopy] at hn
        exact hw.keys m mmu old n hn
      · rw [hself] at hn
        exact hw.keys m mmu old n hn
      · exact hw.keys k mmu' hold n hn
    · intro k tlb hk i entry hentry
      rw [(fork_eq old).2.2] at hk
      rw [(fork_eq old).1]
      exact (hw.tlb k tlb hk i entry hentry).mono (Heap.le_forkEntries _ _)
  | access m mmu old c cache heap mmus tlb lookups =>
    constructor
    · intro k mmu' hk
      rw [mmus] at hk
      exact hw.keys k mmu' hk
    · intro t tlb' ht i entry hentry
      have hcache : CacheAll (TlbEntry.Valid w.heap) cache := by
        refine lookups _ (fun n => (keeps_getPage n ?_).mono fun _ _ => trivial)
          (cacheAll_cache hw.tlb c)
        intro page hpage
        obtain ⟨entry', hget, hasPage⟩ := getPage_eq_ok.1 hpage
        exact ⟨hw.keys m mmu old n (PageTable.mem_keys_iff.2 ⟨entry', hget⟩), asPage_host hasPage⟩
      rcases tlb t tlb' ht with hold | hnew
      · exact (hw.tlb t tlb' hold i entry hentry).mono heap
      · exact (hcache tlb' hnew i entry hentry).mono heap

theorem World.bounded_init : World.init.Bounded := by
  constructor
  · intro m mmu h
    cases h
  · intro t tlb h
    cases h

/-- Every world a run reaches is bounded. -/
theorem World.bounded_run (calls : List (Op × Token)) : (World.init.run calls).Bounded := by
  have hrun : ∀ w : World, w.Bounded → (w.run calls).Bounded := by
    induction calls with
    | nil => exact fun w hw => hw
    | cons call calls ih => exact fun w hw => ih _ (hw.step call.1 call.2)
  exact hrun _ bounded_init

end RapidArm.Mmu
