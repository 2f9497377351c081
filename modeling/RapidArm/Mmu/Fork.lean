import RapidArm.Mmu.Bulk
import RapidArm.Mmu.Dirty

/-!
# Forks

`IoMMU::fork` (`io-mmu/src/lib.rs`, lines 396–416), which forks the table entry by
entry (`io-mmu/src/page_table.rs`, lines 335–370 and 828–836). A fork allocates no page:
the new slots it makes for private pages of objects that are not resident are not
resident either.

A family is the MMUs that come from one MMU by forks, children of children included,
and still map a page since then. `World.track` follows it along a run.

Results:
* `fork_copies_run`: in every reachable world a fork copies the address space, and from
  there on the family of a shared page has one storage in every world of every run.
-/

namespace RapidArm.Mmu

open RapidArm.Ir RapidArm.Lib

/-! ## The entries of a fork -/

/-- More slots, none of the new ones resident. -/
structure Heap.NewSlots (h h' : Heap) : Prop where
  pages : h'.pages = h.pages
  mem : h'.mem = h.mem
  slots : ∃ new : List ObjectSlot, h'.slots = h.slots ++ new ∧ ∀ slot ∈ new, slot.page = none

theorem Heap.NewSlots.refl (h : Heap) : h.NewSlots h :=
  ⟨rfl, rfl, [], (List.append_nil _).symm, fun _ hs => by cases hs⟩

theorem Heap.NewSlots.trans {h₁ h₂ h₃ : Heap} (h₁₂ : h₁.NewSlots h₂) (h₂₃ : h₂.NewSlots h₃) :
    h₁.NewSlots h₃ := by
  obtain ⟨new, hslots, hnew⟩ := h₁₂.slots
  obtain ⟨new', hslots', hnew'⟩ := h₂₃.slots
  refine ⟨h₂₃.pages.trans h₁₂.pages, h₂₃.mem.trans h₁₂.mem, new ++ new', ?_, ?_⟩
  · rw [hslots', hslots, List.append_assoc]
  · intro slot hslot
    exact (List.mem_append.1 hslot).elim (hnew slot) (hnew' slot)

theorem Heap.newSlots_newSlot (h : Heap) (object : ℕ) (offset : PageNumber) :
    h.NewSlots (h.newSlot object offset).2 :=
  ⟨rfl, rfl, [⟨none, object, offset⟩], rfl, fun slot hslot => by rw [List.mem_singleton.1 hslot]⟩

/-- A slot is resident in the one heap if it is in the other. -/
theorem Heap.NewSlots.residentPage {h h' : Heap} (hnew : h.NewSlots h') (slot : SlotId) :
    h'.residentPage slot = h.residentPage slot := by
  obtain ⟨new, hslots, hnone⟩ := hnew.slots
  unfold Heap.residentPage
  rw [hslots]
  by_cases hlt : slot < h.slots.length
  · rw [List.getElem?_append_left hlt]
  · have hge : h.slots.length ≤ slot := Nat.le_of_not_lt hlt
    rw [List.getElem?_append_right hge, List.getElem?_eq_none hge, Option.bind_none]
    cases hget : new[slot - h.slots.length]? with
    | none => rfl
    | some s => exact hnone s (List.mem_of_getElem? hget)

theorem Heap.NewSlots.page? {h h' : Heap} (hnew : h.NewSlots h') (source : PageSource) :
    source.page? h' = source.page? h := by
  cases source with
  | shared page => rfl
  | priv page wp => rfl
  | object slot shared => exact hnew.residentPage slot

/-- What a fork leaves of an entry, on either side: the protections, the page, the source
    itself if it is shared, and copy-on-write. -/
structure ForkOf (h h' : Heap) (entry forked : PageEntry) : Prop where
  protections : forked.protections = entry.protections
  page : forked.source.page? h' = entry.source.page? h
  shared : entry.source.sharing = .shared → forked.source = entry.source
  cow : entry.source.sharing = .cow → forked.source.sharing = .cow

theorem ForkOf.later {h h' h'' : Heap} {entry forked : PageEntry} (hfork : ForkOf h h' entry forked)
    (hnew : h'.NewSlots h'') : ForkOf h h'' entry forked :=
  ⟨hfork.protections, (hnew.page? _).trans hfork.page, hfork.shared, hfork.cow⟩

theorem ForkOf.earlier {h₀ h h' : Heap} {entry forked : PageEntry}
    (hfork : ForkOf h h' entry forked)
    (hnew : h₀.NewSlots h) : ForkOf h₀ h' entry forked :=
  ⟨hfork.protections, hfork.page.trans (hnew.page? _), hfork.shared, hfork.cow⟩

/-- One entry. -/
theorem forkOf_entry (h : Heap) (entry : PageEntry) :
    h.NewSlots (entry.fork h).2.2 ∧ ForkOf h (entry.fork h).2.2 entry (entry.fork h).1 ∧
      ForkOf h (entry.fork h).2.2 entry (entry.fork h).2.1 := by
  obtain ⟨source, prot⟩ := entry
  unfold PageEntry.fork
  cases source with
  | shared page => exact ⟨.refl h, ⟨rfl, rfl, fun _ => rfl, id⟩, ⟨rfl, rfl, fun _ => rfl, id⟩⟩
  | priv page wp =>
    have hnot : (PageSource.priv page wp).sharing ≠ .shared := by
      cases wp <;> nofun
    exact ⟨.refl h, ⟨rfl, rfl, fun hs => absurd hs hnot, fun _ => rfl⟩,
      ⟨rfl, rfl, fun hs => absurd hs hnot, fun _ => rfl⟩⟩
  | object slot shared =>
    cases shared with
    | true => exact ⟨.refl h, ⟨rfl, rfl, fun _ => rfl, id⟩, ⟨rfl, rfl, fun _ => rfl, id⟩⟩
    | false =>
      have hnot : (PageSource.object slot false).sharing ≠ .shared := nofun
      have hcow : (PageSource.object slot false).sharing ≠ .cow := nofun
      cases hslot : h.slots[slot]? with
      | none =>
        simp only [PageSource.fork, hslot]
        exact ⟨.refl h, ⟨rfl, rfl, fun hs => absurd hs hnot, id⟩,
          ⟨rfl, rfl, fun hs => absurd hs hnot, id⟩⟩
      | some s =>
        obtain ⟨page, object, offset⟩ := s
        have hresident : h.residentPage slot = page := by
          unfold Heap.residentPage
          rw [hslot]
          rfl
        cases page with
        | some page =>
          simp only [PageSource.fork, hslot]
          exact ⟨.refl h, ⟨rfl, hresident.symm, fun hs => absurd hs hnot, fun hs => absurd hs hcow⟩,
            ⟨rfl, hresident.symm, fun hs => absurd hs hnot, fun hs => absurd hs hcow⟩⟩
        | none =>
          -- the copy gets a slot of its own, which is not resident either
          have hnew := h.newSlots_newSlot object offset
          have hcopy : (h.newSlot object offset).2.residentPage (h.newSlot object offset).1 =
              none := by
            simp [Heap.residentPage, Heap.newSlot]
          simp only [PageSource.fork, hslot]
          exact ⟨hnew, ⟨rfl, hnew.residentPage slot, fun hs => absurd hs hnot,
            fun hs => absurd hs hcow⟩,
            ⟨rfl, hcopy.trans hresident.symm, fun hs => absurd hs hnot, fun hs => absurd hs hcow⟩⟩

/-- The entries under a page number, before the fork and on one side after it. -/
def ForkedEntry (h h' : Heap) (before after : Option PageEntry) : Prop :=
  Option.Rel (ForkOf h h') before after

/-- The loop of `PageTable::fork`. -/
theorem forkEntries_spec (h : Heap) (entries : List (PageNumber × PageEntry)) :
    h.NewSlots (PageTable.forkEntries h entries).2.2 ∧ ∀ n,
      ForkedEntry h (PageTable.forkEntries h entries).2.2 (entries.lookup n)
        ((PageTable.forkEntries h entries).1.lookup n) ∧
      ForkedEntry h (PageTable.forkEntries h entries).2.2 (entries.lookup n)
        ((PageTable.forkEntries h entries).2.1.lookup n) := by
  induction entries generalizing h with
  | nil => exact ⟨.refl h, fun n => ⟨.none, .none⟩⟩
  | cons p entries ih =>
    obtain ⟨k, entry⟩ := p
    obtain ⟨hnew, hself, hcopy⟩ := forkOf_entry h entry
    obtain ⟨hnew', hrest⟩ := ih (entry.fork h).2.2
    refine ⟨hnew.trans hnew', fun n => ?_⟩
    obtain ⟨hselves, hcopies⟩ := hrest n
    have hearlier : ∀ {a b : Option PageEntry},
        ForkedEntry (entry.fork h).2.2 (PageTable.forkEntries (entry.fork h).2.2 entries).2.2 a b →
          ForkedEntry h (PageTable.forkEntries (entry.fork h).2.2 entries).2.2 a b := by
      intro a b hab
      cases hab with
      | none => exact .none
      | some hfork => exact .some (hfork.earlier hnew)
    simp only [PageTable.forkEntries, lookup_cons_if]
    by_cases hn : n = k
    · rw [if_pos hn, if_pos hn, if_pos hn]
      exact ⟨.some (hself.later hnew'), .some (hcopy.later hnew')⟩
    · rw [if_neg hn, if_neg hn, if_neg hn]
      exact ⟨hearlier hselves, hearlier hcopies⟩

/-! ## What an MMU sees -/

namespace World

variable {w : World}

/-- The entry of an MMU under a page number. -/
def entryAt (w : World) (m : ℕ) (n : PageNumber) : Option PageEntry :=
  (w.mmu? m).bind (·.table.get? n)

/-- The host page behind a page number, if the page is mapped and resident. -/
def host? (w : World) (m : ℕ) (n : PageNumber) : Option HostPage :=
  (w.entryAt m n).bind fun entry => (entry.asPage w.heap).map (·.ptr)

/-- The bytes an MMU sees in a page. -/
def view (w : World) (m : ℕ) (n : PageNumber) : Option PageBytes := (w.host? m n).map w.heap.mem

/-- Right after a fork of MMU `m` as `child`: both map the pages that `m` mapped, with
    the same protections and the same bytes, and a page is resident if it was. -/
structure ForkCopies (w w' : World) (m child : ℕ) : Prop where
  parentEntries : ∀ n, (w'.entryAt m n).map (·.protections) = (w.entryAt m n).map (·.protections)
  childEntries : ∀ n, (w'.entryAt child n).map (·.protections) = (w.entryAt m n).map (·.protections)
  parentView : ∀ n, w'.view m n = w.view m n
  childView : ∀ n, w'.view child n = w.view m n

end World

theorem asPage_ptr (h : Heap) (entry : PageEntry) :
    (entry.asPage h).map (·.ptr) = (entry.source.page? h).bind h.hostOf := by
  unfold PageEntry.asPage
  cases entry.source.page? h with
  | none => rfl
  | some page =>
    cases hhost : h.hostOf page with
    | none => simp [hhost]
    | some host => simp [hhost]

theorem ForkOf.ptr {h h' : Heap} {entry forked : PageEntry} (hfork : ForkOf h h' entry forked)
    (hnew : h.NewSlots h') : (forked.asPage h').map (·.ptr) = (entry.asPage h).map (·.ptr) := by
  have hhost : h'.hostOf = h.hostOf := by
    funext page
    unfold Heap.hostOf
    rw [hnew.pages]
  rw [asPage_ptr, asPage_ptr, hfork.page, hhost]

namespace World

variable {w : World}

/-- The entries of both sides of a fork. -/
theorem fork_entries (token : Token) {m : ℕ} {mmu : IoMMU} (hm : w.mmu? m = some mmu) :
    w.heap.NewSlots (w.fork token m).heap ∧ ∀ n,
      ForkedEntry w.heap (w.fork token m).heap (w.entryAt m n) ((w.fork token m).entryAt m n) ∧
      ForkedEntry w.heap (w.fork token m).heap (w.entryAt m n)
        ((w.fork token m).entryAt w.mmus.length n) := by
  obtain ⟨hheap, hmmus, -⟩ := @fork_eq w token m mmu hm
  obtain ⟨hnew, hentries⟩ := forkEntries_spec w.heap mmu.table.entries
  have hne : ¬ m = w.mmus.length := (mmu?_lt hm).ne
  rw [hheap]
  refine ⟨hnew, fun n => ?_⟩
  unfold entryAt
  rw [hmmus m, hmmus w.mmus.length, if_neg hne, if_pos rfl, if_pos rfl, hm]
  exact hentries n

theorem forkCopies (token : Token) {m : ℕ} {mmu : IoMMU} (hm : w.mmu? m = some mmu) :
    ForkCopies w (w.fork token m) m w.mmus.length := by
  obtain ⟨hnew, hentries⟩ := fork_entries token hm
  have hprot : ∀ {a b : Option PageEntry}, ForkedEntry w.heap (w.fork token m).heap a b →
      b.map (·.protections) = a.map (·.protections) := by
    intro a b hab
    cases hab with
    | none => rfl
    | some hfork => exact congrArg some hfork.protections
  have hview : ∀ {k : ℕ} {n : PageNumber}, ForkedEntry w.heap (w.fork token m).heap (w.entryAt m n)
      ((w.fork token m).entryAt k n) → (w.fork token m).view k n = w.view m n := by
    intro k n hab
    unfold view host?
    rw [hnew.mem]
    generalize w.entryAt m n = a at hab
    generalize (w.fork token m).entryAt k n = b at hab
    cases hab with
    | none => rfl
    | some hfork =>
      rw [Option.bind_some, Option.bind_some, hfork.ptr hnew]
  exact ⟨fun n => hprot (hentries n).1, fun n => hprot (hentries n).2,
    fun n => hview (hentries n).1,
    fun n => hview (hentries n).2⟩

/-! ## Families -/

/-- The pages of a range, none if it is refused. -/
def rangePages (start size : BitVec 64) : List PageNumber :=
  match getPages start size with
  | .ok (some pages) => pages
  | _ => []

/-- The family of page `n` after a call: a fork of a member is a member, and a member
    that is dropped or unmaps the page is none any more. -/
def track (w : World) (n : PageNumber) (family : List ℕ) (op : Op) : List ℕ :=
  match op with
  | .fork k => if k ∈ family then w.mmus.length :: family else family
  | .dropMmu k => family.filter (· ≠ k)
  | .unmap k start size =>
    if n ∈ rangePages start size then family.filter (· ≠ k) else family
  | _ => family

/-- A run, with the family of page `n`. -/
def follow (n : PageNumber) : World × List ℕ → List (Op × Token) → World × List ℕ
  | s, [] => s
  | s, call :: calls => follow n (s.1.step call.1 call.2, s.1.track n s.2 call.1) calls

theorem follow_run (n : PageNumber) (s : World × List ℕ) (calls : List (Op × Token)) :
    (follow n s calls).1 = s.1.run calls := by
  induction calls generalizing s with
  | nil => rfl
  | cons call calls ih => exact ih _

theorem source?_withTable {m : ℕ} {mmu : IoMMU} (hm : w.mmu? m = some mmu) {t : PageTable}
    {k : ℕ} {n : PageNumber} {src : PageSource} (hsrc : w.source? k n = some src)
    (ht : k = m → mmu.table.source? n = some src → t.source? n = some src) :
    w.source?.withTable m t k n = some src := by
  unfold Sources.withTable
  by_cases hk : k = m
  · rw [if_pos hk]
    refine ht hk ?_
    unfold source? at hsrc
    rw [hk, hm] at hsrc
    exact hsrc
  · rw [if_neg hk]
    exact hsrc

theorem source?_mapPages (region : MapRegion) (prot : MemProt) (start : PageNumber)
    (pages : List PageNumber) (t : PageTable) (h : Heap) {n : PageNumber} {src : PageSource}
    (hsrc : t.source? n = some src) :
    (mapPages region prot start pages t h).1.source? n = some src := by
  induction pages generalizing t h with
  | nil => exact hsrc
  | cons k pages ih =>
    refine ih _ _ ?_
    unfold PageTable.source? at hsrc ⊢
    obtain ⟨entry, hget, -⟩ := Option.map_eq_some_iff.1 hsrc
    rw [PageTable.get?_insert]
    by_cases hk : k ∈ t.keys
    · rw [if_pos hk]
      exact hsrc
    · have hne : ¬ n = k := by
        rintro rfl
        exact hk (PageTable.mem_keys_iff.2 ⟨entry, hget⟩)
      rw [if_neg hk, if_neg hne]
      exact hsrc

theorem source?_mapRegion {k : ℕ} {n : PageNumber} {src : PageSource}
    (hsrc : w.source? k n = some src) (token : Token) (m : ℕ) (base size : BitVec 64)
    (prot : MemProt)
    (region : MapRegion) : (w.mapRegion token m base size prot region).source? k n = some src := by
  unfold mapRegion
  split
  · rename_i mmu pages hmmu hpages
    unfold mapInner
    split
    · rename_i t h heq
      split at heq
      · cases heq
      · obtain ⟨rfl, rfl⟩ := Prod.mk.inj (Except.ok.inj heq)
        unfold modifyTable
        rw [source?_setMmu hmmu]
        exact source?_withTable hmmu hsrc fun _ ht => source?_mapPages region prot _ _ _ _ ht
    · exact hsrc
  · exact hsrc

theorem source?_unmapped {pages : List PageNumber} {t : PageTable} {n : PageNumber}
    (hn : n ∉ pages) :
    (pages.foldl PageTable.remove t).source? n = t.source? n := by
  induction pages generalizing t with
  | nil => rfl
  | cons k pages ih =>
    rw [List.foldl_cons, ih fun hmem => hn (List.mem_cons_of_mem _ hmem)]
    unfold PageTable.source?
    rw [PageTable.get?_remove, if_neg]
    rintro rfl
    exact hn List.mem_cons_self

theorem source?_unmap {k : ℕ} {n : PageNumber} {src : PageSource} (hsrc : w.source? k n = some src)
    (token : Token) {m : ℕ} {start size : BitVec 64}
    (hkeep : k = m → n ∉ rangePages start size) :
    (w.unmap token m start size).source? k n = some src := by
  unfold unmap
  split
  · rename_i mmu pages hmmu hpages
    unfold modifyTable
    rw [source?_setMmu hmmu]
    refine source?_withTable hmmu hsrc fun hk ht => ?_
    have hn := hkeep hk
    unfold rangePages at hn
    rw [hpages] at hn
    rw [source?_unmapped hn]
    exact ht
  · exact hsrc

theorem source?_protect {k : ℕ} {n : PageNumber} {src : PageSource}
    (hsrc : w.source? k n = some src) (token : Token) (m : ℕ) (start size : BitVec 64)
    (prot : MemProt) :
    (w.protect token m start size prot).source? k n = some src := by
  unfold protect
  split
  · rename_i mmu pages hmmu hpages
    split
    · unfold modifyTable
      rw [source?_setMmu hmmu]
      refine source?_withTable hmmu hsrc fun _ ht => ?_
      unfold PageTable.source? protectPages at *
      rw [PageTable.get?_mapVals, Option.map_map]
      obtain ⟨entry, hget, hentry⟩ := Option.map_eq_some_iff.1 ht
      rw [hget, Option.map_some, Function.comp_apply]
      split_ifs
      · exact congrArg some hentry
      · exact congrArg some hentry
    · exact hsrc
  · exact hsrc

/-- `un_cow` leaves shared entries alone. -/
theorem source?_unCowAt {k : ℕ} {n : PageNumber} {src : PageSource}
    (hsrc : w.source? k n = some src) (hshared : src.sharing = .shared) (held : List PageId) (m : ℕ)
    (n' : PageNumber) :
    (w.unCowAt held m n').source? k n = some src := by
  cases hm : w.mmu? m with
  | none =>
    unfold unCowAt
    rw [hm]
    exact hsrc
  | some mmu =>
    obtain ⟨heq, -⟩ | ⟨page, prot, page', h', hget, -, heq⟩ := unCowAt_cases held hm n'
    · rw [heq]
      exact hsrc
    · rw [heq, source?_setMmu hm]
      refine source?_withTable hm hsrc fun _ ht => ?_
      unfold PageTable.source? at ht ⊢
      rw [PageTable.get?_modify, if_neg]
      · exact ht
      · rintro rfl
        rw [hget] at ht
        obtain rfl := Option.some.inj ht
        cases hshared

theorem source?_copyAllCowPages {k : ℕ} {n : PageNumber} {src : PageSource}
    (hsrc : w.source? k n = some src) (hshared : src.sharing = .shared) (token : Token) (m : ℕ)
    (held : List PageId) : (w.copyAllCowPages token m held).source? k n = some src := by
  have hfold : ∀ (ns : List PageNumber) (w : World), w.source? k n = some src →
      (ns.foldl (fun w n => w.unCowAt held m n) w).source? k n = some src := by
    intro ns
    induction ns with
    | nil => exact fun w hw => hw
    | cons n' ns ih => exact fun w hw => ih _ (source?_unCowAt hw hshared held m n')
  unfold copyAllCowPages
  split
  · exact hsrc
  · rename_i mmu hm
    have hcopied := hfold mmu.table.keys w hsrc
    simp only
    split
    · exact hcopied
    · rename_i mmu' hm'
      split_ifs
      · rw [source?_setMmu hm', withTable_self hm']
        exact hcopied
      · exact hcopied

theorem forkedEntry_source {h h' : Heap} {a b : Option PageEntry} (hab : ForkedEntry h h' a b)
    {src : PageSource} (hsrc : a.map (·.source) = some src) (hshared : src.sharing = .shared) :
    b.map (·.source) = some src := by
  cases hab with
  | none => cases hsrc
  | some hfork =>
    obtain rfl := Option.some.inj hsrc
    exact congrArg some (hfork.shared hshared)

theorem source?_eq_entryAt (w : World) (k : ℕ) (n : PageNumber) :
    w.source? k n = (w.entryAt k n).map (·.source) := by
  unfold source? entryAt PageTable.source?
  rw [Option.map_bind]
  rfl

/-- The fork of an MMU has its shared entries. -/
theorem source?_fork {m : ℕ} {n : PageNumber} {src : PageSource} (hsrc : w.source? m n = some src)
    (hshared : src.sharing = .shared) (token : Token) :
    (w.fork token m).source? m n = some src ∧
      (w.fork token m).source? w.mmus.length n = some src := by
  obtain ⟨mmu, -, hm, -, -⟩ := source?_eq_some.1 hsrc
  obtain ⟨hself, hcopy⟩ := (fork_entries token hm).2 n
  simp only [source?_eq_entryAt] at hsrc ⊢
  exact ⟨forkedEntry_source hself hsrc hshared, forkedEntry_source hcopy hsrc hshared⟩

theorem source?_of_mmus {w' : World} {k : ℕ} {n : PageNumber} {src : PageSource}
    (hsrc : w.source? k n = some src) (hmmu : w'.mmu? k = w.mmu? k) :
    w'.source? k n = some src := by
  unfold source? at hsrc ⊢
  rw [hmmu]
  exact hsrc

theorem mmu?_runLoad {α : Type} (m : ℕ) (c : Option ℕ) (x : Heap → IoMMU → Access α) (k : ℕ) :
    (w.runLoad m c x).mmu? k = w.mmu? k := by
  unfold runLoad
  split
  · rfl
  · exact setCache_mmu? _ _ k

/-- A shared entry stays as it is in a call that does not unmap it. -/
theorem source?_step {k : ℕ} {n : PageNumber} {src : PageSource} (hsrc : w.source? k n = some src)
    (hshared : src.sharing = .shared) {op : Op} (hkeep : k ∈ w.track n [k] op) (token : Token) :
    (w.step op token).source? k n = some src := by
  have hlt : k < w.mmus.length := by
    obtain ⟨mmu, -, hm, -, -⟩ := source?_eq_some.1 hsrc
    exact mmu?_lt hm
  cases op with
  | newMmu =>
    refine source?_of_mmus hsrc ?_
    rw [step, mmu?_append, if_neg hlt.ne]
  | newTlb => exact hsrc
  | dropMmu m =>
    have hne : k ≠ m := by simpa [track] using hkeep
    refine source?_of_mmus hsrc ?_
    unfold step mmu?
    rw [List.getElem?_set_ne hne.symm]
  | dropTlb t => exact hsrc
  | map m base size lazy shared prot => exact source?_mapRegion hsrc token m base size prot _
  | mapExtern m base size ptr readonly shared prot =>
    simp only [step]
    split
    · exact source?_mapRegion hsrc token m base size prot _
    · exact hsrc
  | mapDevice m base size device shared prot =>
    exact source?_mapRegion hsrc token m base size prot _
  | unmap m start size =>
    refine source?_unmap hsrc token fun hk hn => ?_
    rw [track, if_pos hn, hk] at hkeep
    simp at hkeep
  | protect m start size prot => exact source?_protect hsrc token m start size prot
  | fork m =>
    by_cases hk : k = m
    · subst hk
      exact (source?_fork hsrc hshared token).1
    · cases hm : w.mmu? m with
      | none =>
        refine source?_of_mmus hsrc ?_
        simp only [step, fork, hm]
      | some mmu =>
        refine source?_of_mmus hsrc ?_
        rw [step, (fork_eq hm).2.1, if_neg hlt.ne, if_neg hk]
  | copyAllCowPages m held => exact source?_copyAllCowPages hsrc hshared token m held
  | faultIn slot bytes => exact hsrc
  | refresh m => exact source?_of_mmus hsrc (mmu?_refresh m k)
  | lookup m c n => exact source?_of_mmus hsrc (mmu?_runLoad m c _ k)
  | load m c vaddr len force => exact source?_of_mmus hsrc (mmu?_runLoad m c _ k)
  | scalarLoad m c width vaddr => exact source?_of_mmus hsrc (mmu?_runLoad m c _ k)
  | store m c sop => exact source?_of_mmus hsrc ((runStore_cases m c sop).1 k)

/-- All members of a family have the same shared source. -/
def Shares (w : World) (n : PageNumber) (src : PageSource) (family : List ℕ) : Prop :=
  ∀ k ∈ family, w.source? k n = some src

theorem Shares.step {n : PageNumber} {src : PageSource} {family : List ℕ}
    (hw : w.Shares n src family) (hshared : src.sharing = .shared) (op : Op) (token : Token) :
    (w.step op token).Shares n src (w.track n family op) := by
  have hold : ∀ {k}, k ∈ family → k ∈ w.track n [k] op → (w.step op token).source? k n = some src :=
    fun hk hkeep => source?_step (hw _ hk) hshared hkeep token
  intro k hk
  cases op with
  | fork m =>
    rw [track] at hk
    by_cases hm : m ∈ family
    · rw [if_pos hm] at hk
      rcases List.mem_cons.1 hk with rfl | hk
      · exact (source?_fork (hw m hm) hshared token).2
      · refine hold hk ?_
        rw [track]
        split_ifs <;> simp
    · rw [if_neg hm] at hk
      refine hold hk ?_
      rw [track]
      split_ifs <;> simp
  | dropMmu m =>
    obtain ⟨hk, hne⟩ := List.mem_filter.1 hk
    exact hold hk (List.mem_filter.2 ⟨List.mem_singleton_self k, hne⟩)
  | unmap m start size =>
    rw [track] at hk
    by_cases hn : n ∈ rangePages start size
    · rw [if_pos hn] at hk
      obtain ⟨hk, hne⟩ := List.mem_filter.1 hk
      refine hold hk ?_
      rw [track, if_pos hn]
      exact List.mem_filter.2 ⟨List.mem_singleton_self k, hne⟩
    · rw [if_neg hn] at hk
      refine hold hk ?_
      rw [track, if_neg hn]
      exact List.mem_singleton_self k
  | _ => exact hold hk (List.mem_singleton_self k)

/-- A family keeps its source in every run. -/
theorem Shares.follow {n : PageNumber} {src : PageSource} {family : List ℕ}
    (hw : w.Shares n src family) (hshared : src.sharing = .shared) (calls : List (Op × Token)) :
    (World.follow n (w, family) calls).1.Shares n src (World.follow n (w, family) calls).2 := by
  induction calls generalizing w family with
  | nil => exact hw
  | cons call calls ih => exact ih (hw.step hshared call.1 call.2)

/-! ## One storage -/

/-- All members of a family map the page to one host page, resident for all or for none
    of them, and see the same bytes in it. -/
def OneStorage (w : World) (n : PageNumber) (family : List ℕ) : Prop :=
  ∀ k ∈ family, ∀ k' ∈ family, (w.entryAt k n).isSome = true ∧ w.host? k n = w.host? k' n ∧
    w.view k n = w.view k' n

theorem host?_eq {k : ℕ} {n : PageNumber} {src : PageSource} (hsrc : w.source? k n = some src) :
    w.host? k n = (src.page? w.heap).bind w.heap.hostOf := by
  rw [source?_eq_entryAt] at hsrc
  obtain ⟨entry, hentry, rfl⟩ := Option.map_eq_some_iff.1 hsrc
  unfold host?
  rw [hentry, Option.bind_some, asPage_ptr]

theorem Shares.oneStorage {n : PageNumber} {src : PageSource} {family : List ℕ}
    (hw : w.Shares n src family) : w.OneStorage n family := by
  intro k hk k' hk'
  have hhost : w.host? k n = w.host? k' n := by
    rw [host?_eq (hw k hk), host?_eq (hw k' hk')]
  refine ⟨?_, hhost, ?_⟩
  · have hsrc := hw k hk
    rw [source?_eq_entryAt] at hsrc
    obtain ⟨entry, hentry, -⟩ := Option.map_eq_some_iff.1 hsrc
    rw [hentry]
    rfl
  · unfold view
    rw [hhost]

/-- No call moves a page or makes it absent. -/
theorem heap_le_step (w : World) (op : Op) (token : Token) : w.heap.Le (w.step op token).heap := by
  cases step_change w op token with
  | keep heap mmu tlb => exact heap
  | newMmu eq =>
    rw [eq]
    exact Heap.Le.refl _
  | table m mmu modified t change same keys => exact change.heap
  | fork m mmu old op eq =>
    rw [eq, (fork_eq old).1]
    exact Heap.le_forkEntries _ _
  | access m mmu old c cache heap mmus tlb lookups => exact heap

theorem page?_mono {h h' : Heap} (hle : h.Le h') {src : PageSource} {page : PageId}
    (hpage : src.page? h = some page) : src.page? h' = some page := by
  cases src with
  | shared p => exact hpage
  | priv p wp => exact hpage
  | object slot shared => exact hle.resident hpage

/-- What a call leaves in the host page of one member is what all members see. -/
theorem Shares.view_step {n : PageNumber} {src : PageSource} {family : List ℕ}
    (hw : w.Shares n src family) (hshared : src.sharing = .shared) {k : ℕ} (hk : k ∈ family)
    {host : HostPage} (hhost : w.host? k n = some host) (op : Op) (token : Token) {k' : ℕ}
    (hk' : k' ∈ w.track n family op) :
    (w.step op token).view k' n = some ((w.step op token).heap.mem host) := by
  have hle := heap_le_step w op token
  rw [host?_eq (hw k hk)] at hhost
  obtain ⟨page, hpage, hpageHost⟩ := Option.bind_eq_some_iff.1 hhost
  unfold view
  rw [host?_eq (hw.step hshared op token k' hk'), page?_mono hle hpage, Option.bind_some,
    hle.host hpageHost]
  rfl

/-- A page that is faulted in is seen by all members. -/
theorem Shares.view_faultIn {n : PageNumber} {slot : SlotId} {shared : Bool} {family : List ℕ}
    (hw : w.Shares n (.object slot shared) family) {object : ℕ} {offset : PageNumber}
    (hslot : w.heap.slots[slot]? = some ⟨none, object, offset⟩) (bytes : PageBytes) (token : Token)
    {k : ℕ} (hk : k ∈ family) : (w.step (.faultIn slot bytes) token).view k n = some bytes := by
  have hlt : slot < w.heap.slots.length := getElem?_eq_some_lt hslot
  have hsrc : (w.step (.faultIn slot bytes) token).source? k n = some (.object slot shared) :=
    hw k hk
  have hheap : (w.step (.faultIn slot bytes) token).heap = w.heap.faultIn slot bytes := rfl
  unfold view
  rw [host?_eq hsrc, hheap]
  unfold Heap.faultIn
  rw [hslot]
  simp [PageSource.page?, Heap.residentPage, Heap.allocPage, Heap.hostOf, hlt]

/-- The bytes that `store` puts into the page through one member are seen by all. -/
theorem Shares.view_store {n : PageNumber} {src : PageSource} {family : List ℕ}
    (hw : w.Shares n src family) (hshared : src.sharing = .shared) {k : ℕ} (hk : k ∈ family)
    {mmu : IoMMU} (hm : w.mmu? k = some mmu) {c : Option ℕ} (hc : Consistent w.heap mmu (w.cache c))
    {vaddr : BitVec 64} {mem : List (BitVec 8)} (hsize : mem.length < 2 ^ 64)
    (ha : BulkAllowed w.heap mmu.table (some MemProt.WRITE) true vaddr mem.length) (token : Token)
    {k' : ℕ} (hk' : k' ∈ family) {i : ℕ} (hi : i < mem.length) (hpage : bytePage vaddr i = n)
    (hlast : ∀ j, i < j → j < mem.length →
      byteTarget w.heap mmu.table vaddr j ≠ byteTarget w.heap mmu.table vaddr i) :
    ∃ bytes, (w.step (.store k c (.store vaddr mem)) token).view k' n = some bytes ∧
      bytes (byteOffset vaddr i) = mem[i] := by
  have hrun : (((StoreOp.store vaddr mem).run w.heap mmu).run.run (w.cache c)).1 =
      .ok (bulkEffects (pageAt w.heap mmu.table) vaddr mem) :=
    (returns_memAccess _ hsize ha (w.cache c) hc).1
  have hheap := step_store_heap hm c token hrun
  have htransferred := @transferred_of_view w.heap mmu.table vaddr mem (pageAt w.heap mmu.table)
    fun _ _ => rfl
  -- the host page of the byte is the one of the page number
  have hhost : w.host? k n = some (byteTarget w.heap mmu.table vaddr i).1 := by
    obtain ⟨page, hget⟩ := ((ha.resolve_left (by omega)).2 i hi).found
    unfold byteTarget
    rw [pageAt_eq hget]
    obtain ⟨entry, hentry, hasPage⟩ := getPage_eq_ok.1 hget
    unfold host? entryAt
    rw [hm, Option.bind_some, ← hpage, hentry, Option.bind_some, hasPage]
    rfl
  refine ⟨_, hw.view_step hshared hk hhost _ token hk', ?_⟩
  rw [hheap]
  exact htransferred.bytes i hi hlast

end World

/-- One storage of page `n` for a family: all members see the same bytes; what any call
    leaves in the page through one of them is what all see; and so are the bytes of a
    fault-in and those of a store through one of them. -/
structure SharedStorage (w : World) (n : PageNumber) (src : PageSource)
    (family : List ℕ) : Prop where
  storage : w.OneStorage n family
  call : ∀ k ∈ family, ∀ host, w.host? k n = some host → ∀ op token, ∀ k' ∈ w.track n family op,
    (w.step op token).view k' n = some ((w.step op token).heap.mem host)
  faultIn : ∀ slot shared object offset, src = .object slot shared →
    w.heap.slots[slot]? = some ⟨none, object, offset⟩ →
    ∀ bytes token, ∀ k ∈ family, (w.step (.faultIn slot bytes) token).view k n = some bytes
  store : ∀ k ∈ family, ∀ mmu c, w.mmu? k = some mmu → Consistent w.heap mmu (w.cache c) →
    ∀ vaddr (mem : List (BitVec 8)) token, mem.length < 2 ^ 64 →
    BulkAllowed w.heap mmu.table (some MemProt.WRITE) true vaddr mem.length →
    ∀ k' ∈ family, ∀ i (hi : i < mem.length), bytePage vaddr i = n →
    (∀ j, i < j → j < mem.length →
      byteTarget w.heap mmu.table vaddr j ≠ byteTarget w.heap mmu.table vaddr i) →
    ∃ bytes, (w.step (.store k c (.store vaddr mem)) token).view k' n = some bytes ∧
      bytes (byteOffset vaddr i) = mem[i]

theorem World.Shares.sharedStorage {w : World} {n : PageNumber} {src : PageSource} {family : List ℕ}
    (hw : w.Shares n src family) (hshared : src.sharing = .shared) :
    SharedStorage w n src family where
  storage := hw.oneStorage
  call := fun _ hk _ hhost op token _ hk' => hw.view_step hshared hk hhost op token hk'
  faultIn := by
    rintro slot shared object offset rfl hslot bytes token k hk
    exact hw.view_faultIn hslot bytes token hk
  store := fun _ hk _ _ hm hc _ _ token hsize ha _ hk' _ hi hpage hlast =>
    hw.view_store hshared hk hm hc hsize ha token hk' hi hpage hlast

/-- A fork in any reachable world copies the address space, and a shared page of an MMU
    stays one storage through any chain of forks, in every world of every later run. -/
theorem fork_copies_run (calls : List (Op × Token)) {m : ℕ} {mmu : IoMMU}
    (hm : (World.init.run calls).mmu? m = some mmu) :
    (∀ token, World.ForkCopies (World.init.run calls)
      ((World.init.run calls).step (.fork m) token) m
      (World.init.run calls).mmus.length) ∧
    ∀ n src, (World.init.run calls).source? m n = some src → src.sharing = .shared → ∀ later,
      SharedStorage (World.follow n (World.init.run calls, [m]) later).1 n src
        (World.follow n (World.init.run calls, [m]) later).2 := by
  refine ⟨fun token => World.forkCopies token hm, fun n src hsrc hshared later => ?_⟩
  have hfirst : (World.init.run calls).Shares n src [m] := by
    intro k hk
    rw [List.mem_singleton.1 hk]
    exact hsrc
  exact (hfirst.follow hshared later).sharedStorage hshared

/-- A shared anonymous page. -/
def mapShared : List Op :=
  [.newMmu, .map 0 0 4096 false true (MemProt.READ ||| MemProt.WRITE)]

/-- The page through a child and a grandchild. -/
theorem fork_copies_grandchild :
    (World.follow 0 (World.init.run (mapShared.zipIdx 0), [0]) [(.fork 0, 2), (.fork 1, 3)]).2 =
        [2, 1, 0] ∧
      SharedStorage
        (World.follow 0 (World.init.run (mapShared.zipIdx 0), [0]) [(.fork 0, 2), (.fork 1, 3)]).1 0
        (.shared 0) [2, 1, 0] := by
  have hm : ∃ mmu, (World.init.run (mapShared.zipIdx 0)).mmu? 0 = some mmu := ⟨_, rfl⟩
  obtain ⟨mmu, hm⟩ := hm
  exact ⟨by decide, (fork_copies_run (mapShared.zipIdx 0) hm).2 0 (.shared 0) rfl rfl
    [(.fork 0, 2), (.fork 1, 3)]⟩

end RapidArm.Mmu
