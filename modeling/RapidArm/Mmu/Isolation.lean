import RapidArm.Mmu.Runs

/-!
# Which entries share a page

The page-table entries of all MMUs of a fabric, as a map from positions (an MMU and a
page number) to page sources. A source that is private and not write-protected owns
its page object: no other entry resolves to it. Copy-on-write entries share a page
only with copy-on-write entries, shared ones only with shared ones, and the zero page
is held by copy-on-write entries alone.

Results:
* `Isolated.insert`, `Isolated.share`: a new entry, and an entry handed to a second
  address space.
* `isolated_forkEntries`, `isolated_mapPages`: the loops of `fork` and `map_inner`.
* `World.Isolated.step`: every call but a store keeps a world isolated.
-/

namespace RapidArm.Mmu

open RapidArm.Ir RapidArm.Lib

/-! ## The invariant -/

/-- With whom an entry shares its page. -/
inductive Sharing
  | shared
  | cow
  | own
  deriving DecidableEq, Repr

/-- The sharing of a source. -/
def PageSource.sharing : PageSource → Sharing
  | shared _ | object _ true => .shared
  | priv _ true => .cow
  | priv _ false | object _ false => .own

/-- The page object or the slot of a source exists. -/
def PageSource.Alive (h : Heap) : PageSource → Prop
  | shared page | priv page _ => page < h.pages.length
  | object slot _ => slot < h.slots.length

/-- The sources of all entries, by MMU and page number. -/
abbrev Sources := ℕ → PageNumber → Option PageSource

/-- The sources of a table. -/
def PageTable.source? (t : PageTable) (n : PageNumber) : Option PageSource :=
  (t.get? n).map (·.source)

/-- The sources of a world. -/
def World.source? (w : World) : Sources := fun m n => (w.mmu? m).bind (·.table.source? n)

/-- Entries that share a page agree on how. -/
structure Isolated (h : Heap) (S : Sources) : Prop where
  alive : ∀ m n src, S m n = some src → src.Alive h
  page : ∀ m n src m' n' src' p, S m n = some src → S m' n' = some src' →
    src.page? h = some p → src'.page? h = some p →
    (m = m' ∧ n = n') ∨ (src.sharing = src'.sharing ∧ src.sharing ≠ .own)
  slot : ∀ m n m' n' s sh, S m n = some (.object s false) → S m' n' = some (.object s sh) →
    m = m' ∧ n = n'
  zero : ∀ m n src p, S m n = some src → src.page? h = some p → h.zeroPage = some p →
    src.sharing = .cow

/-- Page objects on allocated memory have it to themselves, and the zero page is zero. -/
structure Heap.Sound (h : Heap) : Prop where
  host_lt : ∀ p k, h.hostOf p = some (.alloc k) → k < h.nextHost
  host_inj : ∀ p p' k, h.hostOf p = some (.alloc k) → h.hostOf p' = some (.alloc k) → p = p'
  resident_lt : ∀ s p, h.residentPage s = some p → p < h.pages.length
  zero : ∀ p, h.zeroPage = some p → ∃ k, h.hostOf p = some (.alloc k) ∧ ∀ i, h.mem (.alloc k) i = 0

/-- The invariant of a fabric. -/
structure World.Isolated (w : World) : Prop where
  sound : w.heap.Sound
  isolated : Mmu.Isolated w.heap w.source?

/-! ## Growing heaps -/

theorem Heap.hostOf_lt {h : Heap} {p : PageId} {host : HostPage} (hp : h.hostOf p = some host) :
    p < h.pages.length := by
  unfold hostOf at hp
  obtain ⟨page, hpage, -⟩ := Option.map_eq_some_iff.1 hp
  exact getElem?_eq_some_lt hpage

theorem PageSource.page?_lt {h : Heap} (hh : h.Sound) {src : PageSource} (ha : src.Alive h)
    {p : PageId} (hp : src.page? h = some p) : p < h.pages.length := by
  cases src with
  | shared page => exact Option.some.inj hp ▸ ha
  | priv page wp => exact Option.some.inj hp ▸ ha
  | object slot sh => exact hh.resident_lt slot p hp

/-- The heap gains objects; what exists keeps its meaning. -/
structure Heap.Grows (h h' : Heap) : Prop where
  pages : h.pages.length ≤ h'.pages.length
  slots : h.slots.length ≤ h'.slots.length
  resident : ∀ s < h.slots.length, h'.residentPage s = h.residentPage s
  zero : ∀ p, h'.zeroPage = some p → h.zeroPage = some p ∨ h.pages.length ≤ p

theorem Heap.Grows.page? {h h' : Heap} (hg : h.Grows h') {src : PageSource} (ha : src.Alive h) :
    src.page? h' = src.page? h := by
  cases src with
  | shared page => rfl
  | priv page wp => rfl
  | object slot sh => exact hg.resident slot ha

theorem Heap.Grows.alive {h h' : Heap} (hg : h.Grows h') {src : PageSource} (ha : src.Alive h) :
    src.Alive h' := by
  cases src with
  | shared page => exact lt_of_lt_of_le ha hg.pages
  | priv page wp => exact lt_of_lt_of_le ha hg.pages
  | object slot sh => exact lt_of_lt_of_le ha hg.slots

theorem Isolated.grow {h h' : Heap} {S : Sources} (hS : Isolated h S) (hh : h.Sound)
    (hg : h.Grows h') : Isolated h' S := by
  constructor
  · exact fun m n src hsrc => hg.alive (hS.alive m n src hsrc)
  · intro m n src m' n' src' p hsrc hsrc' hp hp'
    rw [hg.page? (hS.alive m n src hsrc)] at hp
    rw [hg.page? (hS.alive m' n' src' hsrc')] at hp'
    exact hS.page m n src m' n' src' p hsrc hsrc' hp hp'
  · exact hS.slot
  · intro m n src p hsrc hp hzero
    have ha := hS.alive m n src hsrc
    rw [hg.page? ha] at hp
    rcases hg.zero p hzero with hold | hnew
    · exact hS.zero m n src p hsrc hp hold
    · exact absurd (PageSource.page?_lt hh ha hp) (Nat.not_lt.2 hnew)

theorem Isolated.sub {h : Heap} {S S' : Sources} (hS : Isolated h S)
    (hsub : ∀ m n src, S' m n = some src → S m n = some src) : Isolated h S' := by
  constructor
  · exact fun m n src hsrc => hS.alive m n src (hsub m n src hsrc)
  · exact fun m n src m' n' src' p hsrc hsrc' =>
      hS.page m n src m' n' src' p (hsub _ _ _ hsrc) (hsub _ _ _ hsrc')
  · exact fun m n m' n' s sh hsrc hsrc' =>
      hS.slot m n m' n' s sh (hsub _ _ _ hsrc) (hsub _ _ _ hsrc')
  · exact fun m n src p hsrc => hS.zero m n src p (hsub _ _ _ hsrc)

/-! ## New entries -/

/-- The sources with one entry set. -/
def Sources.set (S : Sources) (m : ℕ) (n : PageNumber) (src : PageSource) : Sources :=
  fun m' n' => if m' = m ∧ n' = n then some src else S m' n'

theorem Sources.set_cases {S : Sources} {m : ℕ} {n : PageNumber} {src : PageSource} {m' : ℕ}
    {n' : PageNumber} {src' : PageSource} (h : S.set m n src m' n' = some src') :
    (m' = m ∧ n' = n ∧ src' = src) ∨ (¬ (m' = m ∧ n' = n) ∧ S m' n' = some src') := by
  unfold Sources.set at h
  by_cases hpos : m' = m ∧ n' = n
  · rw [if_pos hpos] at h
    exact .inl ⟨hpos.1, hpos.2, (Option.some.inj h).symm⟩
  · rw [if_neg hpos] at h
    exact .inr ⟨hpos, h⟩

/-- A source that no other entry refers to, or the zero page as copy-on-write. -/
structure Separate (h : Heap) (S : Sources) (m : ℕ) (n : PageNumber) (src : PageSource) : Prop where
  alive : src.Alive h
  page : ∀ p, src.page? h = some p → (h.zeroPage = some p ∧ src.sharing = .cow) ∨
    (h.zeroPage ≠ some p ∧ ∀ m' n' src', S m' n' = some src' → ¬ (m' = m ∧ n' = n) →
      src'.page? h ≠ some p)
  slot : ∀ s sh, src = .object s sh → ∀ m' n' sh', S m' n' = some (.object s sh') →
    m' = m ∧ n' = n

theorem Isolated.insert {h : Heap} {S : Sources} (hS : Isolated h S) {m : ℕ} {n : PageNumber}
    {src : PageSource} (hsep : Separate h S m n src) : Isolated h (S.set m n src) := by
  constructor
  · intro m' n' src' hsrc'
    rcases Sources.set_cases hsrc' with ⟨-, -, rfl⟩ | ⟨-, hold⟩
    · exact hsep.alive
    · exact hS.alive m' n' src' hold
  · -- one entry is the new one, or both are old
    have hnew : ∀ m' n' src' p, ¬ (m' = m ∧ n' = n) → S m' n' = some src' →
        src.page? h = some p → src'.page? h = some p →
        src.sharing = src'.sharing ∧ src.sharing ≠ .own := by
      intro m' n' src' p hpos hold hp hp'
      rcases hsep.page p hp with ⟨hzero, hcow⟩ | ⟨-, hno⟩
      · rw [hcow, hS.zero m' n' src' p hold hp' hzero]
        exact ⟨rfl, by decide⟩
      · exact (hno m' n' src' hold hpos hp').elim
    intro m₁ n₁ src₁ m₂ n₂ src₂ p h₁ h₂ hp₁ hp₂
    rcases Sources.set_cases h₁ with ⟨rfl, rfl, rfl⟩ | ⟨hpos₁, hold₁⟩ <;>
      rcases Sources.set_cases h₂ with ⟨rfl, rfl, rfl⟩ | ⟨hpos₂, hold₂⟩
    · exact .inl ⟨rfl, rfl⟩
    · exact .inr (hnew m₂ n₂ src₂ p hpos₂ hold₂ hp₁ hp₂)
    · obtain ⟨heq, hne⟩ := hnew m₁ n₁ src₁ p hpos₁ hold₁ hp₂ hp₁
      exact .inr ⟨heq.symm, heq ▸ hne⟩
    · exact hS.page m₁ n₁ src₁ m₂ n₂ src₂ p hold₁ hold₂ hp₁ hp₂
  · intro m₁ n₁ m₂ n₂ s sh h₁ h₂
    rcases Sources.set_cases h₁ with ⟨rfl, rfl, heq₁⟩ | ⟨hpos₁, hold₁⟩ <;>
      rcases Sources.set_cases h₂ with ⟨rfl, rfl, heq₂⟩ | ⟨hpos₂, hold₂⟩
    · exact ⟨rfl, rfl⟩
    · exact (hpos₂ (hsep.slot s false heq₁.symm m₂ n₂ sh hold₂)).elim
    · exact (hpos₁ (hsep.slot s sh heq₂.symm m₁ n₁ false hold₁)).elim
    · exact hS.slot m₁ n₁ m₂ n₂ s sh hold₁ hold₂
  · intro m' n' src' p hsrc' hp hzero
    rcases Sources.set_cases hsrc' with ⟨rfl, rfl, rfl⟩ | ⟨-, hold⟩
    · rcases hsep.page p hp with ⟨-, hcow⟩ | ⟨hne, -⟩
      · exact hcow
      · exact (hne hzero).elim
    · exact hS.zero m' n' src' p hold hp hzero

/-- An entry handed on to a second position, as a shared one if it was shared and as
    copy-on-write if it was private. -/
theorem Isolated.share {h : Heap} {S : Sources} (hS : Isolated h S) {m : ℕ} (m' : ℕ)
    {n : PageNumber} {src : PageSource} (hsrc : S m n = some src) (src' : PageSource)
    (hpage : src'.page? h = src.page? h)
    (halive : src'.Alive h)
    (hkind : src' = src ∧ src.sharing = .shared ∨ src.sharing ≠ .shared ∧ src'.sharing = .cow) :
    Isolated h ((S.set m n src').set m' n src') := by
  -- an entry is a new one, or an old one elsewhere
  have hcases : ∀ k j x, (S.set m n src').set m' n src' k j = some x →
      x = src' ∨ (¬ (k = m ∧ j = n) ∧ S k j = some x) := by
    intro k j x hx
    rcases Sources.set_cases hx with ⟨-, -, hx⟩ | ⟨-, hx⟩
    · exact .inl hx
    · rcases Sources.set_cases hx with ⟨-, -, hx⟩ | hx
      · exact .inl hx
      · exact .inr hx
  have hnotown : src'.sharing ≠ .own := by
    rcases hkind with ⟨rfl, hshared⟩ | ⟨-, hcow⟩
    · rw [hshared]
      decide
    · rw [hcow]
      decide
  -- an old entry on the page of the new ones
  have hold : ∀ k j x p, ¬ (k = m ∧ j = n) → S k j = some x → x.page? h = some p →
      src'.page? h = some p → x.sharing = src'.sharing := by
    intro k j x p hpos hx hp hp'
    rw [hpage] at hp'
    rcases hS.page k j x m n src p hx hsrc hp hp' with ⟨hk, hj⟩ | ⟨heq, hne⟩
    · exact (hpos ⟨hk, hj⟩).elim
    · rcases hkind with ⟨rfl, -⟩ | ⟨hns, hcow⟩
      · exact heq
      · rw [hcow]
        cases hx : x.sharing with
        | shared => exact (hns (heq ▸ hx)).elim
        | cow => rfl
        | own => exact (hne hx).elim
  constructor
  · intro k j x hx
    rcases hcases k j x hx with rfl | ⟨-, hx⟩
    · exact halive
    · exact hS.alive k j x hx
  · intro k j x k' j' x' p hx hx' hp hp'
    rcases hcases k j x hx with heq | ⟨hpos, hx⟩ <;>
      rcases hcases k' j' x' hx' with heq' | ⟨hpos', hx'⟩
    · rw [heq, heq']
      exact .inr ⟨rfl, hnotown⟩
    · rw [heq] at hp ⊢
      exact .inr ⟨(hold k' j' x' p hpos' hx' hp' hp).symm, hnotown⟩
    · rw [heq'] at hp' ⊢
      have hsame := hold k j x p hpos hx hp hp'
      exact .inr ⟨hsame, hsame ▸ hnotown⟩
    · exact hS.page k j x k' j' x' p hx hx' hp hp'
  · intro k j k' j' s sh hx hx'
    rcases hcases k j _ hx with heq | ⟨hpos, hx⟩ <;>
      rcases hcases k' j' _ hx' with heq' | ⟨hpos', hx'⟩
    · exact (hnotown (heq ▸ rfl)).elim
    · exact (hnotown (heq ▸ rfl)).elim
    · rcases hkind with ⟨rfl, -⟩ | ⟨-, hcow⟩
      · rw [← heq'] at hsrc
        exact (hpos (hS.slot k j m n s sh hx hsrc)).elim
      · rw [← heq'] at hcow
        cases sh <;> cases hcow
    · exact hS.slot k j k' j' s sh hx hx'
  · intro k j x p hx hp hzero
    rcases hcases k j x hx with rfl | ⟨-, hx⟩
    · rw [hpage] at hp
      have hcow := hS.zero m n src p hsrc hp hzero
      rcases hkind with ⟨rfl, -⟩ | ⟨-, hcow'⟩
      · exact hcow
      · exact hcow'
    · exact hS.zero k j x p hx hp hzero

/-! ## Allocation -/

section Alloc

variable {h : Heap}

theorem Heap.grows_of_pages {h' : Heap} {new : List MemoryBackedPage}
    (hpages : h'.pages = h.pages ++ new) (hslots : h'.slots = h.slots)
    (hzero : ∀ p, h'.zeroPage = some p → h.zeroPage = some p ∨ h.pages.length ≤ p) :
    h.Grows h' where
  pages := by simp [hpages]
  slots := by rw [hslots]
  resident s _ := by simp [residentPage, hslots]
  zero := hzero

theorem Heap.Grows.refl (h : Heap) : h.Grows h :=
  ⟨le_refl _, le_refl _, fun _ _ => rfl, fun _ hp => .inl hp⟩

/-- The host page of an appended page object. -/
theorem Heap.hostOf_append {h' : Heap} {pg : MemoryBackedPage} (hpages : h'.pages = h.pages ++ [pg])
    {p : PageId} {host : HostPage} (hp : h'.hostOf p = some host) :
    (p = h.pages.length ∧ host = pg.allocatedPage) ∨ h.hostOf p = some host := by
  unfold hostOf at hp ⊢
  rw [hpages] at hp
  by_cases hlt : p < h.pages.length
  · rw [List.getElem?_append_left hlt] at hp
    exact .inr hp
  · rw [List.getElem?_append_right (Nat.le_of_not_lt hlt)] at hp
    obtain ⟨pg', hpg', rfl⟩ := Option.map_eq_some_iff.1 hp
    have hidx : p - h.pages.length = 0 := by
      have := getElem?_eq_some_lt hpg'
      simp only [List.length_singleton] at this
      lia
    rw [hidx] at hpg'
    obtain rfl := Option.some.inj hpg'
    exact .inl ⟨by lia, rfl⟩

theorem Heap.hostOf_self {h' : Heap} {pg : MemoryBackedPage} (hpages : h'.pages = h.pages ++ [pg]) :
    h'.hostOf h.pages.length = some pg.allocatedPage := by
  simp [hostOf, hpages]

theorem Heap.Sound.allocPage (hh : h.Sound) (bytes : PageBytes) : (h.allocPage bytes).2.Sound where
  host_lt p k hp := by
    rcases Heap.hostOf_append rfl hp with ⟨-, heq⟩ | hold
    · obtain rfl := HostPage.alloc.inj heq
      exact Nat.lt_succ_self _
    · exact Nat.lt_succ_of_lt (hh.host_lt p k hold)
  host_inj p p' k hp hp' := by
    rcases Heap.hostOf_append rfl hp with ⟨hnew, heq⟩ | hold <;>
      rcases Heap.hostOf_append rfl hp' with ⟨hnew', heq'⟩ | hold'
    · rw [hnew, hnew']
    · obtain rfl := HostPage.alloc.inj heq
      exact absurd (hh.host_lt p' _ hold') (Nat.lt_irrefl _)
    · obtain rfl := HostPage.alloc.inj heq'
      exact absurd (hh.host_lt p _ hold) (Nat.lt_irrefl _)
    · exact hh.host_inj p p' k hold hold'
  resident_lt s p hp := by
    have := hh.resident_lt s p hp
    simp only [Heap.allocPage, List.length_append, List.length_singleton]
    lia
  zero p hp := by
    obtain ⟨k, hk, hbytes⟩ := hh.zero p hp
    refine ⟨k, (h.le_allocPage bytes).host hk, fun i => ?_⟩
    have hne : HostPage.alloc k ≠ .alloc h.nextHost := by
      intro heq
      exact absurd (HostPage.alloc.inj heq ▸ hh.host_lt p k hk) (Nat.lt_irrefl _)
    show Function.update h.mem _ bytes (.alloc k) i = 0
    rw [Function.update_of_ne hne]
    exact hbytes i

theorem Heap.Sound.newExtern (hh : h.Sound) (ptr : ℕ) : (h.newExtern (.external ptr)).2.Sound where
  host_lt p k hp := by
    rcases Heap.hostOf_append rfl hp with ⟨-, heq⟩ | hold
    · cases heq
    · exact hh.host_lt p k hold
  host_inj p p' k hp hp' := by
    rcases Heap.hostOf_append rfl hp with ⟨-, heq⟩ | hold
    · cases heq
    · rcases Heap.hostOf_append rfl hp' with ⟨-, heq⟩ | hold'
      · cases heq
      · exact hh.host_inj p p' k hold hold'
  resident_lt s p hp := by
    have := hh.resident_lt s p hp
    simp only [Heap.newExtern, List.length_append, List.length_singleton]
    lia
  zero p hp := by
    obtain ⟨k, hk, hbytes⟩ := hh.zero p hp
    exact ⟨k, (h.le_newExtern _).host hk, hbytes⟩

theorem Heap.Sound.newSlot (hh : h.Sound) (object : ℕ) (offset : PageNumber) :
    (h.newSlot object offset).2.Sound where
  host_lt := hh.host_lt
  host_inj := hh.host_inj
  resident_lt s p hp := by
    unfold Heap.newSlot residentPage at hp
    obtain ⟨slot, hslot, hpage⟩ := Option.bind_eq_some_iff.1 hp
    by_cases hlt : s < h.slots.length
    · rw [List.getElem?_append_left hlt] at hslot
      exact hh.resident_lt s p (Option.bind_eq_some_iff.2 ⟨slot, hslot, hpage⟩)
    · rw [List.getElem?_append_right (Nat.le_of_not_lt hlt)] at hslot
      have hmem := List.mem_of_getElem? hslot
      rw [List.mem_singleton] at hmem
      rw [hmem] at hpage
      cases hpage
  zero := hh.zero

theorem Heap.Sound.getZeroPage (hh : h.Sound) : h.getZeroPage.2.Sound := by
  unfold Heap.getZeroPage
  cases hz : h.zeroPage with
  | some page => exact hh
  | none =>
    have halloc := hh.allocPage fun _ => 0
    refine ⟨halloc.host_lt, halloc.host_inj, halloc.resident_lt, fun p hp => ?_⟩
    obtain rfl := Option.some.inj hp
    refine ⟨h.nextHost, @Heap.hostOf_self h _ ⟨.alloc h.nextHost, 0⟩ rfl, fun i => ?_⟩
    show Function.update h.mem _ _ (.alloc h.nextHost) i = 0
    rw [Function.update_self]

theorem Heap.Sound.clonePage (hh : h.Sound) (page : PageId) : (h.clonePage page).2.Sound := by
  unfold Heap.clonePage
  split_ifs
  · exact hh.allocPage _
  · cases h.hostOf page with
    | some host => exact hh.allocPage _
    | none => exact hh.allocPage _

theorem Heap.grows_allocPage (bytes : PageBytes) : h.Grows (h.allocPage bytes).2 :=
  grows_of_pages rfl rfl fun _ hp => .inl hp

theorem Heap.grows_newExtern (ptr : HostPage) : h.Grows (h.newExtern ptr).2 :=
  grows_of_pages rfl rfl fun _ hp => .inl hp

theorem Heap.grows_getZeroPage : h.Grows h.getZeroPage.2 := by
  unfold getZeroPage
  cases hz : h.zeroPage with
  | some page => exact Heap.Grows.refl h
  | none =>
    refine grows_of_pages rfl rfl fun p hp => .inr ?_
    obtain rfl := Option.some.inj hp
    exact le_refl _

theorem Heap.grows_newSlot (object : ℕ) (offset : PageNumber) :
    h.Grows (h.newSlot object offset).2 where
  pages := le_refl _
  slots := by simp [newSlot]
  resident s hs := by simp [newSlot, residentPage, List.getElem?_append_left hs]
  zero _ hp := .inl hp

/-- A clone is a new page object. -/
theorem Heap.clonePage_spec (page : PageId) :
    (h.clonePage page).1 = h.pages.length ∧ h.Grows (h.clonePage page).2 ∧
      (h.clonePage page).2.pages.length = h.pages.length + 1 ∧
      (h.clonePage page).2.zeroPage = h.zeroPage := by
  have halloc : ∀ bytes, (h.allocPage bytes).1 = h.pages.length ∧ h.Grows (h.allocPage bytes).2 ∧
      (h.allocPage bytes).2.pages.length = h.pages.length + 1 ∧
      (h.allocPage bytes).2.zeroPage = h.zeroPage :=
    fun bytes => ⟨rfl, grows_allocPage bytes, List.length_append, rfl⟩
  unfold clonePage
  split_ifs
  · exact halloc _
  · cases h.hostOf page with
    | some host => exact halloc _
    | none => exact halloc _

end Alloc

/-! ## Mapping -/

section Mapping

variable {h h' : Heap} {S : Sources} {m : ℕ} {n : PageNumber}

/-- A new page object is separate. -/
theorem separate_page (hS : Isolated h S) (hh : h.Sound) (hg : h.Grows h')
    (hzero : h'.zeroPage = h.zeroPage) (hlen : h'.pages.length = h.pages.length + 1)
    {src : PageSource} (hpage : src.page? h' = some h.pages.length)
    (hslot : ∀ s sh, src ≠ .object s sh) : Separate h' S m n src where
  alive := by
    cases src with
    | shared page =>
      obtain rfl := Option.some.inj hpage
      show h.pages.length < h'.pages.length
      omega
    | priv page wp =>
      obtain rfl := Option.some.inj hpage
      show h.pages.length < h'.pages.length
      omega
    | object s sh => exact (hslot s sh rfl).elim
  page p hp := by
    obtain rfl := Option.some.inj (hpage.symm.trans hp)
    refine .inr ⟨?_, ?_⟩
    · rw [hzero]
      intro hz
      obtain ⟨k, hk, -⟩ := hh.zero _ hz
      exact absurd (Heap.hostOf_lt hk) (Nat.lt_irrefl _)
    · intro m' n' src' hsrc' _ hp'
      have ha := hS.alive m' n' src' hsrc'
      rw [hg.page? ha] at hp'
      exact absurd (PageSource.page?_lt hh ha hp') (Nat.lt_irrefl _)
  slot s sh heq := (hslot s sh heq).elim

/-- The zero page, as copy-on-write. -/
theorem separate_zero {p : PageId} (hh : h.Sound) (hz : h.zeroPage = some p) :
    Separate h S m n (.priv p true) where
  alive := by
    obtain ⟨k, hk, -⟩ := hh.zero p hz
    exact Heap.hostOf_lt hk
  page q hq := by
    obtain rfl := Option.some.inj hq
    exact .inl ⟨hz, rfl⟩
  slot s sh heq := by cases heq

/-- A new slot is separate. -/
theorem separate_slot (hS : Isolated h S) (object : ℕ) (offset : PageNumber) (sh : Bool) :
    Separate (h.newSlot object offset).2 S m n (.object h.slots.length sh) where
  alive := by
    show h.slots.length < (h.slots ++ [_]).length
    simp
  page p hp := by
    simp [PageSource.page?, Heap.residentPage, Heap.newSlot] at hp
  slot s sh' heq m' n' sh'' hsrc := by
    obtain ⟨rfl, -⟩ := PageSource.object.inj heq
    exact absurd (hS.alive m' n' _ hsrc) (Nat.lt_irrefl _)

theorem Heap.getZeroPage_zeroPage (h : Heap) : h.getZeroPage.2.zeroPage = some h.getZeroPage.1 := by
  unfold getZeroPage
  cases hz : h.zeroPage with
  | some page => exact hz
  | none => rfl

/-- The source of a new mapping is separate from all entries. -/
theorem newSource_spec (hS : Isolated h S) (hh : h.Sound) (region : MapRegion) (offset : ℕ) :
    let r := region.newSource h offset
    h.Grows r.2 ∧ r.2.Sound ∧ Separate r.2 S m n r.1 := by
  cases region with
  | object shared obj =>
    exact ⟨Heap.grows_newSlot _ _, hh.newSlot _ _, separate_slot hS obj offset shared⟩
  | external flags basePtr =>
    have hsep : ∀ src : PageSource, src.page? (h.newExtern (.external (basePtr + offset))).2 =
        some h.pages.length → (∀ s sh, src ≠ .object s sh) → Separate _ S m n src :=
      fun src => separate_page hS hh (Heap.grows_newExtern _) rfl List.length_append
    cases flags with
    | priv =>
      exact ⟨Heap.grows_newExtern _, hh.newExtern _,
        hsep (.priv h.pages.length false) rfl (by simp)⟩
    | cow =>
      exact ⟨Heap.grows_newExtern _, hh.newExtern _,
        hsep (.priv h.pages.length true) rfl (by simp)⟩
    | shared =>
      exact ⟨Heap.grows_newExtern _, hh.newExtern _,
        hsep (.shared h.pages.length) rfl (by simp)⟩
  | anon flags =>
    have hsep : ∀ src : PageSource, src.page? h.allocZeroed.2 = some h.pages.length →
        (∀ s sh, src ≠ .object s sh) → Separate _ S m n src :=
      fun src => separate_page hS hh (Heap.grows_allocPage _) rfl List.length_append
    cases flags with
    | priv =>
      exact ⟨Heap.grows_allocPage _, hh.allocPage _,
        hsep (.priv h.pages.length false) rfl (by simp)⟩
    | shared =>
      exact ⟨Heap.grows_allocPage _, hh.allocPage _,
        hsep (.shared h.pages.length) rfl (by simp)⟩
    | cow =>
      exact ⟨Heap.grows_getZeroPage, hh.getZeroPage,
        separate_zero hh.getZeroPage h.getZeroPage_zeroPage⟩

/-- The sources with the table of one MMU replaced. -/
def Sources.withTable (S : Sources) (m : ℕ) (t : PageTable) : Sources :=
  fun k n => if k = m then t.source? n else S k n

theorem withTable_insert {t : PageTable} (hn : n ∉ t.keys) (src : PageSource) (prot : MemProt) :
    S.withTable m (t.insert n ⟨src, prot⟩) = (S.withTable m t).set m n src := by
  funext k j
  unfold Sources.withTable Sources.set PageTable.source?
  by_cases hk : k = m
  · simp only [hk, if_true, true_and, PageTable.get?_insert, if_neg hn]
    by_cases hj : j = n
    · rw [if_pos hj, if_pos hj]
      rfl
    · rw [if_neg hj, if_neg hj]
  · simp only [hk, if_false, false_and]

theorem isolated_mapPages (region : MapRegion) (prot : MemProt) (start : PageNumber)
    (pages : List PageNumber) (t : PageTable) (hh : h.Sound) (hS : Isolated h (S.withTable m t)) :
    let r := mapPages region prot start pages t h
    r.2.Sound ∧ Isolated r.2 (S.withTable m r.1) := by
  induction pages generalizing t h with
  | nil => exact ⟨hh, hS⟩
  | cons n pages ih =>
    obtain ⟨hg, hsound, hsep⟩ := newSource_spec (m := m) (n := n) hS hh region (n - start)
    have hgrown := hS.grow hh hg
    refine ih (t.insert n ⟨(region.newSource h (n - start)).1, prot⟩) hsound ?_
    by_cases hn : n ∈ t.keys
    · have hsame : t.insert n ⟨(region.newSource h (n - start)).1, prot⟩ = t := dif_pos hn
      rw [hsame]
      exact hgrown
    · rw [withTable_insert hn]
      exact hgrown.insert hsep

end Mapping

/-! ## Forking -/

section Forking

variable {h : Heap} {S : Sources} {m : ℕ} (m' : ℕ)

theorem Sources.set_same {n : PageNumber} {src : PageSource} (h : S m n = some src) :
    S.set m n src = S := by
  funext k j
  unfold Sources.set
  by_cases hpos : k = m ∧ j = n
  · rw [if_pos hpos, hpos.1, hpos.2, h]
  · rw [if_neg hpos]

/-- One entry forked into a position that has none. -/
theorem isolated_forkSource (hS : Isolated h S) (hh : h.Sound) {n : PageNumber} {src : PageSource}
    (hsrc : S m n = some src) :
    let r := src.fork h
    r.2.2.Sound ∧ Isolated r.2.2 ((S.set m n r.1).set m' n r.2.1) := by
  have halive := hS.alive m n src hsrc
  cases src with
  | shared page => exact ⟨hh, hS.share m' hsrc _ rfl halive (.inl ⟨rfl, rfl⟩)⟩
  | priv page wp =>
    have hns : (PageSource.priv page wp).sharing ≠ .shared := by
      cases wp <;> simp [PageSource.sharing]
    exact ⟨hh, hS.share m' hsrc _ rfl halive (.inr ⟨hns, rfl⟩)⟩
  | object s sh =>
    cases sh with
    | true => exact ⟨hh, hS.share m' hsrc _ rfl halive (.inl ⟨rfl, rfl⟩)⟩
    | false =>
      obtain ⟨⟨page, obj, offset⟩, hslot⟩ : ∃ slot, h.slots[s]? = some slot :=
        ⟨_, List.getElem?_eq_getElem halive⟩
      cases page with
      | some page =>
        have hres : h.residentPage s = some page := by simp [Heap.residentPage, hslot]
        simp only [PageSource.fork, hslot]
        exact ⟨hh, hS.share m' hsrc (.priv page true) hres.symm (hh.resident_lt s page hres)
          (.inr ⟨by simp [PageSource.sharing], rfl⟩)⟩
      | none =>
        simp only [PageSource.fork, hslot]
        rw [Sources.set_same hsrc]
        exact ⟨hh.newSlot _ _, (hS.grow hh (Heap.grows_newSlot _ _)).insert
          (separate_slot hS obj offset false)⟩

/-- All entries forked: the sources afterwards are those of the two tables and, at the
    other positions, the old ones. -/
theorem isolated_forkEntries (hne : m' ≠ m) (entries : List (PageNumber × PageEntry))
    (hnodup : (entries.map Prod.fst).Nodup) (hS : Isolated h S) (hh : h.Sound)
    (hsrc : ∀ p ∈ entries, S m p.1 = some p.2.source) :
    let r := PageTable.forkEntries h entries
    r.2.2.Sound ∧ ∃ S', Isolated r.2.2 S' ∧
      (∀ k n, (k ≠ m ∧ k ≠ m') ∨ n ∉ entries.map Prod.fst → S' k n = S k n) ∧
      (∀ p ∈ r.1, S' m p.1 = some p.2.source) ∧ ∀ p ∈ r.2.1, S' m' p.1 = some p.2.source := by
  induction entries generalizing h S with
  | nil => exact ⟨hh, S, hS, fun _ _ _ => rfl, by simp [PageTable.forkEntries], by
    simp [PageTable.forkEntries]⟩
  | cons p entries ih =>
    obtain ⟨n, entry⟩ := p
    rw [List.map_cons, List.nodup_cons] at hnodup
    obtain ⟨hsound₁, hS₁⟩ := isolated_forkSource m' hS hh (hsrc (n, entry) List.mem_cons_self)
    -- the first entry is done: what the others were is unchanged
    have hrest : ∀ p ∈ entries, ((S.set m n (entry.source.fork h).1).set m' n
        (entry.source.fork h).2.1) m p.1 = some p.2.source := by
      intro p hp
      have hpn : p.1 ≠ n := by
        rintro rfl
        exact hnodup.1 (show p.1 ∈ entries.map Prod.fst from List.mem_map_of_mem hp)
      simp only [Sources.set, hpn, and_false, if_false]
      exact hsrc p (List.mem_cons_of_mem _ hp)
    obtain ⟨hsound, S', hS', hother, hself, hcopy⟩ := ih hnodup.2 hS₁ hsound₁ hrest
    have hn : ∀ k, S' k n = ((S.set m n (entry.source.fork h).1).set m' n
        (entry.source.fork h).2.1) k n := fun k => hother k n (.inr hnodup.1)
    refine ⟨hsound, S', hS', ?_, ?_, ?_⟩
    · intro k j hk
      have hk' : (k ≠ m ∧ k ≠ m') ∨ j ∉ entries.map Prod.fst :=
        hk.imp_right fun hj hmem => hj (List.mem_cons_of_mem _ hmem)
      rw [hother k j hk']
      unfold Sources.set
      rcases hk with ⟨hm, hm'⟩ | hj
      · rw [if_neg (fun hpos => hm' hpos.1), if_neg (fun hpos => hm hpos.1)]
      · have hjn : j ≠ n := fun heq => hj (heq ▸ List.mem_cons_self)
        rw [if_neg (fun hpos => hjn hpos.2), if_neg (fun hpos => hjn hpos.2)]
    · intro p hp
      rcases List.mem_cons.1 hp with rfl | hp
      · rw [hn]
        unfold Sources.set
        rw [if_neg (fun hpos => hne hpos.1.symm), if_pos ⟨rfl, rfl⟩]
        rfl
      · exact hself p hp
    · intro p hp
      rcases List.mem_cons.1 hp with rfl | hp
      · rw [hn]
        unfold Sources.set
        rw [if_pos ⟨rfl, rfl⟩]
        rfl
      · exact hcopy p hp

end Forking

/-! ## Faulting in -/

/-- Changed flags and changed bytes of other pages keep a heap sound. -/
theorem Heap.Sound.of_hosts {h h' : Heap} (hh : h.Sound)
    (hpages : h'.pages.map (·.allocatedPage) = h.pages.map (·.allocatedPage))
    (hslots : h'.slots = h.slots) (hnext : h'.nextHost = h.nextHost)
    (hzero : h'.zeroPage = h.zeroPage)
    (hmem : ∀ p k, h.zeroPage = some p → h.hostOf p = some (.alloc k) →
      ∀ i, h.mem (.alloc k) i = 0 → h'.mem (.alloc k) i = 0) : h'.Sound := by
  have hhost : ∀ p, h'.hostOf p = h.hostOf p := by
    intro p
    unfold Heap.hostOf
    rw [← List.getElem?_map, hpages, List.getElem?_map]
  have hlen : h'.pages.length = h.pages.length := by
    have := congrArg List.length hpages
    simpa using this
  constructor
  · intro p k hp
    rw [hhost] at hp
    rw [hnext]
    exact hh.host_lt p k hp
  · intro p p' k hp hp'
    rw [hhost] at hp hp'
    exact hh.host_inj p p' k hp hp'
  · intro s p hp
    unfold Heap.residentPage at hp
    rw [hslots] at hp
    rw [hlen]
    exact hh.resident_lt s p hp
  · intro p hp
    rw [hzero] at hp
    obtain ⟨k, hk, hbytes⟩ := hh.zero p hp
    exact ⟨k, (hhost p).trans hk, fun i => hmem p k hp hk i (hbytes i)⟩

theorem Heap.grows_of_hosts {h h' : Heap}
    (hpages : h'.pages.map (·.allocatedPage) = h.pages.map (·.allocatedPage))
    (hslots : h'.slots = h.slots) (hzero : h'.zeroPage = h.zeroPage) : h.Grows h' where
  pages := by
    have := congrArg List.length hpages
    simp only [List.length_map] at this
    omega
  slots := by rw [hslots]
  resident s _ := by simp [residentPage, hslots]
  zero p hp := .inl (hzero ▸ hp)

section FaultIn

variable {h : Heap}

/-- The resident pages after a slot was faulted in. -/
theorem Heap.residentPage_faultIn {s : SlotId} {object : ℕ} {offset : PageNumber}
    (hslot : h.slots[s]? = some ⟨none, object, offset⟩) (bytes : PageBytes) (s' : SlotId) :
    (h.faultIn s bytes).residentPage s' =
      if s' = s then some h.pages.length else h.residentPage s' := by
  have hlt := getElem?_eq_some_lt hslot
  simp only [faultIn, hslot, allocPage, residentPage]
  by_cases hs : s' = s
  · rw [if_pos hs, hs, List.getElem?_set_self hlt]
    rfl
  · rw [if_neg hs, List.getElem?_set_ne (Ne.symm hs)]

theorem Heap.Sound.faultIn (hh : h.Sound) (s : SlotId) (bytes : PageBytes) :
    (h.faultIn s bytes).Sound := by
  unfold Heap.faultIn
  split
  · rename_i object offset hslot
    have halloc := hh.allocPage bytes
    refine ⟨halloc.host_lt, halloc.host_inj, fun s' p hp => ?_, halloc.zero⟩
    have hres := Heap.residentPage_faultIn hslot bytes s'
    simp only [Heap.faultIn, hslot] at hres
    rw [hres] at hp
    have hlen : (h.allocPage bytes).2.pages.length = h.pages.length + 1 := List.length_append
    show p < (h.allocPage bytes).2.pages.length
    by_cases hs : s' = s
    · rw [if_pos hs] at hp
      obtain rfl := Option.some.inj hp
      exact hlen ▸ Nat.lt_succ_self _
    · rw [if_neg hs] at hp
      have := hh.resident_lt s' p hp
      lia
  · exact hh

/-- A slot's new page is seen by the entries that hold the slot, which is one entry if
    it is private. -/
theorem Isolated.faultIn {S : Sources} (hS : Isolated h S) (hh : h.Sound) (s : SlotId)
    (bytes : PageBytes) : Isolated (h.faultIn s bytes) S := by
  by_cases hslot : ∃ object offset, h.slots[s]? = some ⟨none, object, offset⟩
  · obtain ⟨object, offset, hslot⟩ := hslot
    have hheap : (h.faultIn s bytes).pages.length = h.pages.length + 1 ∧
        (h.faultIn s bytes).slots.length = h.slots.length ∧
        (h.faultIn s bytes).zeroPage = h.zeroPage := by
      simp [Heap.faultIn, hslot, Heap.allocPage]
    -- an entry holds the slot, or resolves as before
    have hpage : ∀ m n src p, S m n = some src → src.page? (h.faultIn s bytes) = some p →
        (∃ sh, src = .object s sh) ∧ p = h.pages.length ∨
          (∀ sh, src ≠ .object s sh) ∧ src.page? h = some p ∧ p < h.pages.length := by
      intro m n src p hsrc hp
      have ha := hS.alive m n src hsrc
      cases src with
      | shared page =>
        exact .inr ⟨by simp, hp, PageSource.page?_lt hh ha hp⟩
      | priv page wp => exact .inr ⟨by simp, hp, PageSource.page?_lt hh ha hp⟩
      | object s' sh =>
        have hres : (h.faultIn s bytes).residentPage s' = some p := hp
        rw [Heap.residentPage_faultIn hslot] at hres
        by_cases hs : s' = s
        · rw [if_pos hs] at hres
          exact .inl ⟨⟨sh, by rw [hs]⟩, (Option.some.inj hres).symm⟩
        · rw [if_neg hs] at hres
          exact .inr ⟨by simp [hs], hres, hh.resident_lt s' p hres⟩
    constructor
    · intro m n src hsrc
      have ha := hS.alive m n src hsrc
      cases src with
      | shared page => exact Nat.lt_of_lt_of_eq (Nat.lt_succ_of_lt ha) hheap.1.symm
      | priv page wp => exact Nat.lt_of_lt_of_eq (Nat.lt_succ_of_lt ha) hheap.1.symm
      | object s' sh => exact Nat.lt_of_lt_of_eq ha hheap.2.1.symm
    · intro m n src m' n' src' p hsrc hsrc' hp hp'
      rcases hpage m n src p hsrc hp with ⟨⟨sh, rfl⟩, hnew⟩ | ⟨hne, hold, hlt⟩ <;>
        rcases hpage m' n' src' p hsrc' hp' with ⟨⟨sh', rfl⟩, hnew'⟩ | ⟨hne', hold', hlt'⟩
      · cases sh with
        | false => exact .inl (hS.slot m n m' n' s sh' hsrc hsrc')
        | true =>
          cases sh' with
          | false =>
            obtain ⟨hm, hn⟩ := hS.slot m' n' m n s true hsrc' hsrc
            exact .inl ⟨hm.symm, hn.symm⟩
          | true => exact .inr ⟨rfl, by simp [PageSource.sharing]⟩
      · exact absurd hnew hlt'.ne
      · exact absurd hnew' hlt.ne
      · exact hS.page m n src m' n' src' p hsrc hsrc' hold hold'
    · exact hS.slot
    · intro m n src p hsrc hp hzero
      rw [hheap.2.2] at hzero
      rcases hpage m n src p hsrc hp with ⟨-, hnew⟩ | ⟨-, hold, -⟩
      · obtain ⟨k, hk, -⟩ := hh.zero p hzero
        exact absurd hnew (Heap.hostOf_lt hk).ne
      · exact hS.zero m n src p hsrc hold hzero
  · have hsame : h.faultIn s bytes = h := by
      unfold Heap.faultIn
      split
      · rename_i object offset heq
        exact (hslot ⟨object, offset, heq⟩).elim
      · rfl
    rw [hsame]
    exact hS

end FaultIn

/-! ## Calls -/

namespace World

variable {w : World}

theorem source?_eq_some {m : ℕ} {n : PageNumber} {src : PageSource} :
    w.source? m n = some src ↔ ∃ mmu entry, w.mmu? m = some mmu ∧
      mmu.table.get? n = some entry ∧ entry.source = src := by
  unfold source? PageTable.source?
  constructor
  · intro h
    obtain ⟨mmu, hmmu, hsrc⟩ := Option.bind_eq_some_iff.1 h
    obtain ⟨entry, hentry, rfl⟩ := Option.map_eq_some_iff.1 hsrc
    exact ⟨mmu, entry, hmmu, hentry, rfl⟩
  · rintro ⟨mmu, entry, hmmu, hentry, rfl⟩
    rw [hmmu, Option.bind_some, hentry]
    rfl

theorem source?_setMmu {m : ℕ} {mmu : IoMMU} (h : w.mmu? m = some mmu) (mmu' : IoMMU)
    (heap : Heap) :
    ({ w with heap := heap }.setMmu m mmu').source? = w.source?.withTable m mmu'.table := by
  have hold : ({ w with heap := heap } : World).mmu? m = some mmu := h
  funext k n
  unfold source? Sources.withTable
  rw [mmu?_setMmu hold]
  by_cases hk : k = m
  · rw [if_pos hk, if_pos hk]
    rfl
  · rw [if_neg hk, if_neg hk]
    rfl

theorem withTable_self {m : ℕ} {mmu : IoMMU} (h : w.mmu? m = some mmu) :
    w.source?.withTable m mmu.table = w.source? := by
  funext k n
  unfold Sources.withTable source?
  by_cases hk : k = m
  · rw [if_pos hk, hk, h]
    rfl
  · rw [if_neg hk]

/-- A world with fewer entries. -/
theorem Isolated.sub {w' : World} (hw : w.Isolated) (hheap : w'.heap = w.heap)
    (hsub : ∀ m n src, w'.source? m n = some src → w.source? m n = some src) : w'.Isolated :=
  ⟨hheap ▸ hw.sound, hheap ▸ hw.isolated.sub hsub⟩

theorem Isolated.of_mmus {w' : World} (hw : w.Isolated) (hheap : w'.heap = w.heap)
    (hmmu : ∀ m mmu, w'.mmu? m = some mmu → w.mmu? m = some mmu) : w'.Isolated := by
  refine hw.sub hheap fun m n src hsrc => ?_
  obtain ⟨mmu, entry, hm, hget, hsource⟩ := source?_eq_some.1 hsrc
  exact source?_eq_some.2 ⟨mmu, entry, hmmu m mmu hm, hget, hsource⟩

theorem Isolated.newMmu (hw : w.Isolated) (token : Token) :
    ({ w with mmus := w.mmus ++ [some ⟨token, .new⟩] } : World).Isolated := by
  refine hw.sub rfl fun m n src hsrc => ?_
  obtain ⟨mmu, entry, hm, hget, hsource⟩ := source?_eq_some.1 hsrc
  rw [mmu?_append] at hm
  by_cases hlen : m = w.mmus.length
  · rw [if_pos hlen] at hm
    obtain rfl := Option.some.inj hm
    cases hget
  · rw [if_neg hlen] at hm
    exact source?_eq_some.2 ⟨mmu, entry, hm, hget, hsource⟩

/-- A new table whose sources fit the other entries. -/
theorem Isolated.modifyTable {m : ℕ} {mmu : IoMMU} (hm : w.mmu? m = some mmu) {token : Token}
    {modified : Bool} {t : PageTable} {h : Heap} (hh : h.Sound)
    (hS : Mmu.Isolated h (w.source?.withTable m t)) :
    (w.modifyTable m mmu token modified t h).Isolated :=
  ⟨hh, by unfold World.modifyTable; rw [source?_setMmu hm]; exact hS⟩

theorem Isolated.mapRegion (hw : w.Isolated) (token : Token) (m : ℕ) (base size : BitVec 64)
    (prot : MemProt) (region : MapRegion) :
    (w.mapRegion token m base size prot region).Isolated := by
  unfold World.mapRegion
  split
  · rename_i mmu pages hmmu hpages
    unfold mapInner
    split
    · rename_i t h heq
      split at heq
      · cases heq
      · obtain ⟨hsound, hS⟩ :=
          isolated_mapPages (m := m) region prot (pages.headD 0) pages mmu.table
          hw.sound (by rw [withTable_self hmmu]; exact hw.isolated)
        rw [Except.ok.inj heq] at hsound hS
        exact Isolated.modifyTable hmmu hsound hS
    · exact hw
  · exact hw

/-- A table with fewer entries, or with other protections. -/
theorem Isolated.modifySub (hw : w.Isolated) {m : ℕ} {mmu : IoMMU} (hm : w.mmu? m = some mmu)
    {token : Token} {modified : Bool} {t : PageTable}
    (hsub : ∀ n src, t.source? n = some src → mmu.table.source? n = some src) :
    (w.modifyTable m mmu token modified t w.heap).Isolated := by
  refine Isolated.modifyTable hm hw.sound (hw.isolated.sub fun k n src hsrc => ?_)
  rw [← withTable_self hm]
  unfold Sources.withTable at hsrc ⊢
  by_cases hk : k = m
  · rw [if_pos hk] at hsrc ⊢
    exact hsub n src hsrc
  · rw [if_neg hk] at hsrc ⊢
    exact hsrc

theorem source?_foldl_remove (pages : List PageNumber) (t : PageTable) (n : PageNumber)
    (src : PageSource) (h : (pages.foldl PageTable.remove t).source? n = some src) :
    t.source? n = some src := by
  induction pages generalizing t with
  | nil => exact h
  | cons k pages ih =>
    have hrest := ih (t.remove k) h
    unfold PageTable.source? at hrest ⊢
    rw [PageTable.get?_remove] at hrest
    by_cases hn : n = k
    · rw [if_pos hn] at hrest
      cases hrest
    · rw [if_neg hn] at hrest
      exact hrest

theorem Isolated.unmap (hw : w.Isolated) (token : Token) (m : ℕ) (start size : BitVec 64) :
    (w.unmap token m start size).Isolated := by
  unfold World.unmap
  split
  · rename_i mmu pages hmmu hpages
    exact hw.modifySub hmmu (source?_foldl_remove pages mmu.table)
  · exact hw

theorem Isolated.protect (hw : w.Isolated) (token : Token) (m : ℕ) (start size : BitVec 64)
    (prot : MemProt) : (w.protect token m start size prot).Isolated := by
  unfold World.protect
  split
  · rename_i mmu pages hmmu hpages
    split
    · refine hw.modifySub hmmu fun n src hsrc => ?_
      unfold PageTable.source? protectPages at hsrc
      rw [PageTable.get?_mapVals, Option.map_map] at hsrc
      obtain ⟨entry, hget, heq⟩ := Option.map_eq_some_iff.1 hsrc
      refine Option.map_eq_some_iff.2 ⟨entry, hget, ?_⟩
      rw [← heq]
      simp only [Function.comp_apply]
      split_ifs <;> rfl
    · exact hw
  · exact hw

theorem Isolated.fork (hw : w.Isolated) (token : Token) (m : ℕ) : (w.fork token m).Isolated := by
  cases hm : w.mmu? m with
  | none =>
    have hsame : w.fork token m = w := by
      unfold World.fork
      rw [hm]
    rw [hsame]
    exact hw
  | some mmu =>
    have hne : w.mmus.length ≠ m := (mmu?_lt hm).ne'
    have hsrc : ∀ p ∈ mmu.table.entries, w.source? m p.1 = some p.2.source := fun p hp =>
      source?_eq_some.2 ⟨mmu, p.2, hm, PageTable.get?_of_mem_entries hp, rfl⟩
    obtain ⟨hsound, S', hS', hother, hself, hcopy⟩ := isolated_forkEntries w.mmus.length hne
      mmu.table.entries mmu.table.nodup hw.isolated hw.sound hsrc
    have hheap : (w.fork token m).heap = (PageTable.forkEntries w.heap mmu.table.entries).2.2 :=
      (fork_eq hm).1
    refine ⟨hheap ▸ hsound, hheap ▸ hS'.sub fun k n src hk => ?_⟩
    obtain ⟨x, entry, hx, hget, rfl⟩ := source?_eq_some.1 hk
    rcases fork_mmu_cases hm hx with ⟨rfl, rfl⟩ | ⟨rfl, rfl⟩ | ⟨hkm, hold⟩
    · exact hcopy (n, entry) (PageTable.mem_entries_of_get? hget)
    · exact hself (n, entry) (PageTable.mem_entries_of_get? hget)
    · rw [hother k n (.inl ⟨hkm, (mmu?_lt hold).ne⟩)]
      exact source?_eq_some.2 ⟨x, entry, hold, hget, rfl⟩

/-! ### Copying copy-on-write pages -/

/-- A page object with one reference is resolved by one entry. -/
theorem unique_of_isUnique {held : List PageId} {page : PageId} (hu : w.isUnique held page = true)
    {m : ℕ} {n : PageNumber} {wp : Bool} (hsrc : w.source? m n = some (.priv page wp)) :
    w.heap.zeroPage ≠ some page ∧ ∀ m' n' src', w.source? m' n' = some src' →
      ¬ (m' = m ∧ n' = n) → src'.page? w.heap ≠ some page := by
  unfold isUnique at hu
  obtain ⟨hcount, hslots, hzero, -⟩ := of_decide_eq_true hu
  refine ⟨hzero, fun m' n' src' hsrc' hpos hp => ?_⟩
  obtain ⟨mmu, entry, hm, hget, hsource⟩ := source?_eq_some.1 hsrc
  obtain ⟨mmu', entry', hm', hget', hsource'⟩ := source?_eq_some.1 hsrc'
  have hm := Option.join_eq_some_iff.1 hm
  have hm' := Option.join_eq_some_iff.1 hm'
  have hmem := PageTable.mem_entries_of_get? hget
  have hmem' := PageTable.mem_entries_of_get? hget'
  have hsources : src' ∈ w.sources := by
    refine List.mem_flatMap.2 ⟨some mmu', List.mem_of_getElem? hm', ?_⟩
    exact List.mem_map.2 ⟨(n', entry'), hmem', hsource'⟩
  -- the other entry holds the page itself
  have hholds' : PageSource.holds page src' = true := by
    cases src' with
    | shared q => simpa [PageSource.holds] using Option.some.inj hp
    | priv q wp' => simpa [PageSource.holds] using Option.some.inj hp
    | object s sh =>
      have hno := hslots _ hsources
      simp only [PageSource.holdsSlotOf, decide_eq_false_iff_not] at hno
      exact (hno hp).elim
  have hholds : PageSource.holds page entry.source = true := by
    rw [hsource]
    simp [PageSource.holds]
  have htwo : 2 ≤ w.sources.countP (PageSource.holds page) := by
    unfold sources
    by_cases hmm : m' = m
    · -- both in one table, under different page numbers
      have hn : n' ≠ n := fun heq => hpos ⟨hmm, heq⟩
      subst hmm
      rw [hm] at hm'
      obtain rfl := Option.some.inj (Option.some.inj hm')
      have htable :
          2 ≤ (mmu.table.entries.map fun p => p.2.source).countP (PageSource.holds page) := by
        rw [List.countP_map]
        refine two_le_countP hmem hmem' (fun heq => hn (congrArg Prod.fst heq).symm) hholds ?_
        rw [← hsource'] at hholds'
        exact hholds'
      refine htable.trans (List.Sublist.countP_le ?_)
      rw [List.flatMap_def]
      exact List.sublist_flatten_of_mem
        (List.mem_map.2 ⟨some mmu, List.mem_of_getElem? hm, rfl⟩)
    · refine two_le_countP_flatMap (Ne.symm hmm) hm hm' ?_ ?_
      · exact ⟨entry.source, List.mem_map.2 ⟨(n, entry), hmem, rfl⟩, hholds⟩
      · exact ⟨src', List.mem_map.2 ⟨(n', entry'), hmem', hsource'⟩, hholds'⟩
  omega

theorem withTable_modify {S : Sources} {m : ℕ} {t : PageTable} {n : PageNumber} {entry : PageEntry}
    (hget : t.get? n = some entry) (src : PageSource) :
    S.withTable m (t.modify n fun entry => { entry with source := src }) =
      (S.withTable m t).set m n src := by
  funext k j
  unfold Sources.withTable Sources.set PageTable.source?
  by_cases hk : k = m
  · simp only [hk, if_true, true_and, PageTable.get?_modify]
    by_cases hj : j = n
    · rw [if_pos hj, if_pos hj, hj, hget]
      rfl
    · rw [if_neg hj, if_neg hj]
  · simp only [hk, if_false, false_and]

theorem Isolated.unCowAt (hw : w.Isolated) (held : List PageId) (m : ℕ) (n : PageNumber) :
    (w.unCowAt held m n).Isolated := by
  cases hm : w.mmu? m with
  | none =>
    have hsame : w.unCowAt held m n = w := by
      unfold World.unCowAt
      rw [hm]
    rw [hsame]
    exact hw
  | some mmu =>
    rcases unCowAt_cases held hm n with ⟨heq, -⟩ | ⟨page, prot, page', h', hget, hpage, heq⟩
    · rw [heq]
      exact hw
    · have hsrc : w.source? m n = some (.priv page true) :=
        source?_eq_some.2 ⟨mmu, _, hm, hget, rfl⟩
      have halive := hw.isolated.alive m n _ hsrc
      have hspec : h'.Sound ∧ Mmu.Isolated h' w.source? ∧
          Separate h' w.source? m n (.priv page' false) := by
        rcases hpage with ⟨hpage, hu⟩ | ⟨hpage, -⟩
        · obtain ⟨rfl, rfl⟩ := Prod.mk.inj hpage
          refine ⟨hw.sound, hw.isolated, halive, fun p hp => .inr ?_, fun s sh hs => by cases hs⟩
          obtain rfl := Option.some.inj hp
          exact unique_of_isUnique hu hsrc
        · obtain ⟨hnew, hg, hlen, hzero⟩ := w.heap.clonePage_spec page
          have hsound := hw.sound.clonePage page
          rw [← hpage] at hnew hg hlen hzero hsound
          refine ⟨hsound, hw.isolated.grow hw.sound hg, ?_⟩
          exact separate_page hw.isolated hw.sound hg hzero hlen (congrArg some hnew) (by simp)
      obtain ⟨hsound, hS, hsep⟩ := hspec
      rw [heq]
      refine ⟨hsound, ?_⟩
      rw [source?_setMmu hm, withTable_modify hget, withTable_self hm]
      exact hS.insert hsep

theorem Isolated.copyAllCowPages (hw : w.Isolated) (token : Token) (m : ℕ) (held : List PageId) :
    (w.copyAllCowPages token m held).Isolated := by
  have hfold : ∀ (ns : List PageNumber) (w : World), w.Isolated →
      (ns.foldl (fun w n => w.unCowAt held m n) w).Isolated := by
    intro ns
    induction ns with
    | nil => exact fun w hw => hw
    | cons n ns ih => exact fun w hw => ih _ (hw.unCowAt held m n)
  unfold World.copyAllCowPages
  split
  · exact hw
  · rename_i mmu hm
    have hcopied := hfold mmu.table.keys w hw
    simp only
    split
    · exact hcopied
    · rename_i mmu' hm'
      split_ifs
      · refine hcopied.sub rfl fun k n src hsrc => ?_
        rw [source?_setMmu hm', withTable_self hm'] at hsrc
        exact hsrc
      · exact hcopied

/-- A heap that differs in page flags and bytes, the zero page apart. -/
theorem Isolated.of_hosts {w' : World} (hw : w.Isolated) (hmmu : ∀ m, w'.mmu? m = w.mmu? m)
    (hpages : w'.heap.pages.map (·.allocatedPage) = w.heap.pages.map (·.allocatedPage))
    (hslots : w'.heap.slots = w.heap.slots) (hnext : w'.heap.nextHost = w.heap.nextHost)
    (hzero : w'.heap.zeroPage = w.heap.zeroPage)
    (hmem : ∀ p k, w.heap.zeroPage = some p → w.heap.hostOf p = some (.alloc k) →
      ∀ i, w.heap.mem (.alloc k) i = 0 → w'.heap.mem (.alloc k) i = 0) : w'.Isolated := by
  have hsource : w'.source? = w.source? := by
    funext m n
    unfold source?
    rw [hmmu]
  refine ⟨hw.sound.of_hosts hpages hslots hnext hzero hmem, ?_⟩
  rw [hsource]
  exact hw.isolated.grow hw.sound (Heap.grows_of_hosts hpages hslots hzero)

theorem mmu?_refresh (m k : ℕ) : (w.refresh m).mmu? k = w.mmu? k := by
  unfold World.refresh
  split <;> rfl

/-- A refresh changes flags only. -/
theorem refresh_frame (w : World) (m : ℕ) :
    (w.refresh m).heap.pages.map (·.allocatedPage) = w.heap.pages.map (·.allocatedPage) ∧
      (w.refresh m).heap.slots = w.heap.slots ∧ (w.refresh m).heap.nextHost = w.heap.nextHost ∧
      (w.refresh m).heap.zeroPage = w.heap.zeroPage ∧ (w.refresh m).heap.mem = w.heap.mem := by
  unfold World.refresh
  split
  · exact ⟨rfl, rfl, rfl, rfl, rfl⟩
  · rename_i mmu _
    simp only
    generalize mmu.table.entries = entries
    generalize w.heap = h
    induction entries generalizing h with
    | nil => exact ⟨rfl, rfl, rfl, rfl, rfl⟩
    | cons p entries ih =>
      rw [List.foldl_cons]
      obtain ⟨hpages, hslots, hnext, hzero, hmem⟩ := ih _
      rw [hpages, hslots, hnext, hzero, hmem]
      cases p.2.source.page? h with
      | none => exact ⟨rfl, rfl, rfl, rfl, rfl⟩
      | some page => exact ⟨map_modify _ _ fun _ => rfl, rfl, rfl, rfl, rfl⟩

theorem Isolated.refresh (hw : w.Isolated) (m : ℕ) : (w.refresh m).Isolated := by
  obtain ⟨hpages, hslots, hnext, hzero, hmem⟩ := w.refresh_frame m
  exact hw.of_hosts (mmu?_refresh m) hpages hslots hnext hzero fun p k _ _ i hi => by
    rw [hmem]; exact hi

theorem isolated_init : World.init.Isolated := by
  refine ⟨⟨?_, ?_, ?_, ?_⟩, ⟨?_, ?_, ?_, ?_⟩⟩
  · intro p k h
    cases h
  · intro p p' k h
    cases h
  · intro s p h
    cases h
  · intro p h
    cases h
  · intro m n src h
    cases h
  · intro m n src m' n' src' p h
    cases h
  · intro m n m' n' s sh h
    cases h
  · intro m n src p h
    cases h

end World

end RapidArm.Mmu
