import RapidArm.Mmu.Fork

/-!
# Read-only host memory

`IoMMU::map_extern` with `readonly = true` (`io-mmu/src/lib.rs`, lines 200–261) maps host
memory copy-on-write, and `copy_all_cow_pages` (lines 1310–1326) gives every
copy-on-write page storage of its own. `un_cow` (`io-mmu/src/page_table.rs`, lines
648–664) leaves that to `Arc::make_mut`, which copies the page object unless it has a
single reference: then the entry keeps the host memory, whoever that belongs to.

Results:
* `readOnly_kept_run`: in every run in which stores are safe and each such entry on
  read-only or doubly mapped host memory has a second reference when it is copied, the
  copies are exclusive and read-only memory keeps its bytes.
* `readOnly_written`: a read-only mapping that is copied and stored to.
-/

namespace RapidArm.Mmu

open RapidArm.Ir RapidArm.Lib

/-! ## Growing heaps that keep their bytes -/

/-- The heap gains page objects on new allocations; host memory keeps its bytes. -/
structure Heap.Extends (h h' : Heap) : Prop where
  le : h.Le h'
  slots : h'.slots = h.slots
  zero : h'.zeroPage = h.zeroPage
  next : h.nextHost ≤ h'.nextHost
  alloc : ∀ k < h.nextHost, h'.mem (.alloc k) = h.mem (.alloc k)
  external : ∀ k, h'.mem (.external k) = h.mem (.external k)

theorem Heap.Extends.refl (h : Heap) : h.Extends h :=
  ⟨.refl h, rfl, rfl, le_refl _, fun _ _ => rfl, fun _ => rfl⟩

theorem Heap.Extends.trans {h₁ h₂ h₃ : Heap} (h₁₂ : h₁.Extends h₂) (h₂₃ : h₂.Extends h₃) :
    h₁.Extends h₃ where
  le := h₁₂.le.trans h₂₃.le
  slots := h₂₃.slots.trans h₁₂.slots
  zero := h₂₃.zero.trans h₁₂.zero
  next := h₁₂.next.trans h₂₃.next
  alloc k hk := (h₂₃.alloc k (lt_of_lt_of_le hk h₁₂.next)).trans (h₁₂.alloc k hk)
  external k := (h₂₃.external k).trans (h₁₂.external k)

theorem Heap.extends_allocPage (h : Heap) (bytes : PageBytes) :
    h.Extends (h.allocPage bytes).2 where
  le := h.le_allocPage bytes
  slots := rfl
  zero := rfl
  next := Nat.le_succ _
  alloc k hk := Function.update_of_ne (fun heq => hk.ne (HostPage.alloc.inj heq)) _ _
  external k := by
    have hne : HostPage.external k ≠ .alloc h.nextHost := nofun
    exact Function.update_of_ne hne bytes h.mem

/-- The bytes of a page object. -/
def Heap.bytesOf (h : Heap) (page : PageId) : Option PageBytes := (h.hostOf page).map h.mem

/-- A clone is on a new allocation, with the bytes of the page. -/
theorem Heap.clonePage_bytes {h : Heap} (hh : h.Sound) {page : PageId} {bytes : PageBytes}
    (hbytes : h.bytesOf page = some bytes) :
    h.Extends (h.clonePage page).2 ∧
      (h.clonePage page).2.hostOf (h.clonePage page).1 = some (.alloc h.nextHost) ∧
      (h.clonePage page).2.mem (.alloc h.nextHost) = bytes ∧
      h.nextHost < (h.clonePage page).2.nextHost := by
  have halloc : ∀ bytes, h.Extends (h.allocPage bytes).2 ∧
      (h.allocPage bytes).2.hostOf (h.allocPage bytes).1 = some (.alloc h.nextHost) ∧
      (h.allocPage bytes).2.mem (.alloc h.nextHost) = bytes ∧
      h.nextHost < (h.allocPage bytes).2.nextHost := by
    intro bytes
    refine ⟨h.extends_allocPage bytes, ?_, ?_, ?_⟩
    · simp [Heap.allocPage, Heap.hostOf]
    · exact Function.update_self ..
    · exact Nat.lt_succ_self _
  obtain ⟨host, hhost, rfl⟩ := Option.map_eq_some_iff.1 hbytes
  unfold Heap.clonePage
  by_cases hzero : h.zeroPage = some page
  · -- the bytes of the zero page are zero
    obtain ⟨k, hk, hbytes'⟩ := hh.zero page hzero
    have hsame : h.mem host = fun _ => 0 := by
      rw [hhost] at hk
      rw [Option.some.inj hk]
      exact funext hbytes'
    rw [if_pos hzero, hsame]
    exact halloc _
  · rw [if_neg hzero, hhost]
    exact halloc _

theorem Heap.Extends.bytesOf {h h' : Heap} (hext : h.Extends h') (hh : h.Sound) {page : PageId}
    {bytes : PageBytes} (hbytes : h.bytesOf page = some bytes) : h'.bytesOf page = some bytes := by
  obtain ⟨host, hhost, rfl⟩ := Option.map_eq_some_iff.1 hbytes
  unfold Heap.bytesOf
  rw [hext.le.host hhost, Option.map_some]
  cases host with
  | alloc k => rw [hext.alloc k (hh.host_lt page k hhost)]
  | external k => rw [hext.external k]

/-! ## The copying loop -/

namespace World

variable {w : World}

/-- A page object with a reference that the loop of `copy_all_cow_pages` on MMU `m` does
    not give up: of an entry of another MMU, a slot, the fabric or a task. -/
def Retained (w : World) (held : List PageId) (m : ℕ) (page : PageId) : Prop :=
  (∃ m' n src, m' ≠ m ∧ w.source? m' n = some src ∧ src.holds page = true) ∨
    (∃ m' n src, w.source? m' n = some src ∧ src.holdsSlotOf w.heap page = true) ∨
    w.heap.zeroPage = some page ∨ page ∈ held

theorem Retained.not_unique {held : List PageId} {m : ℕ} {page : PageId}
    (hret : w.Retained held m page) {n : PageNumber}
    (hsrc : w.source? m n = some (.priv page true)) : w.isUnique held page = false := by
  by_contra hu
  rw [Bool.not_eq_false] at hu
  obtain ⟨hzero, hothers⟩ := unique_of_isUnique hu hsrc
  rcases hret with ⟨m', n', src, hne, hsrc', hholds⟩ | ⟨m', n', src, hsrc', hholds⟩ | hz | hheld
  · refine hothers m' n' src hsrc' (fun heq => hne heq.1) ?_
    cases src with
    | shared p => exact congrArg some (of_decide_eq_true hholds)
    | priv p wp => exact congrArg some (of_decide_eq_true hholds)
    | object s sh => cases hholds
  · cases src with
    | shared p => cases hholds
    | priv p wp => cases hholds
    | object s sh =>
      refine hothers m' n' _ hsrc' ?_ (of_decide_eq_true hholds)
      rintro ⟨rfl, rfl⟩
      rw [hsrc] at hsrc'
      cases Option.some.inj hsrc'
  · exact hzero hz
  · unfold isUnique at hu
    exact (of_decide_eq_true hu).2.2.2 hheld

theorem Retained.mono {w' : World} {held : List PageId} {m : ℕ} {page : PageId}
    (hret : w.Retained held m page) (hother : ∀ k n, k ≠ m → w'.source? k n = w.source? k n)
    (hslots : ∀ n s sh, w.source? m n = some (.object s sh) → w'.source? m n = some (.object s sh))
    (hheap : w.heap.Extends w'.heap) : w'.Retained held m page := by
  rcases hret with ⟨m', n', src, hne, hsrc, hholds⟩ | ⟨m', n', src, hsrc, hholds⟩ | hz | hheld
  · refine .inl ⟨m', n', src, hne, ?_, hholds⟩
    rw [hother m' n' hne]
    exact hsrc
  · refine .inr (.inl ⟨m', n', src, ?_, ?_⟩)
    · by_cases hm : m' = m
      · subst hm
        cases src with
        | shared p => cases hholds
        | priv p wp => cases hholds
        | object s sh => exact hslots n' s sh hsrc
      · rw [hother m' n' hm]
        exact hsrc
    · cases src with
      | shared p => cases hholds
      | priv p wp => cases hholds
      | object s sh =>
        unfold PageSource.holdsSlotOf Heap.residentPage at hholds ⊢
        rw [hheap.slots]
        exact hholds
  · exact .inr (.inr (.inl (hheap.zero.trans hz)))
  · exact .inr (.inr (.inr hheld))

/-- What becomes of a copy-on-write entry: it keeps its page object if there is no other
    reference, else it gets one on a new allocation, with the same bytes. -/
def Copied (w w' : World) (held : List PageId) (m : ℕ) (page page' : PageId) : Prop :=
  (page' = page ∧ ¬ w.Retained held m page) ∨
    ∃ k, w'.heap.hostOf page' = some (.alloc k) ∧ w.heap.nextHost ≤ k ∧ k < w'.heap.nextHost ∧
      ∀ bytes, w.heap.bytesOf page = some bytes → w'.heap.mem (.alloc k) = bytes

theorem Copied.later {w₁ w₂ : World} {held : List PageId} {m : ℕ} {page page' : PageId}
    (hcopied : Copied w w₁ held m page page') (hext : w₁.heap.Extends w₂.heap) :
    Copied w w₂ held m page page' := by
  rcases hcopied with hkept | ⟨k, hhost, hge, hlt, hbytes⟩
  · exact .inl hkept
  · refine .inr ⟨k, hext.le.host hhost, hge, lt_of_lt_of_le hlt hext.next, fun bytes hb => ?_⟩
    rw [hext.alloc k hlt]
    exact hbytes bytes hb

/-- What `un_cow` makes of the entries of MMU `m` under the page numbers `ns`; it leaves
    all others alone. -/
structure CopiesTo (w w' : World) (held : List PageId) (m : ℕ) (ns : List PageNumber) : Prop where
  heap : w.heap.Extends w'.heap
  other : ∀ k n, k ≠ m → w'.entryAt k n = w.entryAt k n
  same : ∀ n, (n ∈ ns → ∀ entry, w.entryAt m n = some entry → isCow entry = false) →
    w'.entryAt m n = w.entryAt m n
  copied : ∀ n ∈ ns, ∀ page prot, w.entryAt m n = some ⟨.priv page true, prot⟩ →
    ∃ page', w'.entryAt m n = some ⟨.priv page' false, prot⟩ ∧ Copied w w' held m page page'

theorem CopiesTo.retained {w' : World} {held : List PageId} {m : ℕ} {ns : List PageNumber}
    (hcopies : CopiesTo w w' held m ns) {page : PageId} (hret : w.Retained held m page) :
    w'.Retained held m page := by
  refine hret.mono (fun k n hk => ?_) (fun n s sh hsrc => ?_) hcopies.heap
  · rw [source?_eq_entryAt, source?_eq_entryAt, hcopies.other k n hk]
  · rw [source?_eq_entryAt] at hsrc ⊢
    rw [hcopies.same n]
    · exact hsrc
    · intro _ entry hentry
      rw [hentry] at hsrc
      have hobject : entry.source = .object s sh := Option.some.inj hsrc
      unfold isCow
      rw [hobject]

/-- One page, and then others. -/
theorem CopiesTo.trans {w₁ w₂ : World} {held : List PageId} {m : ℕ} {n : PageNumber}
    {ns : List PageNumber} (hw : w.heap.Sound) (h₁ : CopiesTo w w₁ held m [n])
    (h₂ : CopiesTo w₁ w₂ held m ns) (hn : n ∉ ns) : CopiesTo w w₂ held m (n :: ns) where
  heap := h₁.heap.trans h₂.heap
  other k j hk := (h₂.other k j hk).trans (h₁.other k j hk)
  same j hj := by
    have hfirst : w₁.entryAt m j = w.entryAt m j :=
      h₁.same j fun hmem => hj (List.mem_singleton.1 hmem ▸ List.mem_cons_self)
    rw [h₂.same j, hfirst]
    intro hmem
    rw [hfirst]
    exact hj (List.mem_cons_of_mem _ hmem)
  copied j hj page prot hentry := by
    rcases List.mem_cons.1 hj with rfl | hj
    · obtain ⟨page', hentry', hcopied⟩ := h₁.copied j (List.mem_singleton_self j) page prot hentry
      refine ⟨page', ?_, hcopied.later h₂.heap⟩
      rw [h₂.same j fun hmem => absurd hmem hn]
      exact hentry'
    · have hne : j ≠ n := fun heq => hn (heq ▸ hj)
      have hfirst : w₁.entryAt m j = w.entryAt m j :=
        h₁.same j fun hmem => absurd (List.mem_singleton.1 hmem) hne
      obtain ⟨page', hentry', hcopied⟩ := h₂.copied j hj page prot (hfirst.trans hentry)
      refine ⟨page', hentry', ?_⟩
      rcases hcopied with ⟨hkept, hret⟩ | ⟨k, hhost, hge, hlt, hbytes⟩
      · exact .inl ⟨hkept, fun hret' => hret (h₁.retained hret')⟩
      · exact .inr ⟨k, hhost, h₁.heap.next.trans hge, hlt,
          fun bytes hb => hbytes bytes (h₁.heap.bytesOf hw hb)⟩

theorem entryAt_setMmu {m : ℕ} {mmu : IoMMU} (hm : w.mmu? m = some mmu) (mmu' : IoMMU) (heap : Heap)
    (k : ℕ) (n : PageNumber) : ({ w with heap := heap }.setMmu m mmu').entryAt k n =
      if k = m then mmu'.table.get? n else w.entryAt k n := by
  have hold : ({ w with heap := heap } : World).mmu? m = some mmu := hm
  unfold entryAt
  rw [mmu?_setMmu hold]
  by_cases hk : k = m
  · rw [if_pos hk, if_pos hk, Option.bind_some]
  · rw [if_neg hk, if_neg hk]
    rfl

theorem entryAt_of_mmu {m : ℕ} {mmu : IoMMU} (hm : w.mmu? m = some mmu) (n : PageNumber) :
    w.entryAt m n = mmu.table.get? n := by
  unfold entryAt
  rw [hm]
  rfl

theorem copiesTo_refl (held : List PageId) {m : ℕ} {ns : List PageNumber}
    (hnone : ∀ n ∈ ns, ∀ entry, w.entryAt m n = some entry → isCow entry = false) :
    CopiesTo w w held m ns where
  heap := .refl _
  other _ _ _ := rfl
  same _ _ := rfl
  copied n hn page prot hentry := by cases hnone n hn _ hentry

theorem copiesTo_unCowAt (hw : w.Isolated) (held : List PageId) (m : ℕ) (n : PageNumber) :
    CopiesTo w (w.unCowAt held m n) held m [n] := by
  cases hm : w.mmu? m with
  | none =>
    have hsame : w.unCowAt held m n = w := by
      unfold unCowAt
      rw [hm]
    rw [hsame]
    refine copiesTo_refl held fun n _ entry hentry => ?_
    unfold entryAt at hentry
    rw [hm] at hentry
    cases hentry
  | some mmu =>
    obtain ⟨heq, hnone⟩ | ⟨page, prot, page', h', hget, hpage, heq⟩ := unCowAt_cases held hm n
    · rw [heq]
      refine copiesTo_refl held fun j hj entry hentry => ?_
      rw [List.mem_singleton.1 hj, entryAt_of_mmu hm] at hentry
      exact hnone entry hentry
    · have hsrc : w.source? m n = some (.priv page true) :=
        source?_eq_some.2 ⟨mmu, _, hm, hget, rfl⟩
      have halive : page < w.heap.pages.length := hw.isolated.alive m n _ hsrc
      obtain ⟨host, hhost⟩ := Heap.exists_hostOf halive
      obtain ⟨bytes, hbytes⟩ : ∃ bytes, w.heap.bytesOf page = some bytes :=
        ⟨_, Option.map_eq_some_iff.2 ⟨host, hhost, rfl⟩⟩
      have hspec : w.heap.Extends h' ∧ ((page' = page ∧ ¬ w.Retained held m page) ∨
          ∃ k, h'.hostOf page' = some (.alloc k) ∧ w.heap.nextHost ≤ k ∧ k < h'.nextHost ∧
            h'.mem (.alloc k) = bytes) := by
        rcases hpage with ⟨hpage, hu⟩ | ⟨hpage, -⟩
        · obtain ⟨rfl, rfl⟩ := Prod.mk.inj hpage
          refine ⟨.refl _, .inl ⟨rfl, fun hret => ?_⟩⟩
          rw [hret.not_unique hsrc] at hu
          cases hu
        · obtain ⟨hext, hhost, hmem, hlt⟩ := Heap.clonePage_bytes hw.sound hbytes
          rw [← hpage] at hext hhost hmem hlt
          exact ⟨hext, .inr ⟨_, hhost, le_refl _, hlt, hmem⟩⟩
      obtain ⟨hext, hcopied⟩ := hspec
      rw [heq]
      constructor
      · exact hext
      · intro k j hk
        rw [entryAt_setMmu hm, if_neg hk]
      · intro j hj
        rw [entryAt_setMmu hm, if_pos rfl, entryAt_of_mmu hm, PageTable.get?_modify]
        by_cases hjn : j = n
        · have hcow := hj (hjn ▸ List.mem_singleton_self n) ⟨.priv page true, prot⟩
            (by rw [hjn, entryAt_of_mmu hm]; exact hget)
          cases hcow
        · rw [if_neg hjn]
      · intro j hj page₁ prot₁ hentry
        obtain rfl := List.mem_singleton.1 hj
        rw [entryAt_of_mmu hm, hget] at hentry
        obtain ⟨hsource, rfl⟩ := PageEntry.mk.inj (Option.some.inj hentry)
        obtain ⟨rfl, -⟩ := PageSource.priv.inj hsource
        refine ⟨page', ?_, ?_⟩
        · rw [entryAt_setMmu hm, if_pos rfl, PageTable.get?_modify, if_pos rfl, hget]
          rfl
        · rcases hcopied with hkept | ⟨k, hhost, hge, hlt, hmem⟩
          · exact .inl hkept
          · refine .inr ⟨k, hhost, hge, hlt, fun bytes' hbytes' => ?_⟩
            rw [hbytes] at hbytes'
            rw [← Option.some.inj hbytes']
            exact hmem

/-- The loop. -/
theorem copiesTo_fold (hw : w.Isolated) (held : List PageId) (m : ℕ) {ns : List PageNumber}
    (hnodup : ns.Nodup) : CopiesTo w (ns.foldl (fun w n => w.unCowAt held m n) w) held m ns := by
  induction ns generalizing w with
  | nil => exact copiesTo_refl held fun n hn => by cases hn
  | cons n ns ih =>
    rw [List.nodup_cons] at hnodup
    exact (copiesTo_unCowAt hw held m n).trans hw.sound (ih (hw.unCowAt held m n) hnodup.2) hnodup.1

/-- `copy_all_cow_pages`. -/
theorem copiesTo_copyAllCowPages (hw : w.Isolated) (held : List PageId) (token : Token) {m : ℕ}
    {mmu : IoMMU} (hm : w.mmu? m = some mmu) :
    CopiesTo w (w.copyAllCowPages token m held) held m mmu.table.keys := by
  have hfold := copiesTo_fold hw held m mmu.table.nodup
  unfold copyAllCowPages
  rw [hm]
  simp only
  split
  · exact hfold
  · rename_i mmu' hm'
    split_ifs
    · have hentry : ∀ k n, ((mmu.table.keys.foldl (fun w n => w.unCowAt held m n) w).setMmu m
          { mmu' with identifier := token }).entryAt k n =
            (mmu.table.keys.foldl (fun w n => w.unCowAt held m n) w).entryAt k n := by
        intro k n
        refine (entryAt_setMmu hm' _ _ k n).trans ?_
        by_cases hk : k = m
        · rw [if_pos hk, hk, entryAt_of_mmu hm']
        · rw [if_neg hk]
      refine ⟨hfold.heap, fun k n hk => ?_, fun n hn => ?_, fun n hn page prot he => ?_⟩
      · rw [hentry]
        exact hfold.other k n hk
      · rw [hentry]
        exact hfold.same n hn
      · obtain ⟨page', he', hcopied⟩ := hfold.copied n hn page prot he
        exact ⟨page', (hentry m n).trans he', hcopied⟩
    · exact hfold

end World

/-! ## Copies are exclusive -/

/-- A page object on one of the host pages `ro`. -/
def Heap.OnReadOnly (h : Heap) (ro : Set ℕ) (page : PageId) : Prop :=
  ∃ p ∈ ro, h.hostOf page = some (.external p)

namespace World

variable {w : World} {ro : Set ℕ}

/-- The host page of a page object is mapped a second time, as another page object. -/
def DoublyMapped (w : World) (page : PageId) : Prop :=
  ∃ m n src page' host, w.source? m n = some src ∧ src.page? w.heap = some page' ∧ page' ≠ page ∧
    w.heap.hostOf page = some host ∧ w.heap.hostOf page' = some host

/-- The condition on a call: when copy-on-write pages are copied, each one on read-only or
    doubly mapped host memory has a second reference. -/
def CopySafe (ro : Set ℕ) (w : World) (call : Op × Token) : Prop :=
  ∀ m held n page prot, call.1 = .copyAllCowPages m held →
    w.entryAt m n = some ⟨.priv page true, prot⟩ →
    w.heap.OnReadOnly ro page ∨ w.DoublyMapped page → w.Retained held m page

/-- After `copy_all_cow_pages` on MMU `m`, a page that was copy-on-write has the same
    bytes, on a host page that is not read-only, not the zero page, and not under any
    other entry. -/
structure CopiesExclusive (ro : Set ℕ) (w w' : World) (m : ℕ) : Prop where
  bytes : ∀ n entry, w.entryAt m n = some entry → isCow entry = true → w'.view m n = w.view m n
  host : ∀ n entry, w.entryAt m n = some entry → isCow entry = true →
    ∃ host, w'.host? m n = some host ∧ (∀ p ∈ ro, host ≠ .external p) ∧
      (∀ z, w'.heap.zeroPage = some z → w'.heap.hostOf z ≠ some host) ∧
      ∀ k n', ¬ (k = m ∧ n' = n) → w'.host? k n' ≠ some host

theorem eq_priv_of_isCow {entry : PageEntry} (hcow : isCow entry = true) :
    ∃ page prot, entry = ⟨.priv page true, prot⟩ := by
  obtain ⟨source, prot⟩ := entry
  cases source with
  | shared page => cases hcow
  | object slot shared => cases hcow
  | priv page wp =>
    cases wp with
    | false => cases hcow
    | true => exact ⟨page, prot, rfl⟩

theorem host?_priv {m : ℕ} {n : PageNumber} {page : PageId} {wp : Bool} {prot : MemProt}
    (hentry : w.entryAt m n = some ⟨.priv page wp, prot⟩) : w.host? m n = w.heap.hostOf page := by
  unfold host?
  rw [hentry, Option.bind_some, asPage_ptr]
  rfl

theorem view_priv {m : ℕ} {n : PageNumber} {page : PageId} {wp : Bool} {prot : MemProt}
    (hentry : w.entryAt m n = some ⟨.priv page wp, prot⟩) : w.view m n = w.heap.bytesOf page := by
  unfold view Heap.bytesOf
  rw [host?_priv hentry]

theorem Isolated.exists_host (hw : w.Isolated) {m : ℕ} {n : PageNumber} {page : PageId} {wp : Bool}
    {prot : MemProt} (hentry : w.entryAt m n = some ⟨.priv page wp, prot⟩) :
    ∃ host, w.heap.hostOf page = some host := by
  have hsrc : w.source? m n = some (.priv page wp) := by
    rw [source?_eq_entryAt, hentry]
    rfl
  exact Heap.exists_hostOf (hw.isolated.alive m n _ hsrc)

/-- An entry on a page of the old heap had it before the copies, too. -/
theorem CopiesTo.source_before {w' : World} {held : List PageId} {m : ℕ} {ns : List PageNumber}
    (hcopies : CopiesTo w w' held m ns) {k : ℕ} {n : PageNumber} {src : PageSource} {page : PageId}
    {p : ℕ} (hsrc : w'.source? k n = some src) (hpage : src.page? w'.heap = some page)
    (hhost : w'.heap.hostOf page = some (.external p)) :
    ∃ src', w.source? k n = some src' ∧ src'.page? w.heap = some page := by
  have hpage? : ∀ src : PageSource, src.page? w'.heap = src.page? w.heap := by
    intro src
    cases src with
    | shared q => rfl
    | priv q wp => rfl
    | object slot shared =>
      show w'.heap.residentPage slot = w.heap.residentPage slot
      unfold Heap.residentPage
      rw [hcopies.heap.slots]
  have hold : w'.entryAt k n = w.entryAt k n →
      ∃ src', w.source? k n = some src' ∧ src'.page? w.heap = some page := by
    intro heq
    rw [source?_eq_entryAt, heq, ← source?_eq_entryAt] at hsrc
    exact ⟨src, hsrc, (hpage? src).symm.trans hpage⟩
  by_cases hk : k = m
  · subst hk
    by_cases hcow : n ∈ ns ∧ ∃ entry, w.entryAt k n = some entry ∧ isCow entry = true
    · obtain ⟨hn, entry, hentry, hcow⟩ := hcow
      obtain ⟨q, prot, rfl⟩ := eq_priv_of_isCow hcow
      obtain ⟨q', hentry', hcopied⟩ := hcopies.copied n hn q prot hentry
      rw [source?_eq_entryAt, hentry'] at hsrc
      obtain rfl := Option.some.inj hsrc
      obtain rfl := Option.some.inj hpage
      rcases hcopied with ⟨rfl, -⟩ | ⟨j, hhost', -⟩
      · refine ⟨.priv q' true, ?_, rfl⟩
        rw [source?_eq_entryAt, hentry]
        rfl
      · rw [hhost] at hhost'
        cases hhost'
    · refine hold (hcopies.same n fun hn entry hentry => ?_)
      by_contra hne
      rw [Bool.not_eq_false] at hne
      exact hcow ⟨hn, entry, hentry, hne⟩
  · exact hold (hcopies.other k n hk)

theorem copiesExclusive {held : List PageId} {m : ℕ} {ns : List PageNumber} {w' : World}
    (hw : w.Isolated) (hw' : w'.Isolated) (hcopies : CopiesTo w w' held m ns)
    (hns : ∀ n entry, w.entryAt m n = some entry → n ∈ ns)
    (hsafe : ∀ n page prot, w.entryAt m n = some ⟨.priv page true, prot⟩ →
      w.heap.OnReadOnly ro page ∨ w.DoublyMapped page → w.Retained held m page) :
    CopiesExclusive ro w w' m := by
  constructor
  · intro n entry hentry hcow
    obtain ⟨page, prot, rfl⟩ := eq_priv_of_isCow hcow
    obtain ⟨page', hentry', hcopied⟩ := hcopies.copied n (hns n _ hentry) page prot hentry
    obtain ⟨host, hhost⟩ := hw.exists_host hentry
    have hbytes : w.heap.bytesOf page = some (w.heap.mem host) := by
      unfold Heap.bytesOf
      rw [hhost]
      rfl
    rw [view_priv hentry, view_priv hentry', hbytes]
    rcases hcopied with ⟨rfl, -⟩ | ⟨k, hhost', -, -, hmem⟩
    · exact hcopies.heap.bytesOf hw.sound hbytes
    · unfold Heap.bytesOf
      rw [hhost', Option.map_some, hmem _ hbytes]
  · intro n entry hentry hcow
    obtain ⟨page, prot, rfl⟩ := eq_priv_of_isCow hcow
    obtain ⟨page', hentry', hcopied⟩ := hcopies.copied n (hns n _ hentry) page prot hentry
    obtain ⟨host, hhost'⟩ := hw'.exists_host hentry'
    have hsrc' : w'.source? m n = some (.priv page' false) := by
      rw [source?_eq_entryAt, hentry']
      rfl
    -- the entry owns its page object, so only another object on external memory matters
    have hhandedal : ∀ p, host = .external p → page' = page ∧ w.heap.hostOf page = some host ∧
        ¬ w.Retained held m page := by
      rintro p rfl
      rcases hcopied with ⟨rfl, hret⟩ | ⟨k, hk, -⟩
      · obtain ⟨host₀, hhost₀⟩ := hw.exists_host hentry
        obtain rfl := Option.some.inj ((hcopies.heap.le.host hhost₀).symm.trans hhost')
        exact ⟨rfl, hhost₀, hret⟩
      · rw [hhost'] at hk
        cases hk
    refine ⟨host, (host?_priv hentry').trans hhost', ?_, ?_, ?_⟩
    · rintro p hp rfl
      obtain ⟨-, hhost, hret⟩ := hhandedal p rfl
      exact hret (hsafe n page prot hentry (.inl ⟨p, hp, hhost⟩))
    · intro z hz hzhost
      obtain ⟨k, hk, -⟩ := hw'.sound.zero z hz
      obtain rfl := Option.some.inj (hzhost.symm.trans hk)
      obtain rfl := hw'.sound.host_inj _ _ k hk hhost'
      cases hw'.isolated.zero m n _ z hsrc' rfl hz
    · intro k n' hother hhost''
      cases hentry'' : w'.entryAt k n' with
      | none =>
        unfold host? at hhost''
        rw [hentry''] at hhost''
        cases hhost''
      | some entry'' =>
        have hsrc'' : w'.source? k n' = some entry''.source := by
          rw [source?_eq_entryAt, hentry'']
          rfl
        rw [host?_eq hsrc''] at hhost''
        obtain ⟨page'', hpage'', hhost''⟩ := Option.bind_eq_some_iff.1 hhost''
        have hne : page'' ≠ page' := by
          rintro rfl
          rcases hw'.isolated.page m n _ k n' _ _ hsrc' hsrc'' rfl hpage'' with
            ⟨rfl, rfl⟩ | ⟨-, hown⟩
          · exact hother ⟨rfl, rfl⟩
          · exact hown rfl
        cases host with
        | alloc j => exact hne (hw'.sound.host_inj _ _ j hhost'' hhost')
        | external p =>
          obtain ⟨rfl, hhost, hret⟩ := hhandedal p rfl
          obtain ⟨src, hsrc, hpage⟩ := hcopies.source_before hsrc'' hpage'' hhost''
          have hlt := PageSource.page?_lt hw.sound (hw.isolated.alive _ _ _ hsrc) hpage
          rw [hcopies.heap.le.hostOf_eq hlt] at hhost''
          exact hret (hsafe n page' prot hentry
            (.inr ⟨k, n', src, page'', _, hsrc, hpage, hne, hhost, hhost''⟩))

end World

/-! ## Read-only memory is copy-on-write -/

/-- Entries on the host pages `ro` are copy-on-write. -/
def ReadOnlyCow (ro : Set ℕ) (h : Heap) (S : Sources) : Prop :=
  ∀ m n src page, S m n = some src → src.page? h = some page → h.OnReadOnly ro page →
    src.sharing = .cow

section Sources

variable {ro : Set ℕ} {h h' : Heap} {S S' : Sources}

theorem ReadOnlyCow.sub (hro : ReadOnlyCow ro h S)
    (hsub : ∀ m n src, S' m n = some src → S m n = some src) : ReadOnlyCow ro h S' :=
  fun m n src page hsrc => hro m n src page (hsub m n src hsrc)

theorem ReadOnlyCow.grow (hro : ReadOnlyCow ro h S) (hS : Isolated h S) (hh : h.Sound)
    (hg : h.Grows h') (hle : h.Le h') : ReadOnlyCow ro h' S := by
  rintro m n src page hsrc hpage ⟨p, hp, hhost⟩
  have halive := hS.alive m n src hsrc
  rw [hg.page? halive] at hpage
  refine hro m n src page hsrc hpage ⟨p, hp, ?_⟩
  rw [← hle.hostOf_eq (PageSource.page?_lt hh halive hpage)]
  exact hhost

theorem ReadOnlyCow.insert (hro : ReadOnlyCow ro h S) {m : ℕ} {n : PageNumber} {src : PageSource}
    (hsrc : ∀ page, src.page? h = some page → h.OnReadOnly ro page → src.sharing = .cow) :
    ReadOnlyCow ro h (S.set m n src) := by
  intro k j src' page hsrc' hpage hon
  rcases Sources.set_cases hsrc' with ⟨-, -, rfl⟩ | ⟨-, hold⟩
  · exact hsrc page hpage hon
  · exact hro k j src' page hold hpage hon

/-- A new mapping is on read-only memory only if it is copy-on-write. -/
theorem readOnly_newSource (region : MapRegion) (offset : ℕ)
    (hok : ∀ flags ptr, region = .external flags ptr → flags ≠ .cow → ptr + offset ∉ ro)
    (page : PageId) :
    (region.newSource h offset).1.page? (region.newSource h offset).2 = some page →
    (region.newSource h offset).2.OnReadOnly ro page →
      (region.newSource h offset).1.sharing = .cow := by
  have halloc : ∀ p ∈ ro, ¬ h.allocZeroed.2.hostOf h.pages.length = some (.external p) := by
    intro p _ hhost
    simp [Heap.allocZeroed, Heap.allocPage, Heap.hostOf] at hhost
  cases region with
  | object shared obj =>
    intro hpage
    have hnone : (h.newSlot obj offset).2.residentPage (h.newSlot obj offset).1 = none := by
      simp [Heap.residentPage, Heap.newSlot]
    have hpage' : none = some page := hnone.symm.trans hpage
    cases hpage'
  | external flags ptr =>
    have hnew : flags ≠ .cow → ∀ p ∈ ro, ¬ (h.newExtern (.external (ptr + offset))).2.hostOf
        h.pages.length = some (.external p) := by
      intro hflags p hp hhost
      simp only [Heap.newExtern, Heap.hostOf, List.getElem?_concat_length, Option.map_some,
        Option.some.injEq, HostPage.external.injEq] at hhost
      exact hok flags ptr rfl hflags (hhost ▸ hp)
    cases flags with
    | cow => exact fun _ _ => rfl
    | priv =>
      rintro hpage ⟨p, hp, hhost⟩
      obtain rfl := Option.some.inj hpage
      exact absurd hhost (hnew (by decide) p hp)
    | shared =>
      rintro hpage ⟨p, hp, hhost⟩
      obtain rfl := Option.some.inj hpage
      exact absurd hhost (hnew (by decide) p hp)
  | anon flags =>
    cases flags with
    | cow => exact fun _ _ => rfl
    | priv =>
      rintro hpage ⟨p, hp, hhost⟩
      obtain rfl := Option.some.inj hpage
      exact absurd hhost (halloc p hp)
    | shared =>
      rintro hpage ⟨p, hp, hhost⟩
      obtain rfl := Option.some.inj hpage
      exact absurd hhost (halloc p hp)

theorem readOnly_mapPages {m : ℕ} (region : MapRegion) (prot : MemProt) (start : PageNumber)
    {pages : List PageNumber} {t : PageTable} (hh : h.Sound) (hS : Isolated h (S.withTable m t))
    (hro : ReadOnlyCow ro h (S.withTable m t))
    (hok : ∀ n ∈ pages, ∀ flags ptr, region = .external flags ptr → flags ≠ .cow →
      ptr + (n - start) ∉ ro) :
    ReadOnlyCow ro (mapPages region prot start pages t h).2
      (S.withTable m (mapPages region prot start pages t h).1) := by
  induction pages generalizing t h with
  | nil => exact hro
  | cons n pages ih =>
    obtain ⟨hg, hsound, hsep⟩ := newSource_spec (m := m) (n := n) hS hh region (n - start)
    have hgrown := hS.grow hh hg
    have hroGrown := hro.grow hS hh hg (Heap.le_newSource h region (n - start))
    have hnew := readOnly_newSource (h := h) region (n - start) (hok n List.mem_cons_self)
    have hok' := fun k hk => hok k (List.mem_cons_of_mem _ hk)
    by_cases hn : n ∈ t.keys
    · have hsame : t.insert n ⟨(region.newSource h (n - start)).1, prot⟩ = t := dif_pos hn
      refine ih (t := t.insert n ⟨(region.newSource h (n - start)).1, prot⟩) hsound ?_ ?_ hok'
      · rw [hsame]
        exact hgrown
      · rw [hsame]
        exact hroGrown
    · refine ih (t := t.insert n ⟨(region.newSource h (n - start)).1, prot⟩) hsound ?_ ?_ hok'
      · rw [withTable_insert hn]
        exact hgrown.insert hsep
      · rw [withTable_insert hn]
        exact hroGrown.insert hnew

end Sources

/-! ## Calls -/

/-- The host pages that a call hands to `map_extern`, with this `readonly`. -/
def Op.externPages (readonly : Bool) : Op → List ℕ
  | .mapExtern _ base size ptr ro _ _ =>
    if ro = readonly then
      (World.rangePages base size).map fun n => ptr + (n - (World.rangePages base size).headD 0)
    else []
  | _ => []

namespace World

variable {w : World} {ro : Set ℕ}

theorem readOnly_mapRegion (hw : w.Isolated) (hro : ReadOnlyCow ro w.heap w.source?) (token : Token)
    (m : ℕ) (base size : BitVec 64) (prot : MemProt) (region : MapRegion)
    (hok : ∀ n ∈ rangePages base size, ∀ flags ptr, region = .external flags ptr → flags ≠ .cow →
      ptr + (n - (rangePages base size).headD 0) ∉ ro) :
    ReadOnlyCow ro (w.mapRegion token m base size prot region).heap
      (w.mapRegion token m base size prot region).source? := by
  unfold mapRegion
  split
  · rename_i mmu pages hmmu hpages
    have hrange : rangePages base size = pages := by
      unfold rangePages
      rw [hpages]
    rw [hrange] at hok
    unfold mapInner
    split
    · rename_i t h heq
      split at heq
      · cases heq
      · have hpairs := Except.ok.inj heq
        have hmapped := readOnly_mapPages (m := m) (t := mmu.table) (S := w.source?) region prot
          (pages.headD 0) hw.sound (by rw [withTable_self hmmu]; exact hw.isolated)
          (by rw [withTable_self hmmu]; exact hro) hok
        rw [hpairs] at hmapped
        unfold modifyTable
        rw [source?_setMmu hmmu]
        exact hmapped
    · exact hro
  · exact hro

theorem readOnly_fork (hro : ReadOnlyCow ro w.heap w.source?) (token : Token)
    (m : ℕ) : ReadOnlyCow ro (w.fork token m).heap (w.fork token m).source? := by
  cases hm : w.mmu? m with
  | none =>
    have hsame : w.fork token m = w := by
      unfold World.fork
      rw [hm]
    rw [hsame]
    exact hro
  | some mmu =>
    obtain ⟨hnew, hentries⟩ := fork_entries token hm
    have hhost : (w.fork token m).heap.hostOf = w.heap.hostOf := by
      funext page
      unfold Heap.hostOf
      rw [hnew.pages]
    -- an entry of either side is one of the MMU before the fork
    have hforked : ∀ {k n src page}, ForkedEntry w.heap (w.fork token m).heap (w.entryAt m n)
        ((w.fork token m).entryAt k n) → (w.fork token m).source? k n = some src →
        src.page? (w.fork token m).heap = some page → w.heap.OnReadOnly ro page →
        src.sharing = .cow := by
      intro k n src page hrel hsrc hpage hon
      rw [source?_eq_entryAt] at hsrc
      obtain ⟨forked, hforked, rfl⟩ := Option.map_eq_some_iff.1 hsrc
      rw [hforked] at hrel
      cases hold : w.entryAt m n with
      | none =>
        rw [hold] at hrel
        cases hrel
      | some entry =>
        rw [hold] at hrel
        cases hrel with
        | some hfork =>
          have hsrcOld : w.source? m n = some entry.source := by
            rw [source?_eq_entryAt, hold]
            rfl
          exact hfork.cow (hro m n _ page hsrcOld (hfork.page.symm.trans hpage) hon)
    rintro k n src page hsrc hpage ⟨p, hp, hon⟩
    rw [hhost] at hon
    obtain ⟨x, entry, hx, hget, rfl⟩ := source?_eq_some.1 hsrc
    rcases fork_mmu_cases hm hx with ⟨rfl, -⟩ | ⟨rfl, -⟩ | ⟨-, hold⟩
    · exact hforked (hentries n).2 hsrc hpage ⟨p, hp, hon⟩
    · exact hforked (hentries n).1 hsrc hpage ⟨p, hp, hon⟩
    · rw [hnew.page?] at hpage
      exact hro k n _ page (source?_eq_some.2 ⟨x, entry, hold, hget, rfl⟩) hpage ⟨p, hp, hon⟩

theorem readOnly_copyAllCowPages (hw : w.Isolated) (hro : ReadOnlyCow ro w.heap w.source?)
    (token : Token) (m : ℕ) (held : List PageId)
    (hsafe : CopySafe ro w (.copyAllCowPages m held, token)) :
    ReadOnlyCow ro (w.copyAllCowPages token m held).heap
      (w.copyAllCowPages token m held).source? := by
  cases hm : w.mmu? m with
  | none =>
    have hsame : w.copyAllCowPages token m held = w := by
      unfold copyAllCowPages
      rw [hm]
    rw [hsame]
    exact hro
  | some mmu =>
    have hcopies := copiesTo_copyAllCowPages hw held token hm
    rintro k n src page hsrc hpage ⟨p, hp, hhost⟩
    obtain ⟨src', hsrc', hpage'⟩ := hcopies.source_before hsrc hpage hhost
    have hlt := PageSource.page?_lt hw.sound (hw.isolated.alive _ _ _ hsrc') hpage'
    rw [hcopies.heap.le.hostOf_eq hlt] at hhost
    have hcow := hro k n src' page hsrc' hpage' ⟨p, hp, hhost⟩
    obtain ⟨entry, hentry, rfl⟩ : ∃ entry, w.entryAt k n = some entry ∧ entry.source = src' := by
      rw [source?_eq_entryAt] at hsrc'
      exact Option.map_eq_some_iff.1 hsrc'
    by_cases hk : k = m
    · -- a copy-on-write entry of the MMU would have been copied
      subst hk
      have hisCow : isCow entry = true := by
        obtain ⟨source, prot⟩ := entry
        cases source with
        | shared q => cases hcow
        | object s sh => cases sh <;> cases hcow
        | priv q wp =>
          cases wp with
          | false => cases hcow
          | true => rfl
      obtain ⟨q, prot, rfl⟩ := eq_priv_of_isCow hisCow
      obtain rfl := Option.some.inj hpage'
      have hkey : n ∈ mmu.table.keys :=
        PageTable.mem_keys_iff.2 ⟨_, (entryAt_of_mmu hm n).symm.trans hentry⟩
      obtain ⟨q', hentry', hcopied⟩ := hcopies.copied n hkey q prot hentry
      rcases hcopied with ⟨-, hret⟩ | ⟨j, hhost', hge, -⟩
      · exact absurd (hsafe k held n q prot rfl hentry (.inl ⟨p, hp, hhost⟩)) hret
      · -- the new entry is on an allocated page
        rw [source?_eq_entryAt, hentry'] at hsrc
        obtain rfl := Option.some.inj hsrc
        obtain rfl := Option.some.inj hpage
        rw [hcopies.heap.le.hostOf_eq hlt, hhost] at hhost'
        cases hhost'
    · have hsame := hcopies.other k n hk
      rw [source?_eq_entryAt, hsame, hentry] at hsrc
      rw [← Option.some.inj hsrc]
      exact hcow

theorem readOnly_faultIn (hw : w.Isolated) (hro : ReadOnlyCow ro w.heap w.source?) (slot : SlotId)
    (bytes : PageBytes) : ReadOnlyCow ro (w.heap.faultIn slot bytes) w.source? := by
  rintro m n src page hsrc hpage ⟨p, hp, hhost⟩
  by_cases hold : src.page? w.heap = some page
  · refine hro m n src page hsrc hold ⟨p, hp, ?_⟩
    have hlt := PageSource.page?_lt hw.sound (hw.isolated.alive _ _ _ hsrc) hold
    rw [← (w.heap.le_faultIn slot bytes).hostOf_eq hlt]
    exact hhost
  · -- the page has become resident, on an allocated page
    exfalso
    unfold Heap.faultIn at hpage hhost
    split at hpage
    · rename_i object offset hslot
      cases src with
      | shared q => exact hold hpage
      | priv q wp => exact hold hpage
      | object s sh =>
        by_cases hs : s = slot
        · subst hs
          have hlt : s < w.heap.slots.length := getElem?_eq_some_lt hslot
          have hnew : w.heap.pages.length = page := by
            simpa [PageSource.page?, Heap.residentPage, Heap.allocPage, hlt] using hpage
          subst hnew
          simp [hslot, Heap.hostOf, Heap.allocPage] at hhost
        · refine hold ?_
          have hne : slot ≠ s := fun heq => hs heq.symm
          simpa [PageSource.page?, Heap.residentPage, Heap.allocPage, List.getElem?_set_ne hne]
            using hpage
    · exact hold hpage

theorem readOnly_of_heap {w' : World} (hro : ReadOnlyCow ro w.heap w.source?)
    (hmmu : ∀ k, w'.mmu? k = w.mmu? k)
    (hpages : w'.heap.pages.map (·.allocatedPage) = w.heap.pages.map (·.allocatedPage))
    (hslots : w'.heap.slots = w.heap.slots) : ReadOnlyCow ro w'.heap w'.source? := by
  rintro m n src page hsrc hpage ⟨p, hp, hhost⟩
  refine hro m n src page ?_ ?_ ⟨p, hp, ?_⟩
  · unfold source? at hsrc ⊢
    rw [← hmmu]
    exact hsrc
  · cases src with
    | shared q => exact hpage
    | priv q wp => exact hpage
    | object slot shared =>
      unfold PageSource.page? Heap.residentPage at hpage ⊢
      rw [← hslots]
      exact hpage
  · unfold Heap.hostOf at hhost ⊢
    rw [← List.getElem?_map] at hhost ⊢
    rw [← hpages]
    exact hhost

theorem readOnly_sub {w' : World} (hro : ReadOnlyCow ro w.heap w.source?) (hheap : w'.heap = w.heap)
    (hmmu : ∀ k mmu, w'.mmu? k = some mmu → w.mmu? k = some mmu) :
    ReadOnlyCow ro w'.heap w'.source? := by
  rw [hheap]
  refine hro.sub fun m n src hsrc => ?_
  obtain ⟨mmu, entry, hm, hget, hsource⟩ := source?_eq_some.1 hsrc
  exact source?_eq_some.2 ⟨mmu, entry, hmmu m mmu hm, hget, hsource⟩

theorem readOnly_tables {m : ℕ} {mmu : IoMMU} (hm : w.mmu? m = some mmu)
    (hro : ReadOnlyCow ro w.heap w.source?) {token : Token} {modified : Bool} {t : PageTable}
    (hsub : ∀ n src, t.source? n = some src → mmu.table.source? n = some src) :
    ReadOnlyCow ro (w.modifyTable m mmu token modified t w.heap).heap
      (w.modifyTable m mmu token modified t w.heap).source? := by
  unfold modifyTable
  rw [source?_setMmu hm]
  refine hro.sub fun k n src hsrc => ?_
  rw [← withTable_self hm]
  unfold Sources.withTable at hsrc ⊢
  by_cases hk : k = m
  · rw [if_pos hk] at hsrc ⊢
    exact hsub n src hsrc
  · rw [if_neg hk] at hsrc ⊢
    exact hsrc

/-- Entries on read-only memory stay copy-on-write. -/
theorem readOnly_step (hw : w.Isolated) (hro : ReadOnlyCow ro w.heap w.source?) {call : Op × Token}
    (hsafe : CopySafe ro w call) (hhanded : ∀ p ∈ call.1.externPages false, p ∉ ro) :
    ReadOnlyCow ro (w.step call.1 call.2).heap (w.step call.1 call.2).source? := by
  obtain ⟨op, token⟩ := call
  have hload : ∀ {α : Type} m c (x : Heap → IoMMU → Access α),
      ReadOnlyCow ro (w.runLoad m c x).heap (w.runLoad m c x).source? := by
    intro α m c x
    unfold runLoad
    split
    · exact hro
    · refine readOnly_sub hro (setCache_heap _ _) fun k mmu hk => ?_
      rwa [setCache_mmu?] at hk
  cases op with
  | newMmu =>
    rintro m n src page hsrc hpage hon
    obtain ⟨mmu, entry, hm, hget, hsource⟩ := source?_eq_some.1 hsrc
    rw [step, mmu?_append] at hm
    by_cases hlen : m = w.mmus.length
    · rw [if_pos hlen] at hm
      obtain rfl := Option.some.inj hm
      cases hget
    · rw [if_neg hlen] at hm
      exact hro m n src page (source?_eq_some.2 ⟨mmu, entry, hm, hget, hsource⟩) hpage hon
  | newTlb => exact hro
  | dropMmu m => exact readOnly_sub hro rfl fun _ _ h => mmu?_of_drop h
  | dropTlb t => exact hro
  | map m base size lazy shared prot =>
    refine readOnly_mapRegion hw hro token m base size prot _ fun n _ flags ptr heq => ?_
    cases lazy <;> cases shared <;> cases heq
  | mapExtern m base size ptr readonly shared prot =>
    simp only [step]
    split
    · rename_i flags hflags
      refine readOnly_mapRegion hw hro token m base size prot _ fun n hn flags' ptr' heq hne => ?_
      obtain ⟨rfl, rfl⟩ := MapRegion.external.inj heq
      have hreadonly : readonly = false := by
        cases readonly with
        | false => rfl
        | true =>
          cases shared with
          | false => exact absurd (Option.some.inj hflags).symm hne
          | true => cases hflags
      subst hreadonly
      exact hhanded _ (List.mem_map.2 ⟨n, hn, rfl⟩)
    · exact hro
  | mapDevice m base size device shared prot =>
    exact readOnly_mapRegion hw hro token m base size prot _ fun n _ flags ptr heq => by cases heq
  | unmap m start size =>
    simp only [step]
    unfold unmap
    split
    · rename_i mmu pages hmmu hpages
      exact readOnly_tables hmmu hro (source?_foldl_remove pages mmu.table)
    · exact hro
  | protect m start size prot =>
    simp only [step]
    unfold protect
    split
    · rename_i mmu pages hmmu hpages
      split
      · refine readOnly_tables hmmu hro fun n src hsrc => ?_
        unfold PageTable.source? protectPages at hsrc
        rw [PageTable.get?_mapVals, Option.map_map] at hsrc
        obtain ⟨entry, hget, heq⟩ := Option.map_eq_some_iff.1 hsrc
        refine Option.map_eq_some_iff.2 ⟨entry, hget, ?_⟩
        rw [← heq, Function.comp_apply]
        split_ifs <;> rfl
      · exact hro
    · exact hro
  | fork m => exact readOnly_fork hro token m
  | copyAllCowPages m held => exact readOnly_copyAllCowPages hw hro token m held hsafe
  | faultIn slot bytes => exact readOnly_faultIn hw hro slot bytes
  | refresh m =>
    obtain ⟨hpages, hslots, -⟩ := w.refresh_frame m
    exact readOnly_of_heap hro (mmu?_refresh m) hpages hslots
  | lookup m c n => exact hload m c fun h mmu => getPage h mmu n
  | load m c vaddr len force =>
    exact hload m c fun h mmu =>
      Mmu.load h mmu vaddr len (if force then none else some MemProt.READ)
  | scalarLoad m c width vaddr => exact hload m c fun h mmu => Mmu.scalarLoad h mmu width vaddr
  | store m c sop =>
    obtain ⟨hmmu, hheap | ⟨mmu, effects, -, -, hheap⟩⟩ := w.runStore_cases m c sop
    · exact readOnly_sub hro hheap fun k mmu hk => (hmmu k).symm.trans hk
    · obtain ⟨hpages, hslots, -, -⟩ := w.heap.apply_frame effects
      rw [← hheap] at hpages hslots
      exact readOnly_of_heap hro hmmu hpages hslots

theorem external_newSource (region : MapRegion) (h : Heap) (offset p : ℕ) :
    (region.newSource h offset).2.mem (.external p) = h.mem (.external p) := by
  have halloc := (h.extends_allocPage fun _ => 0).external p
  cases region with
  | object shared obj => rfl
  | external flags ptr => cases flags <;> rfl
  | anon flags =>
    cases flags with
    | priv => exact halloc
    | shared => exact halloc
    | cow =>
      show h.getZeroPage.2.mem (.external p) = _
      unfold Heap.getZeroPage
      cases h.zeroPage with
      | some page => rfl
      | none => exact halloc

theorem external_mapPages (region : MapRegion) (prot : MemProt) (start : PageNumber)
    (pages : List PageNumber) (t : PageTable) (h : Heap) (p : ℕ) :
    (mapPages region prot start pages t h).2.mem (.external p) = h.mem (.external p) := by
  induction pages generalizing t h with
  | nil => rfl
  | cons n pages ih =>
    exact (ih _ _).trans (external_newSource region h (n - start) p)

theorem external_mapRegion (token : Token) (m : ℕ) (base size : BitVec 64) (prot : MemProt)
    (region : MapRegion) (p : ℕ) :
    (w.mapRegion token m base size prot region).heap.mem (.external p) = w.heap.mem
    (.external p) := by
  unfold mapRegion
  split
  · unfold mapInner
    split
    · rename_i t h heq
      split at heq
      · cases heq
      · obtain ⟨rfl, rfl⟩ := Prod.mk.inj (Except.ok.inj heq)
        exact external_mapPages ..
    · rfl
  · rfl

/-- Host memory of the caller changes in a store only. -/
theorem external_step (hw : w.Isolated) {op : Op} (hop : ∀ m c sop, op ≠ .store m c sop)
    (token : Token) (p : ℕ) :
    (w.step op token).heap.mem (.external p) = w.heap.mem (.external p) := by
  have hload : ∀ {α : Type} m c (x : Heap → IoMMU → Access α), (w.runLoad m c x).heap = w.heap := by
    intro α m c x
    unfold runLoad
    split
    · rfl
    · exact setCache_heap _ _
  cases op with
  | newMmu => rfl
  | newTlb => rfl
  | dropMmu m => rfl
  | dropTlb t => rfl
  | map m base size lazy shared prot => exact external_mapRegion ..
  | mapExtern m base size ptr readonly shared prot =>
    simp only [step]
    split
    · exact external_mapRegion ..
    · rfl
  | mapDevice m base size device shared prot => exact external_mapRegion ..
  | unmap m start size =>
    simp only [step, unmap]
    split <;> rfl
  | protect m start size prot =>
    simp only [step, protect]
    split
    · split <;> rfl
    · rfl
  | fork m =>
    cases hm : w.mmu? m with
    | none =>
      simp only [step, fork, hm]
    | some mmu => exact congrFun (fork_entries token hm).1.mem _
  | copyAllCowPages m held =>
    cases hm : w.mmu? m with
    | none => simp only [step, copyAllCowPages, hm]
    | some mmu => exact (copiesTo_copyAllCowPages hw held token hm).heap.external p
  | faultIn slot bytes =>
    simp only [step, Heap.faultIn]
    split
    · exact (w.heap.extends_allocPage bytes).external p
    · rfl
  | refresh m => exact congrFun (w.refresh_frame m).2.2.2.2 _
  | lookup m c n => exact congrArg (fun h => h.mem (.external p)) (hload m c _)
  | load m c vaddr len force => exact congrArg (fun h => h.mem (.external p)) (hload m c _)
  | scalarLoad m c width vaddr => exact congrArg (fun h => h.mem (.external p)) (hload m c _)
  | store m c sop => exact absurd rfl (hop m c sop)

/-- A call keeps the bytes of read-only memory. -/
theorem readOnly_bytes (hw : w.Isolated) (hb : w.Bounded) (hro : ReadOnlyCow ro w.heap w.source?)
    {call : Op × Token} (hsafe : w.StoreSafe call) {p : ℕ} (hp : p ∈ ro) :
    (w.step call.1 call.2).heap.mem (.external p) = w.heap.mem (.external p) := by
  obtain ⟨op, token⟩ := call
  by_cases hop : ∃ m c sop, op = .store m c sop
  · obtain ⟨m, c, sop, rfl⟩ := hop
    funext i
    by_contra hne
    obtain ⟨n, -, entry, page, hres, hptr, hsharing⟩ :=
      (hw.storeIsolated hb hsafe).writes (.external p) i hne
    obtain ⟨hsrc, hpage, hhost⟩ := hres.source
    rw [hptr] at hhost
    exact hsharing (hro m n _ _ hsrc hpage ⟨p, hp, hhost⟩)
  · push Not at hop
    exact external_step hw hop token p

end World

/-! ## Runs -/

/-- The host pages handed to `map_extern` in a run, with this `readonly`. -/
def handed (readonly : Bool) (calls : List (Op × Token)) : Set ℕ :=
  {p | ∃ call ∈ calls, p ∈ call.1.externPages readonly}

/-- In every call of a run, `copy_all_cow_pages` makes exclusive copies, and the host memory
    that the run maps read-only keeps its bytes. -/
def ReadOnlyKept (calls : List (Op × Token)) : Prop :=
  ∀ before call after, calls = before ++ call :: after →
    (∀ m held, call.1 = .copyAllCowPages m held →
      World.CopiesExclusive (handed true calls) (World.init.run before)
        ((World.init.run before).step call.1 call.2) m) ∧
    ∀ p ∈ handed true calls, ((World.init.run before).step call.1 call.2).heap.mem (.external p) =
      (World.init.run before).heap.mem (.external p)

theorem World.Meets.before {cond : World → Op × Token → Prop} {w : World}
    {before : List (Op × Token)} {call : Op × Token} {after : List (Op × Token)}
    (hm : World.Meets cond w (before ++ call :: after)) :
    World.Meets cond w before ∧ cond (w.run before) call := by
  induction before generalizing w with
  | nil => exact ⟨trivial, hm.1⟩
  | cons first before ih =>
    obtain ⟨hbefore, hcall⟩ := ih hm.2
    exact ⟨⟨hm.1, hbefore⟩, hcall⟩

theorem World.meets_of_forall {P : Op × Token → Prop} {calls : List (Op × Token)}
    (hP : ∀ call ∈ calls, P call) (w : World) : World.Meets (fun _ call => P call) w calls := by
  induction calls generalizing w with
  | nil => trivial
  | cons call calls ih =>
    exact ⟨hP call List.mem_cons_self, ih (fun c hc => hP c (List.mem_cons_of_mem _ hc)) _⟩

/-- In every run with safe stores and safe copies, in which no host page is mapped both
    read-only and writable, copies are exclusive and read-only memory keeps its bytes. -/
theorem readOnly_kept_run {calls : List (Op × Token)}
    (hok : World.Meets (fun w call => w.StoreSafe call ∧ World.CopySafe (handed true calls) w call)
      World.init calls)
    (hcaller : ∀ p ∈ handed true calls, p ∉ handed false calls) : ReadOnlyKept calls := by
  intro before call after hcalls
  -- the calls hand no page of read-only memory to a writable mapping
  have hhanded : ∀ c ∈ calls, ∀ p ∈ c.1.externPages false, p ∉ handed true calls :=
    fun c hc p hp hro => hcaller p hro ⟨c, hc, hp⟩
  have hmeets := hok.and (World.meets_of_forall hhanded World.init)
  generalize hro : handed true calls = ro at *
  rw [hcalls] at hmeets
  obtain ⟨hbefore, ⟨hstore, hcopy⟩, -⟩ := hmeets.before
  obtain ⟨hisolated, hbounded, hcow⟩ :=
    @World.Meets.invariant _ (fun w => w.Isolated ∧ w.Bounded ∧ ReadOnlyCow ro w.heap w.source?)
      (fun w c hw hc => ⟨hw.1.step hw.2.1 hc.1.1, hw.2.1.step c.1 c.2,
        World.readOnly_step hw.1 hw.2.2 hc.1.2 hc.2⟩) _ _
      ⟨World.isolated_init, World.bounded_init, fun m n src page hsrc => by cases hsrc⟩ hbefore
  refine ⟨fun m held hcall => ?_, fun p hp => ?_⟩
  · obtain ⟨op, token⟩ := call
    obtain rfl : op = .copyAllCowPages m held := hcall
    cases hm : (World.init.run before).mmu? m with
    | none =>
      have hnone : ∀ n entry, (World.init.run before).entryAt m n ≠ some entry := by
        intro n entry hentry
        unfold World.entryAt at hentry
        rw [hm] at hentry
        cases hentry
      exact ⟨fun n entry hentry => absurd hentry (hnone n entry),
        fun n entry hentry => absurd hentry (hnone n entry)⟩
    | some mmu =>
      refine World.copiesExclusive hisolated (hisolated.copyAllCowPages token m held)
        (World.copiesTo_copyAllCowPages hisolated held token hm) ?_ ?_
      · intro n entry hentry
        exact PageTable.mem_keys_iff.2 ⟨entry, (World.entryAt_of_mmu hm n).symm.trans hentry⟩
      · exact fun n page prot => hcopy m held n page prot rfl
  · exact World.readOnly_bytes hisolated hbounded hcow hstore hp

/-- A read-only mapping, a fork, and copies for the new MMU. -/
def mapForkCopy : List (Op × Token) :=
  [(.newMmu, 0), (.mapExtern 0 0 4096 7 true false (MemProt.READ ||| MemProt.WRITE), 1),
    (.fork 0, 2), (.copyAllCowPages 1 [], 3)]

theorem readOnly_kept_mapForkCopy : ReadOnlyKept mapForkCopy := by
  have hstore : ∀ w : World, ∀ call ∈ mapForkCopy, w.StoreSafe call := by
    intro w call hcall m c op mmu hop
    simp only [mapForkCopy, List.mem_cons, List.not_mem_nil, or_false] at hcall
    rcases hcall with rfl | rfl | rfl | rfl <;> cases hop
  have hcopy : ∀ w : World, ∀ ro, ∀ call ∈ mapForkCopy.take 3, World.CopySafe ro w call := by
    intro w ro call hcall m held n page prot hop
    simp only [mapForkCopy, List.take, List.mem_cons, List.not_mem_nil, or_false] at hcall
    rcases hcall with rfl | rfl | rfl <;> cases hop
  refine readOnly_kept_run ⟨⟨hstore _ _ (by simp [mapForkCopy]),
    hcopy _ _ _ (by simp [mapForkCopy])⟩,
    ⟨hstore _ _ (by simp [mapForkCopy]), hcopy _ _ _ (by simp [mapForkCopy])⟩,
    ⟨hstore _ _ (by simp [mapForkCopy]), hcopy _ _ _ (by simp [mapForkCopy])⟩,
    ⟨hstore _ _ (by simp [mapForkCopy]), ?_⟩, trivial⟩ ?_
  · intro m held n page prot hop hentry _
    cases hop
    obtain ⟨mmu, hm, hget⟩ := Option.bind_eq_some_iff.1 hentry
    cases hm
    obtain rfl : n = 0 := List.mem_singleton.1 (PageTable.mem_keys_iff.2 ⟨_, hget⟩)
    cases hget
    exact .inl ⟨0, 0, .priv 0 true, by decide, rfl, rfl⟩
  · rintro p ⟨call, hcall, hp⟩ ⟨call', hcall', hp'⟩
    simp only [mapForkCopy, List.mem_cons, List.not_mem_nil, or_false] at hcall'
    rcases hcall' with rfl | rfl | rfl | rfl <;> cases hp'

/-- A read-only mapping that is copied while its entry has the only reference, and then
    stored to. -/
def mapCopyStore : List Op :=
  [.newMmu, .mapExtern 0 0 4096 7 true false (MemProt.READ ||| MemProt.WRITE),
    .copyAllCowPages 0 [], .store 0 none (.store 0 [1])]

theorem readOnly_written :
    ¬ ∀ calls, World.Meets World.Fresh World.init calls →
      (∀ p ∈ handed true calls, p ∉ handed false calls) → ReadOnlyKept calls := by
  intro hclaim
  have hcaller : ∀ p ∈ handed true (mapCopyStore.zipIdx 0),
      p ∉ handed false (mapCopyStore.zipIdx 0) := by
    rintro p - ⟨call', hcall', hp'⟩
    simp only [mapCopyStore, List.zipIdx_cons, List.zipIdx_nil, List.mem_cons, List.not_mem_nil,
      or_false] at hcall'
    rcases hcall' with rfl | rfl | rfl | rfl <;> cases hp'
  have hkept := hclaim _ (World.tokensBelow_init.meets_fresh mapCopyStore) hcaller
  have hbyte :=
    congrFun ((hkept ((mapCopyStore.zipIdx 0).take 3) (.store 0 none (.store 0 [1]), 3) []
    rfl).2 7 ⟨(.mapExtern 0 0 4096 7 true false (MemProt.READ ||| MemProt.WRITE), 1), by
      simp [mapCopyStore],
      by decide⟩) 0
  revert hbyte
  decide

end RapidArm.Mmu
