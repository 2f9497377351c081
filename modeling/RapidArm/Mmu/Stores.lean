import RapidArm.Mmu.World

/-!
# What a store can do

One specification for every guest store, over any description `R` of what lookups
return: if `getPage n` returns only pages with `R n`, then a store writes only
through pages `R` describes, on the page numbers it covers (`StoreOp.pages`), and
only where it has checked the flags (`StoreOp.Allows`).

Results:
* `keeps_storeOp`: the specification above.
* `marksFollow_storeOp`: every store but `strex` marks a page that must be marked,
  after the bytes it wrote there.
-/

namespace RapidArm.Mmu

open RapidArm.Ir RapidArm.Lib

/-! ## The pages and flags of a store -/

/-- The page numbers a store covers. -/
def StoreOp.pages : StoreOp → List PageNumber
  | store vaddr mem | storeForce vaddr mem =>
    if mem.length = 0 then [] else pagesOf vaddr mem.length
  | scalar w vaddr _ | jitInline w vaddr _ | strex w _ _ vaddr _ => pagesOf vaddr w.bytes

/-- The flags a store requires of a page it writes: `store` and `store_force` refuse
    copy-on-write pages, the others only test for `WRITE`. -/
def StoreOp.Allows : StoreOp → Page → Prop
  | store _ _, page =>
    page.flags.containsAny MemFlags.COW = false ∧ page.flags.containsAny MemFlags.WRITE = true
  | storeForce _ _, page => page.flags.containsAny MemFlags.COW = false
  | scalar _ _ _, page | jitInline _ _ _, page | strex _ _ _ _ _, page =>
    page.flags.containsAny MemFlags.WRITE = true

/-- Every write of `effects` goes through a page with `P`. -/
def WritesOnly (P : Page → Prop) (effects : List Effect) : Prop :=
  ∀ page offset byte, Effect.write page offset byte ∈ effects → P page

theorem writesOnly_append {P : Page → Prop} {l l' : List Effect} (h : WritesOnly P l)
    (h' : WritesOnly P l') : WritesOnly P (l ++ l') := by
  intro page offset byte hmem
  rcases List.mem_append.1 hmem with hm | hm
  · exact h page offset byte hm
  · exact h' page offset byte hm

theorem writesOnly_setDirty (P : Page → Prop) (page : Page) : WritesOnly P page.setDirty := by
  intro page' offset byte hmem
  unfold Page.setDirty at hmem
  split_ifs at hmem <;> simp at hmem

theorem writesOnly_writeBytes {P : Page → Prop} {page : Page} (h : P page) (offset : ℕ)
    (data : List (BitVec 8)) : WritesOnly P (writeBytes page offset data) := by
  intro page' offset' byte hmem
  unfold writeBytes at hmem
  obtain ⟨p, -, hp⟩ := List.mem_map.1 hmem
  obtain ⟨rfl, -, -⟩ := Effect.write.inj hp
  exact h

theorem writesOnly_reverse {P : Page → Prop} {l : List Effect} (h : WritesOnly P l) :
    WritesOnly P l.reverse :=
  fun page offset byte hmem => h page offset byte (List.mem_reverse.1 hmem)

theorem writesOnly_crossing {P : Page → Prop} {lo hi : Page} (hlo : P lo) (hhi : P hi)
    (overflow : ℕ) (bytes : List (BitVec 8)) :
    WritesOnly P (crossingWrites lo hi overflow bytes) :=
  writesOnly_append (writesOnly_reverse (writesOnly_writeBytes hhi _ _))
    (writesOnly_reverse (writesOnly_writeBytes hlo _ _))

/-! ## Page numbers -/

theorem pagesOf_scalar_base (w : IntWidth) (vaddr : BitVec 64) :
    PageNumber.fromVaddr vaddr ∈ pagesOf vaddr w.bytes := by
  unfold pagesOf
  rw [List.mem_range'_1]
  constructor
  · exact le_refl _
  · omega

/-- A scalar access that crosses covers the next page. -/
theorem pagesOf_scalar_second {w : IntWidth} {vaddr : BitVec 64} {n : PageNumber}
    (hcross : w.bytes > PAGE_SIZE - pageOffset vaddr)
    (hinc : (PageNumber.fromVaddr vaddr).inc = some n) : n ∈ pagesOf vaddr w.bytes := by
  have hn : n = vaddr.toNat / PAGE_SIZE + 1 := by
    unfold PageNumber.inc at hinc
    split_ifs at hinc
    exact (Option.some.inj hinc).symm
  unfold pagesOf
  rw [List.mem_range'_1]
  simp only [PageNumber.fromVaddr, pageOffset, PAGE_SIZE] at *
  have hdiv : (vaddr.toNat + w.bytes - 1) / 4096 ≥ vaddr.toNat / 4096 + 1 := by
    rw [ge_iff_le, Nat.le_div_iff_mul_le (by decide)]
    omega
  lia

/-- On the page numbers that exist, the sign-extending shift of the inline probe is
    the division of `PageNumber::from_vaddr`. -/
theorem sshiftRight_toNat_of_le {vaddr : BitVec 64}
    (h : (vaddr.sshiftRight 12).toNat ≤ PageNumber.MAX) :
    (vaddr.sshiftRight 12).toNat = PageNumber.fromVaddr vaddr := by
  have hmax : PageNumber.MAX = 2 ^ 52 - 1 := by decide
  rw [hmax] at h
  cases hmsb : vaddr.msb with
  | false =>
    rw [BitVec.sshiftRight_eq_of_msb_false hmsb, BitVec.toNat_ushiftRight,
      Nat.shiftRight_eq_div_pow]
    rfl
  | true =>
    rw [BitVec.sshiftRight_eq_of_msb_true hmsb, BitVec.toNat_not, BitVec.toNat_ushiftRight,
      BitVec.toNat_not, Nat.shiftRight_eq_div_pow] at h
    exfalso
    omega

/-- A hit of the inline probe is a hit of `Tlb::lookup`, in a TLB that holds existing
    page numbers. -/
theorem hit_of_inlineHit {mmu : IoMMU} {tlb : Tlb} {vaddr : BitVec 64} {page : Page}
    (hbound : ∀ i entry, tlb i = some entry → entry.virtualPageNumber ≤ PageNumber.MAX)
    (h : inlineHit mmu tlb vaddr = some page) :
    tlb.hit (PageNumber.fromVaddr vaddr) mmu.identifier = some page := by
  unfold inlineHit at h
  simp only at h
  split at h
  · rename_i entry hentry
    split_ifs at h with hmatch
    have hle : (vaddr.sshiftRight 12).toNat ≤ PageNumber.MAX := by
      rw [← hmatch.2]
      exact hbound _ entry hentry
    have hpage := sshiftRight_toNat_of_le hle
    rw [hpage] at hentry hmatch
    unfold Tlb.hit Tlb.index
    rw [hentry]
    simpa [hmatch.1, hmatch.2] using h
  · cases h

/-! ## Marks -/

/-- A page whose flags require it is marked after each byte written to it. -/
def MarksFollow (effects : List Effect) : Prop :=
  ∀ before page offset byte after, effects = before ++ .write page offset byte :: after →
    page.flags.containsAny MemFlags.MUST_DIRTY = true → .markDirty page.mutableFlags ∈ after

theorem marksFollow_append {l l' : List Effect} (h : MarksFollow l) (h' : MarksFollow l') :
    MarksFollow (l ++ l') := by
  intro before page offset byte after heq hmust
  -- the write is in the first list or in the second one
  rcases List.append_eq_append_iff.1 heq with ⟨mid, hmid, hsuf⟩ | ⟨mid, hmid, hsuf⟩
  · exact h' mid page offset byte after hsuf hmust
  · cases mid with
    | nil =>
      rw [List.append_nil] at hmid
      exact h' [] page offset byte after (by rw [List.nil_append] at hsuf ⊢; exact hsuf.symm) hmust
    | cons e rest =>
      obtain ⟨rfl, rfl⟩ := List.cons.inj hsuf
      exact List.mem_append_left _ (h before page offset byte rest hmid hmust)

/-- Bytes written through pages, and then all these pages marked. -/
theorem marksFollow_of_setDirty {writes marks : List Effect}
    (hwrites : WritesOnly (fun page => ∀ mark ∈ page.setDirty, mark ∈ marks) writes)
    (hmarks : WritesOnly (fun _ => False) marks) : MarksFollow (writes ++ marks) := by
  intro before page offset byte after heq hmust
  rcases List.append_eq_append_iff.1 heq with ⟨mid, -, hsuf⟩ | ⟨mid, hmid, hsuf⟩
  · exact (hmarks page offset byte (by rw [hsuf]; simp)).elim
  · cases mid with
    | nil => exact (hmarks page offset byte (by rw [← List.nil_append marks, ← hsuf]; simp)).elim
    | cons e rest =>
      obtain ⟨rfl, rfl⟩ := List.cons.inj hsuf
      have hmark := hwrites page offset byte (by rw [hmid]; simp)
      refine List.mem_append_right _ (hmark _ ?_)
      unfold Page.setDirty
      rw [if_pos hmust]
      exact List.mem_singleton_self _

/-! ## The specification -/

section Spec

variable {h : Heap} {mmu : IoMMU} {I : Option Tlb → Prop} {R : PageNumber → Page → Prop}

theorem keeps_ensure (vaddr : BitVec 64) (c : Bool) : Keeps I (ensure vaddr c) fun _ =>
  c = true := by
  unfold ensure
  exact Keeps.ite (fun hc => Keeps.pure hc) fun _ => Keeps.throw

theorem keeps_verifyPages (hget : ∀ n, Keeps I (getPage h mmu n) (R n)) (verify : Page → Bool)
    (ns : List PageNumber) :
    Keeps I (verifyPages h mmu verify ns) fun _ =>
      ∀ n ∈ ns, ∃ page, R n page ∧ verify page = true := by
  induction ns with
  | nil => exact Keeps.pure (by simp)
  | cons n ns ih =>
    refine (hget n).bind fun page hpage => (keeps_ensure _ _).bind fun _ hverify => ?_
    refine ih.mono fun _ hrest k hk => ?_
    rcases List.mem_cons.1 hk with rfl | hk
    · exact ⟨page, hpage, hverify⟩
    · exact hrest k hk

theorem keeps_getPageOrAbort (hget : ∀ n, Keeps I (getPage h mmu n) (R n)) (n : PageNumber) :
    Keeps I (getPageOrAbort h mmu n) (R n) := by
  intro cache hI
  obtain ⟨hI', hR⟩ := hget n cache hI
  show I (getPageOrAbort h mmu n cache).2 ∧
    ∀ a, (getPageOrAbort h mmu n cache).1 = .ok a → R n a
  change I (getPage h mmu n cache).2 at hI'
  change ∀ a, (getPage h mmu n cache).1 = .ok a → R n a at hR
  unfold getPageOrAbort
  rcases hrun : getPage h mmu n cache with ⟨(e | page), cache'⟩
  · rw [hrun] at hI'
    exact ⟨hI', fun a ha => by cases ha⟩
  · rw [hrun] at hI' hR
    exact ⟨hI', fun a ha => hR a ha⟩

theorem keeps_accessPages {α : Type} (hget : ∀ n, Keeps I (getPage h mmu n) (R n))
    (access : PageNumber → Page → List α) (ns : List PageNumber) :
    Keeps I (accessPages h mmu access ns) fun out =>
      ∀ x ∈ out, ∃ n ∈ ns, ∃ page, R n page ∧ x ∈ access n page := by
  induction ns with
  | nil => exact Keeps.pure (by simp)
  | cons n ns ih =>
    refine (keeps_getPageOrAbort hget n).bind fun page hpage => ih.bind fun later hlater => ?_
    refine Keeps.pure fun x hx => ?_
    rcases List.mem_append.1 hx with hx | hx
    · exact ⟨n, by simp, page, hpage, hx⟩
    · obtain ⟨k, hk, page', hpage', hx'⟩ := hlater x hx
      exact ⟨k, List.mem_cons_of_mem _ hk, page', hpage', hx'⟩

/-- A bulk access yields what `access` yields on pages of its range that a lookup
    before has verified. -/
theorem keeps_memAccess {α : Type} (hget : ∀ n, Keeps I (getPage h mmu n) (R n))
    (vaddr : BitVec 64) (len : ℕ) (requiredProt : Option MemProt) (noCow : Bool)
    (access : PageNumber → Page → List α) :
    Keeps I (memAccess h mmu vaddr len requiredProt noCow access) fun out =>
      ∀ x ∈ out, len ≠ 0 ∧ ∃ n ∈ pagesOf vaddr len, ∃ page page', R n page ∧ x ∈ access n page ∧
        R n page' ∧ (noCow = true → page'.flags.containsAny MemFlags.COW = false) ∧
        ∀ required, requiredProt = some required →
          page'.flags.containsAny (MemFlags.fromProt required) = true := by
  unfold memAccess
  refine Keeps.ite (fun _ => Keeps.throw) fun _ => Keeps.ite (fun _ => Keeps.pure (by simp))
    fun hlen => Keeps.ite (fun _ => Keeps.throw) fun _ => ?_
  refine (keeps_verifyPages hget _ _).bind fun _ hverified => ?_
  refine (keeps_accessPages hget _ _).mono fun out hout x hx => ?_
  obtain ⟨n, hn, page, hpage, hmem⟩ := hout x hx
  obtain ⟨page', hpage', hverify⟩ := hverified n (List.mem_reverse.2 hn)
  simp only [Bool.and_eq_true, Bool.not_eq_true'] at hverify
  refine ⟨hlen, n, hn, page, page', hpage, hmem, hpage', ?_, ?_⟩
  · intro hcow
    simpa [hcow] using hverify.1
  · rintro required rfl
    exact hverify.2

/-- What a page written by a store satisfies: a lookup returned it for a covered page
    number, and a lookup of this number (the same one, for a scalar store) returned a
    page whose flags were checked. -/
def StoreOp.Covers (R : PageNumber → Page → Prop) (op : StoreOp) (page : Page) : Prop :=
  ∃ n ∈ op.pages, R n page ∧ ∃ page', R n page' ∧ op.Allows page'

theorem keeps_innerStore (hget : ∀ n, Keeps I (getPage h mmu n) (R n)) (vaddr : BitVec 64)
    (mem : List (BitVec 8)) (requiredProt : Option MemProt) :
    Keeps I (innerStoreWithProt h mmu vaddr mem requiredProt) (WritesOnly fun page =>
      mem.length ≠ 0 ∧ ∃ n ∈ pagesOf vaddr mem.length, R n page ∧ ∃ page', R n page' ∧
        page'.flags.containsAny MemFlags.COW = false ∧
        ∀ required, requiredProt = some required →
          page'.flags.containsAny (MemFlags.fromProt required) = true) := by
  unfold innerStoreWithProt
  refine (keeps_memAccess hget vaddr mem.length requiredProt true _).mono
    fun out hout page offset byte hmem => ?_
  obtain ⟨hlen, n, hn, page₀, page', hpage, hx, hpage', hcow, hprot⟩ := hout _ hmem
  -- the write is one of those of the page that was looked up
  obtain rfl : page₀ = page :=
    writesOnly_append (P := Eq page₀) (writesOnly_writeBytes rfl _ _) (writesOnly_setDirty _ _)
      page offset byte hx
  exact ⟨hlen, n, hn, hpage, page', hpage', hcow rfl, hprot⟩

theorem keeps_resolve (hget : ∀ n, Keeps I (getPage h mmu n) (R n)) (size : ℕ)
    (vaddr : BitVec 64) :
    Keeps I (resolveAlignedScalarAccess h mmu size vaddr) fun r =>
      R (PageNumber.fromVaddr vaddr) r.1 := by
  unfold resolveAlignedScalarAccess
  refine (keeps_ensure _ _).bind fun _ _ => (hget _).bind fun page hpage => ?_
  exact Keeps.pure hpage

theorem keeps_smallAccess (hget : ∀ n, Keeps I (getPage h mmu n) (R n)) (w : IntWidth)
    (vaddr : BitVec 64) :
    Keeps I (staticSmallMultibyteAccess h mmu w.bytes vaddr) fun access =>
      R (PageNumber.fromVaddr vaddr) access.basePage ∧
        ∀ second overflow, access.secondPage = some (second, overflow) →
          ∃ n ∈ pagesOf vaddr w.bytes, R n second := by
  unfold staticSmallMultibyteAccess
  refine (hget _).bind fun base hbase => Keeps.ite (fun hcross => ?_) fun _ => ?_
  · cases hinc : (PageNumber.fromVaddr vaddr).inc with
    | none => exact Keeps.throw
    | some n =>
      refine (hget n).bind fun second hsecond => Keeps.pure ⟨hbase, ?_⟩
      intro second' overflow heq
      obtain ⟨rfl, -⟩ := Prod.mk.inj (Option.some.inj heq)
      exact ⟨n, pagesOf_scalar_second hcross hinc, hsecond⟩
  · refine Keeps.pure ⟨hbase, ?_⟩
    intro second overflow heq
    cases heq

theorem keeps_scalarStore (hget : ∀ n, Keeps I (getPage h mmu n) (R n)) {w : IntWidth}
    (vaddr : BitVec 64) (value : BitVec w.bits) :
    Keeps I (scalarStore h mmu vaddr value)
      (WritesOnly (StoreOp.Covers R (.scalar w vaddr value))) := by
  have hle : ∀ (w : IntWidth) (value : BitVec w.bits), Keeps I (storeLe h mmu vaddr value)
      (WritesOnly (StoreOp.Covers R (.scalar w vaddr value))) := by
    intro w value
    unfold storeLe
    refine (keeps_smallAccess hget w vaddr).bind fun access haccess => ?_
    rcases hsecond : access.secondPage with _ | ⟨second, overflow⟩
    · refine (keeps_ensure _ _).bind fun _ hwrite => Keeps.pure ?_
      exact writesOnly_append
        (writesOnly_writeBytes
          ⟨_, pagesOf_scalar_base w vaddr, haccess.1, _, haccess.1, hwrite⟩ _ _)
        (writesOnly_setDirty _ _)
    · refine (keeps_ensure _ _).bind fun _ hlo => (keeps_ensure _ _).bind fun _ hhi => ?_
      refine Keeps.pure (writesOnly_append (writesOnly_crossing ?_ ?_ _ _) ?_)
      · exact ⟨_, pagesOf_scalar_base w vaddr, haccess.1, _, haccess.1, hlo⟩
      · obtain ⟨n, hn, hR⟩ := haccess.2 second overflow hsecond
        exact ⟨n, hn, hR, _, hR, hhi⟩
      · exact writesOnly_append (writesOnly_setDirty _ _) (writesOnly_setDirty _ _)
  cases w with
  | w8 =>
    refine (keeps_resolve hget 1 vaddr).bind fun r hr => (keeps_ensure _ _).bind fun _ hwrite => ?_
    refine Keeps.pure fun page offset byte hmem => ?_
    rcases List.mem_cons.1 hmem with heq | hmem
    · obtain ⟨rfl, -, -⟩ := Effect.write.inj heq
      exact ⟨_, pagesOf_scalar_base .w8 vaddr, hr, _, hr, hwrite⟩
    · exact writesOnly_setDirty _ _ page offset byte hmem
  | w16 => exact hle .w16 value
  | w32 => exact hle .w32 value
  | w64 => exact hle .w64 value

theorem keeps_inlineStore (hget : ∀ n, Keeps I (getPage h mmu n) (R n)) {w : IntWidth}
    (vaddr : BitVec 64) (value : BitVec w.bits)
    (hhit : ∀ tlb page, I (some tlb) → inlineHit mmu tlb vaddr = some page →
      R (PageNumber.fromVaddr vaddr) page) :
    Keeps I (inlineStore h mmu vaddr value)
      (WritesOnly (StoreOp.Covers R (.jitInline w vaddr value))) := by
  intro cache hI
  have hscalar := keeps_scalarStore hget vaddr value cache hI
  show I (inlineStore h mmu vaddr value cache).2 ∧
    ∀ a, (inlineStore h mmu vaddr value cache).1 = .ok a → _
  change I (scalarStore h mmu vaddr value cache).2 ∧
    ∀ a, (scalarStore h mmu vaddr value cache).1 = .ok a → _ at hscalar
  unfold inlineStore
  cases hprobe : cache.bind fun tlb => inlineHit mmu tlb vaddr with
  | none => exact hscalar
  | some page =>
    obtain ⟨tlb, rfl, hpage⟩ := Option.bind_eq_some_iff.1 hprobe
    simp only
    split_ifs with haligned hwrite
    · refine ⟨hI, fun effects heq => ?_⟩
      obtain rfl := Except.ok.inj heq
      have hR := hhit tlb page hI hpage
      exact writesOnly_append (writesOnly_writeBytes
        ⟨_, pagesOf_scalar_base w vaddr, hR, _, hR, hwrite⟩ _ _) (writesOnly_setDirty _ _)
    · exact ⟨hI, fun effects heq => by cases heq⟩
    · exact hscalar

theorem keeps_strex (hget : ∀ n, Keeps I (getPage h mmu n) (R n)) {w : IntWidth}
    (reservation : Option Reservation) (intact : Bool) (vaddr : BitVec 64)
    (value : BitVec w.bits) :
    Keeps I (strex h mmu reservation intact vaddr value) fun r =>
      WritesOnly (StoreOp.Covers R (.strex w reservation intact vaddr value)) r.2 := by
  have hnone : WritesOnly (StoreOp.Covers R (.strex w reservation intact vaddr value)) [] :=
    fun _ _ _ hmem => by cases hmem
  unfold strex
  cases hres : reservation with
  | none => exact Keeps.pure (hres ▸ hnone)
  | some r =>
    refine Keeps.ite (fun _ => Keeps.pure (hres ▸ hnone)) fun _ => ?_
    refine (keeps_resolve hget w.bytes vaddr).bind fun r' hr => ?_
    refine (keeps_ensure _ _).bind fun _ hwrite => ?_
    refine Keeps.ite (fun _ => ?_) fun _ => Keeps.pure (hres ▸ hnone)
    exact Keeps.pure (writesOnly_writeBytes
      ⟨_, pagesOf_scalar_base w vaddr, hr, _, hr, hwrite⟩ _ _)

/-- Every store writes only through pages that its lookups returned, on the page
    numbers it covers and with the flags it checks. -/
theorem keeps_storeOp (hget : ∀ n, Keeps I (getPage h mmu n) (R n))
    (hhit : ∀ tlb vaddr page, I (some tlb) → inlineHit mmu tlb vaddr = some page →
      R (PageNumber.fromVaddr vaddr) page) (op : StoreOp) :
    Keeps I (op.run h mmu) (WritesOnly (op.Covers R)) := by
  cases op with
  | store vaddr mem =>
    show Keeps I (innerStoreWithProt h mmu vaddr mem (some MemProt.WRITE)) _
    refine (keeps_innerStore hget vaddr mem _).mono
      fun effects heff page offset byte hmem => ?_
    obtain ⟨hlen, n, hn, hR, page', hR', hcow, hprot⟩ := heff page offset byte hmem
    refine ⟨n, ?_, hR, page', hR', hcow, hprot _ rfl⟩
    rw [StoreOp.pages, if_neg hlen]
    exact hn
  | storeForce vaddr mem =>
    show Keeps I (innerStoreWithProt h mmu vaddr mem none) _
    refine (keeps_innerStore hget vaddr mem _).mono
      fun effects heff page offset byte hmem => ?_
    obtain ⟨hlen, n, hn, hR, page', hR', hcow, -⟩ := heff page offset byte hmem
    refine ⟨n, ?_, hR, page', hR', hcow⟩
    rw [StoreOp.pages, if_neg hlen]
    exact hn
  | scalar w vaddr value => exact keeps_scalarStore hget vaddr value
  | jitInline w vaddr value =>
    exact keeps_inlineStore hget vaddr value fun tlb page hI => hhit tlb vaddr page hI
  | strex w reservation intact vaddr value =>
    refine (keeps_strex hget reservation intact vaddr value).bind fun r hr => ?_
    exact Keeps.pure hr

/-! ### Loads -/

theorem keeps_load (hget : ∀ n, Keeps I (getPage h mmu n) (R n)) (vaddr : BitVec 64) (len : ℕ)
    (requiredProt : Option MemProt) : Keeps I (load h mmu vaddr len requiredProt) fun _ => True :=
  (keeps_memAccess hget vaddr len requiredProt false _).mono fun _ _ => trivial

theorem keeps_scalarLoad (hget : ∀ n, Keeps I (getPage h mmu n) (R n)) (w : IntWidth)
    (vaddr : BitVec 64) : Keeps I (scalarLoad h mmu w vaddr) fun _ => True := by
  have hle : ∀ w : IntWidth, Keeps I (loadLe h mmu w vaddr) fun _ => True := by
    intro w
    unfold loadLe
    refine (keeps_smallAccess hget w vaddr).bind fun access _ => ?_
    rcases access.secondPage with _ | ⟨second, overflow⟩
    · exact (keeps_ensure _ _).bind fun _ _ => Keeps.pure trivial
    · exact (keeps_ensure _ _).bind fun _ _ => (keeps_ensure _ _).bind fun _ _ =>
        Keeps.pure trivial
  cases w with
  | w8 =>
    exact (keeps_resolve hget 1 vaddr).bind fun _ _ => (keeps_ensure _ _).bind fun _ _ =>
      Keeps.pure trivial
  | w16 => exact hle .w16
  | w32 => exact hle .w32
  | w64 => exact hle .w64

/-! ### Marks of a store -/

theorem marksFollow_page (page : Page) (offset : ℕ) (data : List (BitVec 8)) :
    MarksFollow (writeBytes page offset data ++ page.setDirty) :=
  marksFollow_of_setDirty (writesOnly_writeBytes (fun _ hm => hm) _ _) (writesOnly_setDirty _ _)

theorem marksFollow_accessPages (access : PageNumber → Page → List Effect)
    (haccess : ∀ n page, MarksFollow (access n page)) (ns : List PageNumber) :
    Keeps (fun _ => True) (accessPages h mmu access ns) MarksFollow := by
  induction ns with
  | nil => exact Keeps.pure (by intro before _ _ _ _ heq; simp at heq)
  | cons n ns ih =>
    have hget : Keeps (fun _ => True) (getPageOrAbort h mmu n) fun _ => True :=
      fun _ _ => ⟨trivial, fun _ _ => trivial⟩
    refine hget.bind fun page _ => ih.bind fun later hlater => ?_
    exact Keeps.pure (marksFollow_append (haccess n page) hlater)

theorem marksFollow_innerStore (vaddr : BitVec 64) (mem : List (BitVec 8))
    (requiredProt : Option MemProt) :
    Keeps (fun _ => True) (innerStoreWithProt h mmu vaddr mem requiredProt) MarksFollow := by
  have hverify : ∀ verify ns, Keeps (fun _ => True) (verifyPages h mmu verify ns) fun _ => True :=
    fun _ _ _ _ => ⟨trivial, fun _ _ => trivial⟩
  unfold innerStoreWithProt memAccess
  refine Keeps.ite (fun _ => Keeps.throw) fun _ => Keeps.ite (fun _ => Keeps.pure ?_)
    fun _ => Keeps.ite (fun _ => Keeps.throw) fun _ => (hverify _ _).bind fun _ _ => ?_
  · intro before _ _ _ _ heq
    simp at heq
  · exact marksFollow_accessPages _ (fun n page => marksFollow_page page _ _) _

theorem marksFollow_scalarStore {w : IntWidth} (vaddr : BitVec 64) (value : BitVec w.bits) :
    Keeps (fun _ => True) (scalarStore h mmu vaddr value) MarksFollow := by
  have hle : ∀ (w : IntWidth) (value : BitVec w.bits),
      Keeps (fun _ => True) (storeLe h mmu vaddr value) MarksFollow := by
    intro w value
    have hsmall : Keeps (fun _ => True) (staticSmallMultibyteAccess h mmu w.bytes vaddr)
        fun _ => True := fun _ _ => ⟨trivial, fun _ _ => trivial⟩
    unfold storeLe
    refine hsmall.bind fun access _ => ?_
    rcases access.secondPage with _ | ⟨second, overflow⟩
    · refine (keeps_ensure _ _).bind fun _ _ => Keeps.pure ?_
      exact marksFollow_page _ _ _
    · refine (keeps_ensure _ _).bind fun _ _ => (keeps_ensure _ _).bind fun _ _ => Keeps.pure ?_
      refine marksFollow_of_setDirty (writesOnly_crossing ?_ ?_ _ _) ?_
      · exact fun _ hm => List.mem_append_left _ hm
      · exact fun _ hm => List.mem_append_right _ hm
      · exact writesOnly_append (writesOnly_setDirty _ _) (writesOnly_setDirty _ _)
  cases w with
  | w8 =>
    have hresolve : Keeps (fun _ => True) (resolveAlignedScalarAccess h mmu 1 vaddr)
        fun _ => True := fun _ _ => ⟨trivial, fun _ _ => trivial⟩
    refine hresolve.bind fun r _ => (keeps_ensure _ _).bind fun _ _ => Keeps.pure ?_
    exact marksFollow_page r.1 r.2 [value]
  | w16 => exact hle .w16 value
  | w32 => exact hle .w32 value
  | w64 => exact hle .w64 value

/-- Whether a store is an exclusive one. -/
def StoreOp.isStrex : StoreOp → Bool
  | strex .. => true
  | _ => false

/-- Every store but an exclusive one marks the pages it must, after the bytes. -/
theorem marksFollow_storeOp {op : StoreOp} (hop : op.isStrex = false) :
    Keeps (fun _ => True) (op.run h mmu) MarksFollow := by
  cases op with
  | store vaddr mem =>
    show Keeps _ (innerStoreWithProt h mmu vaddr mem (some MemProt.WRITE)) _
    exact marksFollow_innerStore vaddr mem _
  | storeForce vaddr mem =>
    show Keeps _ (innerStoreWithProt h mmu vaddr mem none) _
    exact marksFollow_innerStore vaddr mem _
  | scalar w vaddr value => exact marksFollow_scalarStore vaddr value
  | jitInline w vaddr value =>
    intro cache _
    refine ⟨trivial, fun effects heq => ?_⟩
    have hscalar : (scalarStore h mmu vaddr value cache).1 = .ok effects → MarksFollow effects :=
      (marksFollow_scalarStore vaddr value cache trivial).2 effects
    change (inlineStore h mmu vaddr value cache).1 = .ok effects at heq
    unfold inlineStore at heq
    cases hprobe : cache.bind fun tlb => inlineHit mmu tlb vaddr with
    | none =>
      rw [hprobe] at heq
      exact hscalar heq
    | some page =>
      rw [hprobe] at heq
      simp only at heq
      split_ifs at heq
      · obtain rfl := Except.ok.inj heq
        exact marksFollow_page _ _ _
      · exact hscalar heq
  | strex => cases hop

end Spec

end RapidArm.Mmu
