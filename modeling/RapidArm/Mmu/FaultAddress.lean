import RapidArm.Mmu.Scalar

/-!
# Reported fault addresses

The addresses of the faults with which guest accesses fail. They come from four places:
a lookup that finds no page reports the base of this page (`PageTable::get_page`,
`io-mmu/src/page_table.rs`, lines 806–811), and so does the verify pass of a bulk access
for a page that does not pass, which goes through the pages from the last to the first
(`LookupCacheExt::access`, `io-mmu/src/lookup_cache.rs`, lines 118–131); scalar accesses
report their own address for their first page and the base of the second one if they
cross into it (`io-mmu/src/lib.rs`, lines 839–1214); an access that must be aligned
reports its own address.

The base of the first page is an address before the access, unless the access starts
there.

Results:
* `reports_inside_iff`: with a cache whose hits on the pages of the access are what the
  table returns, a failing access reports an address inside it, on a page that it may not
  access or its own if it is misaligned, if and only if it starts at a page boundary, or its
  first page is found (scalar), or a later page is at fault too (bulk).
* `loadByte_reports_before`: a byte load that reports an address 4095 bytes before it.
-/

namespace RapidArm.Mmu

open RapidArm.Ir RapidArm.Lib

/-! ## Guest accesses -/

/-- `resolve_addr_exclusive` (`jit-compiler-core/src/ir/ffi_support.rs`, lines 86–102). -/
def resolveAddrExclusive (h : Heap) (mmu : IoMMU) (size : ℕ) (vaddr : BitVec 64) (prot : MemProt) :
    Access (Page × ℕ) := do
  let (page, offset) ← resolveAlignedScalarAccess h mmu size vaddr
  ensure vaddr (page.flags.containsAny (MemFlags.fromProt prot))
  return (page, offset)

/-- `ldrexb`, `ldrexh`, `ldrex` and `ldrexd`: the loaded value. -/
def ldrex (h : Heap) (mmu : IoMMU) (w : IntWidth) (vaddr : BitVec 64) : Access (BitVec w.bits) := do
  let (page, offset) ← resolveAddrExclusive h mmu w.bytes vaddr MemProt.READ
  return loadLeAt w (h.mem page.ptr) offset

/-- An access of the guest: `load` and `store` or their forced forms, the scalar loads and
    stores, `fetch_aarch64`, and the exclusive callbacks. -/
inductive GuestAccess
  | load (vaddr : BitVec 64) (len : ℕ) (force : Bool)
  | store (vaddr : BitVec 64) (mem : List (BitVec 8)) (force : Bool)
  | scalarLoad (w : IntWidth) (vaddr : BitVec 64)
  | scalarStore (w : IntWidth) (vaddr : BitVec 64) (value : BitVec w.bits)
  | fetchAarch64 (vaddr : BitVec 64)
  | ldrex (w : IntWidth) (vaddr : BitVec 64)
  | strex (w : IntWidth) (reservation : Option Reservation) (intact : Bool) (vaddr : BitVec 64)
      (value : BitVec w.bits)

/-- How the access ends. -/
def GuestAccess.run (a : GuestAccess) (h : Heap) (mmu : IoMMU) : Access Unit :=
  match a with
  | load vaddr len force => do let _ ← Mmu.load h mmu vaddr len (requiredProt force MemProt.READ)
  | store vaddr mem true => do let _ ← Mmu.storeForce h mmu vaddr mem
  | store vaddr mem false => do let _ ← Mmu.store h mmu vaddr mem
  | scalarLoad w vaddr => do let _ ← Mmu.scalarLoad h mmu w vaddr
  | scalarStore _ vaddr value => do let _ ← Mmu.scalarStore h mmu vaddr value
  | fetchAarch64 vaddr => do let _ ← Mmu.fetchAarch64 h mmu vaddr
  | ldrex w vaddr => do let _ ← Mmu.ldrex h mmu w vaddr
  | strex _ reservation intact vaddr value => do
    let _ ← Mmu.strex h mmu reservation intact vaddr value

/-- What an access touches and requires: `noCow` if no page may be copy-on-write, and
    `alignment` is 1 where any address will do. -/
structure Footprint where
  vaddr : BitVec 64
  len : ℕ
  required : Option MemProt
  noCow : Bool
  alignment : ℕ
  bulk : Bool

/-- The footprint of a scalar access of `len` bytes. -/
def Footprint.scalar (vaddr : BitVec 64) (len alignment : ℕ) (prot : MemProt) : Footprint :=
  ⟨vaddr, len, some prot, false, alignment, false⟩

/-- The footprint of an access. -/
def GuestAccess.footprint : GuestAccess → Footprint
  | load vaddr len force => ⟨vaddr, len, requiredProt force MemProt.READ, false, 1, true⟩
  | store vaddr mem force => ⟨vaddr, mem.length, requiredProt force MemProt.WRITE, true, 1, true⟩
  | scalarLoad w vaddr => .scalar vaddr w.bytes 1 MemProt.READ
  | scalarStore w vaddr _ => .scalar vaddr w.bytes 1 MemProt.WRITE
  | fetchAarch64 vaddr => .scalar vaddr 4 4 MemProt.EXECUTE
  | ldrex w vaddr => .scalar vaddr w.bytes w.bytes MemProt.READ
  | strex w _ _ vaddr _ => .scalar vaddr w.bytes w.bytes MemProt.WRITE

namespace Footprint

variable (h : Heap) (t : PageTable) (p : Footprint)

/-- A fault of the access has an address in it, and there is a reason there: a page that
    is unmapped, not resident or lacks the permission (for a bulk store, copy-on-write),
    or the alignment. -/
structure Locates (f : MemoryFault) : Prop where
  inside : p.vaddr.toNat ≤ f.vaddr.toNat ∧ f.vaddr.toNat < p.vaddr.toNat + p.len
  cause : ¬ t.Accessible h p.required p.noCow (PageNumber.fromVaddr f.vaddr) ∨
    p.vaddr.toNat % p.alignment ≠ 0 ∧ f.vaddr = p.vaddr

/-- The pages of the bytes of the access. -/
def pages : Set PageNumber := {n | ∃ i < p.len, bytePage p.vaddr i = n}

/-- The base of the first page is not reported, or is inside: the access starts there; or,
    for a bulk access, a page after the first one cannot be accessed; or, for a scalar one,
    the address is misaligned or the first page is mapped and resident. -/
def ReportsInside : Prop :=
  pageOffset p.vaddr = 0 ∨
    if p.bulk then
      ∃ i < p.len, bytePage p.vaddr i ≠ PageNumber.fromVaddr p.vaddr ∧
        ¬ t.Accessible h p.required p.noCow (bytePage p.vaddr i)
    else p.vaddr.toNat % p.alignment ≠ 0 ∨
      t.Accessible h none false (PageNumber.fromVaddr p.vaddr)

/-- The failure is a fault, and its address is as it should be if and only if the condition
    holds. -/
def Reports (e : Failure) : Prop :=
  ∃ f, e = .fault f ∧ (p.Locates h t f ↔ p.ReportsInside h t)

end Footprint

/-! ## Addresses of pages -/

theorem vaddrBase_arith {a i : ℕ} (hi : a + i < 2 ^ 64) :
    (a + i) / 4096 * 4096 % 2 ^ 64 / 4096 = (a + i) / 4096 ∧
      (a + i) / 4096 * 4096 % 2 ^ 64 ≤ a + i := by
  omega

theorem vaddrBase_later {a i : ℕ} (hi : a + i < 2 ^ 64)
    (hne : (a + i) / 4096 ≠ a / 4096 ∨ a % 4096 = 0) :
    a ≤ (a + i) / 4096 * 4096 % 2 ^ 64 := by
  omega

theorem vaddrBase_first {a : ℕ} (ha : a < 2 ^ 64) (ho : a % 4096 ≠ 0) :
    a / 4096 * 4096 % 2 ^ 64 < a := by
  omega

theorem toNat_vaddrBase (n : PageNumber) : n.vaddrBase.toNat = n * 4096 % 2 ^ 64 :=
  BitVec.toNat_ofNat _ _

variable {h : Heap} {mmu : IoMMU} {t : PageTable}

namespace Footprint

variable {p : Footprint}

/-- The base of a page of the access that it may not access. -/
theorem locates_base (hend : p.vaddr.toNat + p.len ≤ 2 ^ 64) {i : ℕ} (hi : i < p.len)
    (hne : bytePage p.vaddr i ≠ PageNumber.fromVaddr p.vaddr ∨ pageOffset p.vaddr = 0)
    (ha : ¬ t.Accessible h p.required p.noCow (bytePage p.vaddr i)) :
    p.Locates h t (.generalProtection (bytePage p.vaddr i).vaddrBase) := by
  have hlt : p.vaddr.toNat + i < 2 ^ 64 := by omega
  obtain ⟨hdiv, hle⟩ := vaddrBase_arith hlt
  have hge := vaddrBase_later hlt hne
  constructor
  · show p.vaddr.toNat ≤ (bytePage p.vaddr i).vaddrBase.toNat ∧
        (bytePage p.vaddr i).vaddrBase.toNat < _
    rw [toNat_vaddrBase]
    exact ⟨hge, lt_of_le_of_lt hle (by omega)⟩
  · refine .inl ?_
    show ¬ t.Accessible h p.required p.noCow ((bytePage p.vaddr i).vaddrBase.toNat / 4096)
    rw [toNat_vaddrBase]
    show ¬ t.Accessible h p.required p.noCow ((p.vaddr.toNat + i) / 4096 * 4096 % 2 ^ 64 / 4096)
    rw [hdiv]
    exact ha

/-- The base of the first page, where the access does not start there. -/
theorem not_locates_base (ho : pageOffset p.vaddr ≠ 0) :
    ¬ p.Locates h t (.generalProtection (PageNumber.fromVaddr p.vaddr).vaddrBase) := by
  intro hl
  have hle : p.vaddr.toNat ≤ (PageNumber.fromVaddr p.vaddr).vaddrBase.toNat := hl.inside.1
  rw [toNat_vaddrBase] at hle
  exact absurd (vaddrBase_first p.vaddr.isLt ho) (not_lt.2 hle)

/-- The address of the access itself. -/
theorem locates_vaddr (hlen : 0 < p.len)
    (hcause : ¬ t.Accessible h p.required p.noCow (PageNumber.fromVaddr p.vaddr) ∨
      p.vaddr.toNat % p.alignment ≠ 0) :
    p.Locates h t (.generalProtection p.vaddr) := by
  constructor
  · exact ⟨le_refl _, Nat.lt_add_of_pos_right hlen⟩
  · rcases hcause with ha | hmis
    · exact .inl ha
    · exact .inr ⟨hmis, rfl⟩

end Footprint

/-! ## Lookups -/

/-- The hits of a cache on the pages of an access are what the table returns. -/
abbrev Footprint.Cached (p : Footprint) (h : Heap) (mmu : IoMMU) : Option Tlb → Prop :=
  HitsAgree (· = ·) p.pages h mmu

/-- A lookup of a page of the access returns the page of the table, or faults at its base if
    there is none. -/
theorem Footprint.ends_getPage {p : Footprint} {n : PageNumber} (hn : n ∈ p.pages) :
    Ends (p.Cached h mmu) (getPage h mmu n) (fun page => mmu.table.getPage h n = .ok page)
      fun e => (∀ page, mmu.table.getPage h n ≠ .ok page) ∧
        e = .fault (.generalProtection n.vaddrBase) := by
  refine (Mmu.ends_getPage hn).mono ?_ ?_
  · rintro page ⟨page', hp, rfl⟩
    exact hp
  · rintro e ⟨f, hp, rfl⟩
    obtain rfl := getPage_error hp
    refine ⟨fun page hpage => ?_, rfl⟩
    rw [hp] at hpage
    cases hpage

/-- A page of the table can be accessed without any permission. -/
theorem accessible_none {n : PageNumber} :
    t.Accessible h none false n ↔ ∃ page, t.getPage h n = .ok page := by
  rw [accessible_iff]
  simp [verifyAccess]

/-! ## Bulk accesses -/

/-- The pages that come before `n` in the verify pass are those after it. -/
theorem mem_earlier {s count n k : ℕ} {earlier later : List ℕ}
    (hsplit : (List.range' s count).reverse = earlier ++ n :: later) (hk : k ∈ List.range' s count)
    (hlt : n < k) : k ∈ earlier := by
  have hmem : k ∈ earlier ++ n :: later := hsplit ▸ List.mem_reverse.2 hk
  have hsorted : (earlier ++ n :: later).Pairwise (· > ·) := by
    rw [← hsplit, List.pairwise_reverse]
    exact List.pairwise_lt_range'
  rcases List.mem_append.1 hmem with hmem | hmem
  · exact hmem
  · rcases List.mem_cons.1 hmem with rfl | hmem
    · omega
    · have := List.rel_of_pairwise_cons (List.pairwise_append.1 hsorted).2.1 hmem
      omega

/-- A bulk access, if no page is ruled out by the checks before the verify pass. -/
theorem reports_memAccess {α : Type} (access : PageNumber → Page → List α)
    {vaddr : BitVec 64} {len : ℕ} (requiredProt : Option MemProt) (noCow : Bool) (hlen : 0 < len)
    (hsize : len < 2 ^ 64) (hend : vaddr.toNat + len ≤ 2 ^ 64) :
    Ends (Footprint.Cached ⟨vaddr, len, requiredProt, noCow, 1, true⟩ h mmu)
      (memAccess h mmu vaddr len requiredProt noCow access) (fun _ => True)
      (Footprint.Reports h mmu.table ⟨vaddr, len, requiredProt, noCow, 1, true⟩) := by
  unfold memAccess
  rw [if_neg (by omega), if_neg (by omega), if_neg (by omega)]
  have hmem : ∀ n ∈ pagesOf vaddr len,
      n ∈ (⟨vaddr, len, requiredProt, noCow, 1, true⟩ : Footprint).pages :=
    fun n hn => (mem_pagesOf vaddr hlen).1 hn
  refine ((ends_verifyPages (fun page page' heq => by rw [heq])
    fun n hn => hmem n (List.mem_reverse.1 hn)).mono (fun _ h => h) ?_).bind fun _ hall => ?_
  · rintro e ⟨earlier, n, later, hsplit, hearlier, hn, rfl⟩
    refine ⟨_, rfl, ?_⟩
    have hmem : n ∈ pagesOf vaddr len := by
      rw [← List.mem_reverse, hsplit]
      exact List.mem_append_right _ List.mem_cons_self
    obtain ⟨i, hi, rfl⟩ := (mem_pagesOf vaddr hlen).1 hmem
    by_cases hfirst : bytePage vaddr i ≠ PageNumber.fromVaddr vaddr ∨ pageOffset vaddr = 0
    · refine iff_of_true (Footprint.locates_base hend hi hfirst hn) ?_
      rcases hfirst with hne | ho
      · exact .inr ⟨i, hi, hne, hn⟩
      · exact .inl ho
    · -- the first page is at fault, and all later ones passed
      rw [not_or, not_not] at hfirst
      obtain ⟨hpage, ho⟩ := hfirst
      rw [hpage] at hsplit ⊢
      refine iff_of_false (Footprint.not_locates_base ho) ?_
      rintro (ho' | ⟨j, hj, hne, ha⟩)
      · exact ho ho'
      · refine ha (hearlier _ (mem_earlier hsplit ((mem_pagesOf vaddr hlen).2 ⟨j, hj, rfl⟩) ?_))
        exact lt_of_le_of_ne (Nat.div_le_div_right (Nat.le_add_right _ _)) (Ne.symm hne)
  · exact (ends_accessPages access hmem List.nodup_range' fun n hn =>
      (hall n (List.mem_reverse.2 hn)).found).mono (fun _ _ => trivial) fun _ hfalse => hfalse.elim

/-! ## Scalar accesses -/

section Scalar

variable {vaddr : BitVec 64} {len alignment : ℕ} {prot : MemProt}

theorem Footprint.first_mem (hlen : 0 < len) :
    PageNumber.fromVaddr vaddr ∈ (Footprint.scalar vaddr len alignment prot).pages :=
  ⟨0, hlen, rfl⟩

theorem Footprint.second_mem {w : IntWidth} (hcross : Crosses w vaddr) :
    PageNumber.fromVaddr vaddr + 1 ∈ (Footprint.scalar vaddr w.bytes alignment prot).pages :=
  ⟨_, hcross, (bytePage_second vaddr (le_refl _) hcross).1⟩

/-- The first page is not found. -/
theorem reports_notFound (hlen : 0 < len) (hend : vaddr.toNat + len ≤ 2 ^ 64)
    (hal : vaddr.toNat % alignment = 0)
    (hnone : ∀ page, mmu.table.getPage h (PageNumber.fromVaddr vaddr) ≠ .ok page) :
    (Footprint.scalar vaddr len alignment prot).Reports h mmu.table
      (.fault (.generalProtection (PageNumber.fromVaddr vaddr).vaddrBase)) := by
  refine ⟨_, rfl, ?_⟩
  by_cases ho : pageOffset vaddr = 0
  · have hpage : bytePage vaddr 0 = PageNumber.fromVaddr vaddr := rfl
    refine iff_of_true ?_ (.inl ho)
    rw [← hpage]
    refine Footprint.locates_base hend hlen (.inr ho) fun ha => ?_
    obtain ⟨page, hp⟩ := ha.found
    exact hnone page hp
  · refine iff_of_false (Footprint.not_locates_base ho) ?_
    rintro (ho' | hmis | hfound)
    · exact ho ho'
    · exact hmis hal
    · obtain ⟨page, hp⟩ := accessible_none.1 hfound
      exact hnone page hp

/-- The first page is found and lacks the permission. -/
theorem reports_notGranted (hlen : 0 < len) {page : Page}
    (hp : mmu.table.getPage h (PageNumber.fromVaddr vaddr) = .ok page)
    (hc : page.flags.containsAny (MemFlags.fromProt prot) = false) :
    (Footprint.scalar vaddr len alignment prot).Reports h mmu.table
      (.fault (.generalProtection vaddr)) := by
  refine ⟨_, rfl, iff_of_true (Footprint.locates_vaddr hlen (.inl fun ha => ?_)) ?_⟩
  · obtain ⟨page', hp', hc'⟩ := accessible_prot.1 ha
    obtain rfl : page = page' := Except.ok.inj (hp.symm.trans hp')
    rw [hc] at hc'
    cases hc'
  · exact .inr (.inr (accessible_none.2 ⟨page, hp⟩))

/-- An access to one page that requires alignment and a permission, and then cannot
    fail. -/
theorem ends_singlePage {α : Type} {k : Page × ℕ → Access α} (hlen : 0 < len)
    (hend : vaddr.toNat + len ≤ 2 ^ 64)
    (hk : ∀ r, Ends ((Footprint.scalar vaddr len alignment prot).Cached h mmu) (k r)
      (fun _ => True) fun _ => False) :
    Ends ((Footprint.scalar vaddr len alignment prot).Cached h mmu) (do
        let r ← resolveAlignedScalarAccess h mmu alignment vaddr
        ensure vaddr (r.1.flags.containsAny (MemFlags.fromProt prot))
        k r)
      (fun _ => True) ((Footprint.scalar vaddr len alignment prot).Reports h mmu.table) := by
  have hresolve : Ends ((Footprint.scalar vaddr len alignment prot).Cached h mmu)
      (resolveAlignedScalarAccess h mmu alignment vaddr)
      (fun r => mmu.table.getPage h (PageNumber.fromVaddr vaddr) = .ok r.1)
      ((Footprint.scalar vaddr len alignment prot).Reports h mmu.table) := by
    refine ((ends_ensure vaddr _).mono (fun _ h => h) ?_).bind fun _ hal => ?_
    · rintro e ⟨hmis, rfl⟩
      have hmis' : vaddr.toNat % alignment ≠ 0 := of_decide_eq_false hmis
      exact ⟨_, rfl, iff_of_true (Footprint.locates_vaddr hlen (.inr hmis')) (.inr (.inl hmis'))⟩
    · refine ((Footprint.ends_getPage (Footprint.first_mem hlen)).mono (fun _ h => h)
        ?_).bind fun page hp => Ends.pure hp
      rintro e ⟨hnone, rfl⟩
      exact reports_notFound hlen hend (of_decide_eq_true hal) hnone
  refine hresolve.bind fun r hp => ?_
  refine ((ends_ensure vaddr _).mono (fun _ h => h) ?_).bind fun _ _ => ?_
  · rintro e ⟨hc, rfl⟩
    exact reports_notGranted hlen hp hc
  · exact (hk r).mono (fun _ h => h) fun _ h => h.elim

/-- A fault of the second page of a crossing access. -/
theorem reports_second {w : IntWidth} (hcross : Crosses w vaddr)
    (hend : vaddr.toNat + w.bytes ≤ 2 ^ 64)
    (hfirst : mmu.table.Accessible h none false (PageNumber.fromVaddr vaddr))
    (ha : ¬ mmu.table.Accessible h (some prot) false (PageNumber.fromVaddr vaddr + 1)) :
    (Footprint.scalar vaddr w.bytes alignment prot).Reports h mmu.table
      (.fault (.generalProtection (PageNumber.fromVaddr vaddr + 1).vaddrBase)) := by
  refine ⟨_, rfl, iff_of_true ?_ (.inr (.inr hfirst))⟩
  have hlt := pageOffset_lt vaddr
  obtain ⟨hpage, -⟩ := bytePage_second vaddr (le_refl _) hcross
  have hne : bytePage vaddr (PAGE_SIZE - pageOffset vaddr) ≠ PageNumber.fromVaddr vaddr := by
    rw [hpage]
    exact Nat.succ_ne_self _
  rw [← hpage] at ha ⊢
  exact Footprint.locates_base (p := .scalar vaddr w.bytes alignment prot) hend hcross (.inl hne) ha

theorem nextPageVaddr_eq (vaddr : BitVec 64) :
    nextPageVaddr vaddr = (PageNumber.fromVaddr vaddr + 1).vaddrBase :=
  rfl

/-- The pages of a multi-byte access, or the fault of a page that is not found. -/
theorem ends_small {w : IntWidth} (hend : vaddr.toNat + w.bytes ≤ 2 ^ 64) :
    Ends ((Footprint.scalar vaddr w.bytes 1 prot).Cached h mmu)
      (staticSmallMultibyteAccess h mmu w.bytes vaddr)
      (fun a => mmu.table.getPage h (PageNumber.fromVaddr vaddr) = .ok a.basePage ∧
        ∀ second spill, a.secondPage = some (second, spill) →
          Crosses w vaddr ∧ mmu.table.getPage h (PageNumber.fromVaddr vaddr + 1) = .ok second)
      ((Footprint.scalar vaddr w.bytes 1 prot).Reports h mmu.table) := by
  have hlen := IntWidth.bytes_pos w
  refine ((Footprint.ends_getPage (Footprint.first_mem hlen)).mono (fun _ h => h)
    ?_).bind fun lo hlo => ?_
  · rintro e ⟨hnone, rfl⟩
    exact reports_notFound hlen hend (Nat.mod_one _) hnone
  · by_cases hcross : Crosses w vaddr
    · have hle : ¬ PageNumber.fromVaddr vaddr + 1 > PageNumber.MAX := by
        rw [MAX_eq]
        exact (crossing_arith (IntWidth.bytes_le w) hcross).1 hend
      rw [if_pos hcross]
      simp only [inc_of_le hle]
      refine ((Footprint.ends_getPage (Footprint.second_mem hcross)).mono (fun _ h => h)
        ?_).bind fun hi hhi => Ends.pure ⟨hlo, ?_⟩
      · rintro e ⟨hnone, rfl⟩
        refine reports_second hcross hend (accessible_none.2 ⟨lo, hlo⟩) fun ha => ?_
        obtain ⟨page, hp⟩ := ha.found
        exact hnone page hp
      · rintro second spill heq
        obtain ⟨rfl, -⟩ := Prod.mk.inj (Option.some.inj heq)
        exact ⟨hcross, hhi⟩
    · rw [if_neg hcross]
      exact Ends.pure ⟨hlo, fun second spill heq => by cases heq⟩

theorem ends_multibyteAccess {α : Type} {w : IntWidth} {inside : Page → ℕ → α}
    {crossing : Page → Page → ℕ → α} (hend : vaddr.toNat + w.bytes ≤ 2 ^ 64) :
    Ends ((Footprint.scalar vaddr w.bytes 1 prot).Cached h mmu)
      (multibyteAccess h mmu w vaddr prot inside crossing) (fun _ => True)
      ((Footprint.scalar vaddr w.bytes 1 prot).Reports h mmu.table) := by
  have hlen := IntWidth.bytes_pos w
  refine (ends_small hend).bind fun a ha => ?_
  obtain ⟨hlo, hsecond⟩ := ha
  have hbase : Ends ((Footprint.scalar vaddr w.bytes 1 prot).Cached h mmu)
      (ensure vaddr (a.basePage.flags.containsAny (MemFlags.fromProt prot))) (fun _ => True)
      ((Footprint.scalar vaddr w.bytes 1 prot).Reports h mmu.table) := by
    refine (ends_ensure vaddr _).mono (fun _ _ => trivial) ?_
    rintro e ⟨hc, rfl⟩
    exact reports_notGranted hlen hlo hc
  cases hs : a.secondPage with
  | none => exact hbase.bind fun _ _ => Ends.pure trivial
  | some r =>
    obtain ⟨second, spill⟩ := r
    obtain ⟨hcross, hhi⟩ := hsecond second spill hs
    refine hbase.bind fun _ _ => ((ends_ensure _ _).mono (fun _ _ => trivial) ?_).bind
      fun _ _ => Ends.pure trivial
    rintro e ⟨hc, rfl⟩
    rw [nextPageVaddr_eq]
    refine reports_second hcross hend (accessible_none.2 ⟨_, hlo⟩) fun ha => ?_
    obtain ⟨page, hp, hc'⟩ := accessible_prot.1 ha
    obtain rfl : second = page := Except.ok.inj (hhi.symm.trans hp)
    rw [hc] at hc'
    cases hc'

/-- `load_byte` and `store_byte`. -/
theorem ends_byteAccess {α : Type} {inside : Page → ℕ → α} :
    Ends ((Footprint.scalar vaddr 1 1 prot).Cached h mmu) (byteAccess h mmu vaddr prot inside)
      (fun _ => True)
      ((Footprint.scalar vaddr 1 1 prot).Reports h mmu.table) :=
  ends_singlePage Nat.one_pos (Nat.succ_le_of_lt vaddr.isLt) fun _ => Ends.pure trivial

theorem ends_scalarLoad {w : IntWidth} (hend : vaddr.toNat + w.bytes ≤ 2 ^ 64) :
    Ends ((Footprint.scalar vaddr w.bytes 1 MemProt.READ).Cached h mmu) (scalarLoad h mmu w vaddr)
      (fun _ => True)
      ((Footprint.scalar vaddr w.bytes 1 MemProt.READ).Reports h mmu.table) := by
  have hmulti :
      Ends ((Footprint.scalar vaddr w.bytes 1 MemProt.READ).Cached h mmu) (loadLe h mmu w vaddr)
      (fun _ => True)
      ((Footprint.scalar vaddr w.bytes 1 MemProt.READ).Reports h mmu.table) := by
    rw [loadLe_eq]
    exact ends_multibyteAccess hend
  cases w with
  | w8 =>
    rw [scalarLoad_byte]
    exact ends_byteAccess
  | w16 => exact hmulti
  | w32 => exact hmulti
  | w64 => exact hmulti

theorem ends_scalarStore {w : IntWidth} (value : BitVec w.bits)
    (hend : vaddr.toNat + w.bytes ≤ 2 ^ 64) :
    Ends ((Footprint.scalar vaddr w.bytes 1 MemProt.WRITE).Cached h mmu)
      (scalarStore h mmu vaddr value) (fun _ => True)
      ((Footprint.scalar vaddr w.bytes 1 MemProt.WRITE).Reports h mmu.table) := by
  have hmulti : Ends ((Footprint.scalar vaddr w.bytes 1 MemProt.WRITE).Cached h mmu)
      (storeLe h mmu vaddr value) (fun _ => True)
      ((Footprint.scalar vaddr w.bytes 1 MemProt.WRITE).Reports h mmu.table) := by
    rw [storeLe_eq]
    exact ends_multibyteAccess hend
  cases w with
  | w8 =>
    rw [scalarStore_byte]
    exact ends_byteAccess
  | w16 => exact hmulti
  | w32 => exact hmulti
  | w64 => exact hmulti

theorem ends_fetchAarch64 (hend : vaddr.toNat + 4 ≤ 2 ^ 64) :
    Ends ((Footprint.scalar vaddr 4 4 MemProt.EXECUTE).Cached h mmu) (fetchAarch64 h mmu vaddr)
      (fun _ => True)
      ((Footprint.scalar vaddr 4 4 MemProt.EXECUTE).Reports h mmu.table) :=
  @ends_singlePage h mmu vaddr 4 4 MemProt.EXECUTE _
    (fun r => pure (loadLeAt .w32 (h.mem r.1.ptr) r.2)) (by decide) hend fun _ => Ends.pure trivial

theorem ends_ldrex {w : IntWidth} (hend : vaddr.toNat + w.bytes ≤ 2 ^ 64) :
    Ends ((Footprint.scalar vaddr w.bytes w.bytes MemProt.READ).Cached h mmu)
      (ldrex h mmu w vaddr) (fun _ => True)
      ((Footprint.scalar vaddr w.bytes w.bytes MemProt.READ).Reports h mmu.table) :=
  Ends.bind (ends_singlePage (IntWidth.bytes_pos w) hend fun _ => Ends.pure trivial)
    fun _ _ => Ends.pure trivial

theorem ends_strex {w : IntWidth} (reservation : Option Reservation) (intact : Bool)
    (value : BitVec w.bits) (hend : vaddr.toNat + w.bytes ≤ 2 ^ 64) :
    Ends ((Footprint.scalar vaddr w.bytes w.bytes MemProt.WRITE).Cached h mmu)
      (strex h mmu reservation intact vaddr value) (fun _ => True)
      ((Footprint.scalar vaddr w.bytes w.bytes MemProt.WRITE).Reports h mmu.table) := by
  unfold strex
  cases reservation with
  | none => exact Ends.pure trivial
  | some r =>
    refine Ends.ite (fun _ => Ends.pure trivial) fun _ => ?_
    refine ends_singlePage (IntWidth.bytes_pos w) hend fun page => ?_
    exact Ends.ite (fun _ => Ends.pure trivial) fun _ => Ends.pure trivial

end Scalar

/-! ## Every access -/

/-- An access whose result is dropped. -/
theorem ends_drop {α : Type} {I : Option Tlb → Prop} {x : Access α} {E : Failure → Prop}
    (hx : Ends I x (fun _ => True) E) : Ends I (do let _ ← x) (fun _ => True) E :=
  hx.bind fun _ _ => Ends.pure trivial

theorem ends_load {vaddr : BitVec 64} {len : ℕ} (prot : Option MemProt) (hlen : 0 < len)
    (hsize : len < 2 ^ 64) (hend : vaddr.toNat + len ≤ 2 ^ 64) :
    Ends (Footprint.Cached ⟨vaddr, len, prot, false, 1, true⟩ h mmu)
      (load h mmu vaddr len prot) (fun _ => True)
      (Footprint.Reports h mmu.table ⟨vaddr, len, prot, false, 1, true⟩) := by
  unfold load
  exact reports_memAccess _ prot false hlen hsize hend

theorem ends_innerStoreWithProt {vaddr : BitVec 64} {mem : List (BitVec 8)}
    (prot : Option MemProt) (hlen : 0 < mem.length) (hsize : mem.length < 2 ^ 64)
    (hend : vaddr.toNat + mem.length ≤ 2 ^ 64) :
    Ends (Footprint.Cached ⟨vaddr, mem.length, prot, true, 1, true⟩ h mmu)
      (innerStoreWithProt h mmu vaddr mem prot) (fun _ => True)
      (Footprint.Reports h mmu.table ⟨vaddr, mem.length, prot, true, 1, true⟩) := by
  unfold innerStoreWithProt
  exact reports_memAccess _ prot true hlen hsize hend

theorem ends_run (a : GuestAccess) (hlen : 0 < a.footprint.len) (hsize : a.footprint.len < 2 ^ 64)
    (hend : a.footprint.vaddr.toNat + a.footprint.len ≤ 2 ^ 64) :
    Ends (a.footprint.Cached h mmu) (a.run h mmu) (fun _ => True)
      (a.footprint.Reports h mmu.table) := by
  cases a with
  | load vaddr len force =>
    exact ends_drop (ends_load (requiredProt force MemProt.READ) hlen hsize hend)
  | store vaddr mem force =>
    cases force with
    | false => exact ends_drop (ends_innerStoreWithProt (some MemProt.WRITE) hlen hsize hend)
    | true => exact ends_drop (ends_innerStoreWithProt none hlen hsize hend)
  | scalarLoad w vaddr => exact ends_drop (ends_scalarLoad hend)
  | scalarStore w vaddr value => exact ends_drop (ends_scalarStore value hend)
  | fetchAarch64 vaddr => exact ends_drop (ends_fetchAarch64 hend)
  | ldrex w vaddr => exact ends_drop (ends_ldrex hend)
  | strex w reservation intact vaddr value =>
    exact ends_drop (ends_strex reservation intact value hend)

/-- For every MMU of a world that calls lead to, every access of at least one byte that does
    not wrap around, and every cache whose hits on the pages of the access are what the table
    returns: if the access fails, it fails with a fault, whose address is in the access, on a
    page that it may not access or its own if it is misaligned, if and only if the condition
    holds before the access. -/
theorem reports_inside_iff (calls : List (Op × Token)) :
    ∀ m mmu, (World.init.run calls).mmu? m = some mmu → ∀ (a : GuestAccess) (cache : Option Tlb),
      a.footprint.Cached (World.init.run calls).heap mmu cache → 0 < a.footprint.len →
      a.footprint.len < 2 ^ 64 → a.footprint.vaddr.toNat + a.footprint.len ≤ 2 ^ 64 →
      ∀ e, ((a.run (World.init.run calls).heap mmu).run.run cache).1 = .error e →
        ∃ f, e = .fault f ∧ (a.footprint.Locates (World.init.run calls).heap mmu.table f ↔
          a.footprint.ReportsInside (World.init.run calls).heap mmu.table) := by
  intro m mmu _ a cache hc hlen hsize hend e he
  exact (ends_run a hlen hsize hend).error hc he

/-- A new MMU has nothing mapped, and the byte load at 0x1fff reports 0x1000. -/
theorem reports_inside_newMmu :
    let w := World.init.run [(.newMmu, 0)]
    let a := GuestAccess.scalarLoad .w8 0x1fff#64
    ∃ mmu f, w.mmu? 0 = some mmu ∧ ((a.run w.heap mmu).run.run none).1 = .error (.fault f) ∧
      f.vaddr = 0x1000#64 ∧ (a.footprint.Locates w.heap mmu.table f ↔
        a.footprint.ReportsInside w.heap mmu.table) := by
  refine ⟨⟨0, .new⟩, .generalProtection 0x1000#64, rfl, rfl, rfl, ?_⟩
  obtain ⟨f, hf, hiff⟩ := reports_inside_iff [(.newMmu, 0)] 0 ⟨0, .new⟩ rfl
    (.scalarLoad .w8 0x1fff#64) none consistent_noCache.hitsAgree (by decide) (by decide)
    (by decide) (.fault (.generalProtection 0x1000#64)) rfl
  obtain rfl : _ = f := Failure.fault.inj hf
  exact hiff

/-- A byte load reports an address 4095 bytes before the byte. -/
theorem loadByte_reports_before :
    ¬ ∀ calls m mmu, (World.init.run calls).mmu? m = some mmu → ∀ cache,
      Consistent (World.init.run calls).heap mmu cache → ∀ a : GuestAccess, 0 < a.footprint.len →
      a.footprint.len < 2 ^ 64 → a.footprint.vaddr.toNat + a.footprint.len ≤ 2 ^ 64 →
      ∀ e, ((a.run (World.init.run calls).heap mmu).run.run cache).1 = .error e →
        ∃ f, e = .fault f ∧ a.footprint.Locates (World.init.run calls).heap mmu.table f := by
  intro hclaim
  obtain ⟨f, hf, hl⟩ := hclaim [(.newMmu, 0)] 0 ⟨0, .new⟩ rfl none consistent_noCache
    (.scalarLoad .w8 0x1fff#64) (by decide) (by decide) (by decide)
    (.fault (.generalProtection 0x1000#64)) rfl
  obtain rfl : _ = f := Failure.fault.inj hf
  exact absurd hl.inside.1 (by decide)

end RapidArm.Mmu
