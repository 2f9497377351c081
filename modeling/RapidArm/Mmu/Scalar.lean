import RapidArm.Mmu.Bulk
import RapidArm.Mmu.Dirty

/-!
# Scalar accesses

`load_byte`, `store_byte`, `loadN_le` and `storeN_le` (`io-mmu/src/lib.rs`, lines
847–1214) beside `load` and `store`. A scalar access finds its one or two pages by
itself, combines two words by shifts where it crosses, stores the bytes backwards, and
tests a page for the permission alone, where `store` refuses copy-on-write pages too.

Results:
* `scalar_agrees_iff`: with caches that agree with the table, a scalar access and the
  bulk access of its bytes agree if and only if the pages are not ones that grant
  writing while one of them is copy-on-write.
* `storeByte_through_cow`: a lazy mapping is such a page.
-/

namespace RapidArm.Mmu

open RapidArm.Ir RapidArm.Lib

/-! ## Bits of a little-endian value -/

theorem IntWidth.bits_eq (w : IntWidth) : w.bits = 8 * w.bytes := by
  cases w <;> rfl

theorem IntWidth.bytes_pos (w : IntWidth) : 0 < w.bytes := by
  cases w <;> decide

theorem IntWidth.bytes_le (w : IntWidth) : w.bytes ≤ 8 := by
  cases w <;> decide

theorem getLsbD_foldr_bytes {m : ℕ} (b : ℕ → BitVec 8) (l : List ℕ) {k : ℕ} (hk : k < m) :
    (l.foldr (fun i acc => acc ||| ((b i).setWidth m <<< (8 * i))) 0#m).getLsbD k =
      l.any fun i => decide (8 * i ≤ k) && (b i).getLsbD (k - 8 * i) := by
  induction l with
  | nil => simp
  | cons i l ih =>
    rw [List.foldr_cons, BitVec.getLsbD_or, ih, List.any_cons, Bool.or_comm,
      BitVec.getLsbD_shiftLeft, BitVec.getLsbD_setWidth]
    congr 1
    have hsub : k - 8 * i < m := by omega
    by_cases hle : 8 * i ≤ k
    · simp [hle, hk, hsub]
    · simp [hle]

/-- Bit `k` of a little-endian value is bit `k % 8` of byte `k / 8`. -/
theorem getLsbD_loadLeAt (w : IntWidth) (bytes : PageBytes) (offset : ℕ) {k : ℕ} (hk : k < w.bits) :
    (loadLeAt w bytes offset).getLsbD k = (bytes (offset + k / 8)).getLsbD (k % 8) := by
  unfold loadLeAt
  refine Eq.trans (getLsbD_foldr_bytes (fun i => bytes (offset + i)) _ hk) ?_
  have hbyte : k / 8 < w.bytes := by
    have := IntWidth.bits_eq w
    omega
  rw [Bool.eq_iff_iff, List.any_eq_true]
  constructor
  · rintro ⟨i, -, hi⟩
    rw [Bool.and_eq_true, decide_eq_true_eq] at hi
    have hlt := BitVec.lt_of_getLsbD hi.2
    have hdiv : k / 8 = i := by omega
    have hmod : k % 8 = k - 8 * i := by omega
    rw [hdiv, hmod]
    exact hi.2
  · intro hbit
    refine ⟨k / 8, List.mem_range.2 hbyte, ?_⟩
    have hmod : k - 8 * (k / 8) = k % 8 := by omega
    rw [hmod, hbit, Bool.and_true, decide_eq_true_eq]
    omega

/-- The value of little-endian bytes (`from_le_bytes`). -/
def fromLeBytes (w : IntWidth) (bytes : List (BitVec 8)) : BitVec w.bits :=
  loadLeAt w (fun i => bytes.getD i 0) 0

theorem loadLeAt_eq_fromLeBytes {w : IntWidth} {bytes : PageBytes} {offset : ℕ}
    {data : List (BitVec 8)} (hdata : ∀ i < w.bytes, bytes (offset + i) = data.getD i 0) :
    loadLeAt w bytes offset = fromLeBytes w data := by
  apply BitVec.eq_of_getLsbD_eq
  intro k hk
  have hbyte : k / 8 < w.bytes := by
    have := IntWidth.bits_eq w
    omega
  unfold fromLeBytes
  rw [getLsbD_loadLeAt w bytes offset hk, getLsbD_loadLeAt w _ 0 hk, hdata _ hbyte, Nat.zero_add]

/-- The two words of a crossing load, shifted and combined. -/
theorem combine_eq_fromLeBytes {w : IntWidth} {lo hi : PageBytes} {spill : ℕ}
    {data : List (BitVec 8)} (hspill : spill ≤ w.bytes)
    (hlo : ∀ i < w.bytes - spill, lo (PAGE_SIZE - w.bytes + spill + i) = data.getD i 0)
    (hhi : ∀ i < spill, hi i = data.getD (w.bytes - spill + i) 0) :
    (loadLeAt w hi 0 <<< (w.bits - spill * 8) ||| loadLeAt w lo (PAGE_SIZE - w.bytes) >>>
      (spill * 8)) =
      fromLeBytes w data := by
  apply BitVec.eq_of_getLsbD_eq
  intro k hk
  have hbits := IntWidth.bits_eq w
  rw [BitVec.getLsbD_or, BitVec.getLsbD_shiftLeft, BitVec.getLsbD_ushiftRight]
  unfold fromLeBytes
  rw [getLsbD_loadLeAt w _ 0 hk, Nat.zero_add]
  by_cases hfirst : k < w.bits - spill * 8
  · -- the byte is on the first page
    have hdiv : (spill * 8 + k) / 8 = spill + k / 8 := by omega
    have hmod : (spill * 8 + k) % 8 = k % 8 := by omega
    rw [getLsbD_loadLeAt w lo _ (by omega), hdiv, hmod, ← Nat.add_assoc, hlo _ (by omega)]
    simp [hfirst]
  · -- the byte is on the second page
    have hdiv : w.bytes - spill + (k - (w.bits - spill * 8)) / 8 = k / 8 := by omega
    have hmod : (k - (w.bits - spill * 8)) % 8 = k % 8 := by omega
    rw [getLsbD_loadLeAt w hi 0 (by omega), Nat.zero_add, hhi _ (by omega), hdiv, hmod,
      BitVec.getLsbD_of_ge (loadLeAt w lo _) (spill * 8 + k) (by omega)]
    simp [hfirst, hk]

/-! ## The pages of a scalar access -/

/-- An access that goes on to the next page. -/
abbrev Crosses (w : IntWidth) (vaddr : BitVec 64) : Prop := w.bytes > PAGE_SIZE - pageOffset vaddr

/-- The bytes of a crossing access on the second page. -/
def overflowAmount (w : IntWidth) (vaddr : BitVec 64) : ℕ :=
  w.bytes - (PAGE_SIZE - pageOffset vaddr)

theorem position_first {a i : ℕ} (hi : i < 4096 - a % 4096) :
    (a + i) / 4096 = a / 4096 ∧ (a + i) % 4096 = a % 4096 + i := by
  constructor <;> omega

theorem position_second {a i len : ℕ} (hi : 4096 - a % 4096 ≤ i) (hlen : i < len)
    (hsize : len ≤ 8) :
    (a + i) / 4096 = a / 4096 + 1 ∧ (a + i) % 4096 = i - (4096 - a % 4096) := by
  constructor <;> omega

theorem bytePage_first (vaddr : BitVec 64) {i : ℕ} (hi : i < PAGE_SIZE - pageOffset vaddr) :
    bytePage vaddr i = PageNumber.fromVaddr vaddr ∧ byteOffset vaddr i = pageOffset vaddr + i :=
  position_first hi

theorem bytePage_second (vaddr : BitVec 64) {w : IntWidth} {i : ℕ}
    (hi : PAGE_SIZE - pageOffset vaddr ≤ i)
    (hlen : i < w.bytes) : bytePage vaddr i = PageNumber.fromVaddr vaddr + 1 ∧
      byteOffset vaddr i = i - (PAGE_SIZE - pageOffset vaddr) :=
  position_second hi hlen (IntWidth.bytes_le w)

theorem inside_arith {a len : ℕ} (ha : a < 2 ^ 64) (hin : ¬ len > 4096 - a % 4096) :
    a + len ≤ 2 ^ 64 := by
  omega

theorem crossing_arith {a len : ℕ} (hsize : len ≤ 8) (hcross : len > 4096 - a % 4096) :
    a + len ≤ 2 ^ 64 ↔ ¬ a / 4096 + 1 > 4503599627370495 := by
  omega

variable {h : Heap} {mmu : IoMMU}

section Allowed

variable {requiredProt : Option MemProt} {noCow : Bool} {w : IntWidth} {vaddr : BitVec 64}

theorem bulkAllowed_inside {t : PageTable} (hin : ¬ Crosses w vaddr) :
    BulkAllowed h t requiredProt noCow vaddr w.bytes ↔
      t.Accessible h requiredProt noCow (PageNumber.fromVaddr vaddr) := by
  have hpos := IntWidth.bytes_pos w
  constructor
  · rintro (hzero | ⟨-, hpages⟩)
    · omega
    · rw [← (bytePage_first vaddr (i := 0) (by omega)).1]
      exact hpages 0 hpos
  · intro ha
    refine .inr ⟨inside_arith vaddr.isLt hin, fun i hi => ?_⟩
    rw [(bytePage_first vaddr (by omega)).1]
    exact ha

theorem bulkAllowed_crossing {t : PageTable} (hcross : Crosses w vaddr) :
    BulkAllowed h t requiredProt noCow vaddr w.bytes ↔
      ¬ PageNumber.fromVaddr vaddr + 1 > PageNumber.MAX ∧
        t.Accessible h requiredProt noCow (PageNumber.fromVaddr vaddr) ∧
        t.Accessible h requiredProt noCow (PageNumber.fromVaddr vaddr + 1) := by
  have hpos := IntWidth.bytes_pos w
  have hlt := pageOffset_lt vaddr
  have hmax : vaddr.toNat + w.bytes ≤ 2 ^ 64 ↔
      ¬ PageNumber.fromVaddr vaddr + 1 > PageNumber.MAX := by
    rw [MAX_eq]
    exact crossing_arith (IntWidth.bytes_le w) hcross
  constructor
  · rintro (hzero | ⟨hwrap, hpages⟩)
    · omega
    · refine ⟨hmax.1 hwrap, ?_, ?_⟩
      · rw [← (bytePage_first vaddr (i := 0) (by omega)).1]
        exact hpages 0 hpos
      · rw [← (bytePage_second vaddr (le_refl _) hcross).1]
        exact hpages _ hcross
  · rintro ⟨hle, hlo, hhi⟩
    refine .inr ⟨hmax.2 hle, fun i hi => ?_⟩
    by_cases hfirst : i < PAGE_SIZE - pageOffset vaddr
    · rw [(bytePage_first vaddr hfirst).1]
      exact hlo
    · rw [(bytePage_second vaddr (by omega) hi).1]
      exact hhi

end Allowed

/-- Without the test for copy-on-write a page is accessible if it grants the
    permission. -/
theorem accessible_prot {t : PageTable} {prot : MemProt} {n : PageNumber} :
    t.Accessible h (some prot) false n ↔
      ∃ page, t.getPage h n = .ok page ∧
        page.flags.containsAny (MemFlags.fromProt prot) = true := by
  rw [accessible_iff]
  simp [verifyAccess]

/-- The common shape of `loadN_le` and `storeN_le`: the pages, the permission of each,
    and then the access. -/
def multibyteAccess {α : Type} (h : Heap) (mmu : IoMMU) (w : IntWidth) (vaddr : BitVec 64)
    (prot : MemProt) (inside : Page → ℕ → α) (crossing : Page → Page → ℕ → α) : Access α := do
  let access ← staticSmallMultibyteAccess h mmu w.bytes vaddr
  match access.secondPage with
  | none => do
    ensure vaddr (access.basePage.flags.containsAny (MemFlags.fromProt prot))
    return inside access.basePage access.basePageOffset
  | some (second, overflow) => do
    ensure vaddr (access.basePage.flags.containsAny (MemFlags.fromProt prot))
    ensure (nextPageVaddr vaddr) (second.flags.containsAny (MemFlags.fromProt prot))
    return crossing access.basePage second overflow

theorem loadLe_eq (h : Heap) (mmu : IoMMU) (w : IntWidth) (vaddr : BitVec 64) :
    loadLe h mmu w vaddr = multibyteAccess h mmu w vaddr MemProt.READ
      (fun page offset => loadLeAt w (h.mem page.ptr) offset)
      (fun lo hi overflow => loadLeAt w (h.mem hi.ptr) 0 <<< (w.bits - overflow * 8) |||
        loadLeAt w (h.mem lo.ptr) (PAGE_SIZE - w.bytes) >>> (overflow * 8)) :=
  rfl

theorem storeLe_eq (h : Heap) (mmu : IoMMU) {w : IntWidth} (vaddr : BitVec 64)
    (value : BitVec w.bits) :
    storeLe h mmu vaddr value = multibyteAccess h mmu w vaddr MemProt.WRITE
      (fun page offset => writeBytes page offset (toLeBytes value) ++ page.setDirty)
      (fun lo hi overflow => crossingWrites lo hi overflow (toLeBytes value) ++
        (lo.setDirty ++ hi.setDirty)) :=
  rfl

section Multibyte

variable {α : Type} {w : IntWidth} {vaddr : BitVec 64} {prot : MemProt} {inside : Page → ℕ → α}
  {crossing : Page → Page → ℕ → α}

theorem returns_found {n : PageNumber} {page : Page} (hp : mmu.table.getPage h n = .ok page) :
    Returns (Consistent h mmu) (getPage h mmu n) (.ok page) := by
  have hget := returns_getPage h mmu n
  rw [hp] at hget
  exact hget

theorem returns_notFound {n : PageNumber} {f : MemoryFault}
    (hp : mmu.table.getPage h n = .error f) :
    Returns (Consistent h mmu) (getPage h mmu n) (.error (.fault f)) := by
  have hget := returns_getPage h mmu n
  rw [hp] at hget
  exact hget

theorem inc_of_le {n : PageNumber} (hle : ¬ n + 1 > PageNumber.MAX) : n.inc = some (n + 1) := by
  unfold PageNumber.inc
  rw [if_neg hle]

theorem returns_small_inside (hin : ¬ Crosses w vaddr) {page : Page}
    (hp : mmu.table.getPage h (PageNumber.fromVaddr vaddr) = .ok page) :
    Returns (Consistent h mmu) (staticSmallMultibyteAccess h mmu w.bytes vaddr)
      (.ok ⟨page, pageOffset vaddr, none⟩) := by
  refine (returns_found hp).bind ?_
  rw [if_neg hin]
  exact Returns.pure

theorem returns_small_crossing (hcross : Crosses w vaddr) {lo hi : Page}
    (hle : ¬ PageNumber.fromVaddr vaddr + 1 > PageNumber.MAX)
    (hlo : mmu.table.getPage h (PageNumber.fromVaddr vaddr) = .ok lo)
    (hhi : mmu.table.getPage h (PageNumber.fromVaddr vaddr + 1) = .ok hi) :
    Returns (Consistent h mmu) (staticSmallMultibyteAccess h mmu w.bytes vaddr)
      (.ok ⟨lo, pageOffset vaddr, some (hi, overflowAmount w vaddr)⟩) := by
  refine (returns_found hlo).bind ?_
  rw [if_pos hcross]
  simp only [inc_of_le hle]
  exact (returns_found hhi).bind Returns.pure

/-- What a scalar access yields, from the pages of the table. -/
def multibyteResult (h : Heap) (t : PageTable) (w : IntWidth) (vaddr : BitVec 64)
    (inside : Page → ℕ → α) (crossing : Page → Page → ℕ → α) : α :=
  if Crosses w vaddr then
    crossing (pageAt h t (PageNumber.fromVaddr vaddr)) (pageAt h t (PageNumber.fromVaddr vaddr + 1))
      (overflowAmount w vaddr)
  else inside (pageAt h t (PageNumber.fromVaddr vaddr)) (pageOffset vaddr)

theorem returns_multibyteAccess (ha : BulkAllowed h mmu.table (some prot) false vaddr w.bytes) :
    Returns (Consistent h mmu) (multibyteAccess h mmu w vaddr prot inside crossing)
      (.ok (multibyteResult h mmu.table w vaddr inside crossing)) := by
  unfold multibyteResult
  by_cases hcross : Crosses w vaddr
  · obtain ⟨hle, hlo, hhi⟩ := (bulkAllowed_crossing hcross).1 ha
    obtain ⟨lo, hlo, hloProt⟩ := accessible_prot.1 hlo
    obtain ⟨hi, hhi, hhiProt⟩ := accessible_prot.1 hhi
    rw [if_pos hcross, pageAt_eq hlo, pageAt_eq hhi]
    refine (returns_small_crossing hcross hle hlo hhi).bind ?_
    exact (returns_ensure hloProt).bind ((returns_ensure hhiProt).bind Returns.pure)
  · obtain ⟨page, hp, hprot⟩ := accessible_prot.1 ((bulkAllowed_inside hcross).1 ha)
    rw [if_neg hcross, pageAt_eq hp]
    refine (returns_small_inside hcross hp).bind ?_
    exact (returns_ensure hprot).bind Returns.pure

/-- A page that is found and does not grant the permission. -/
theorem not_granted {n : PageNumber} {page : Page}
    (ha : ¬ mmu.table.Accessible h (some prot) false n) (hp : mmu.table.getPage h n = .ok page) :
    page.flags.containsAny (MemFlags.fromProt prot) = false := by
  by_contra hprot
  rw [Bool.not_eq_false] at hprot
  exact ha (accessible_prot.2 ⟨page, hp, hprot⟩)

theorem returns_multibyteAccess_fault
    (ha : ¬ BulkAllowed h mmu.table (some prot) false vaddr w.bytes) :
    ∃ f, Returns (Consistent h mmu) (multibyteAccess h mmu w vaddr prot inside crossing)
      (.error (.fault f)) := by
  cases hlo : mmu.table.getPage h (PageNumber.fromVaddr vaddr) with
  | error f => exact ⟨f, (returns_notFound hlo).bind_error.bind_error⟩
  | ok lo =>
    by_cases hcross : Crosses w vaddr
    · rw [bulkAllowed_crossing hcross] at ha
      by_cases hle : PageNumber.fromVaddr vaddr + 1 > PageNumber.MAX
      · -- the next page is outside the address space
        refine ⟨.generalProtection (BitVec.allOnes 64),
          Returns.bind_error (Returns.bind (returns_found hlo) ?_)⟩
        rw [if_pos hcross]
        unfold PageNumber.inc
        rw [if_pos hle]
        exact Returns.throw
      · cases hhi : mmu.table.getPage h (PageNumber.fromVaddr vaddr + 1) with
        | error f =>
          refine ⟨f, Returns.bind_error (Returns.bind (returns_found hlo) ?_)⟩
          rw [if_pos hcross]
          simp only [inc_of_le hle]
          exact (returns_notFound hhi).bind_error
        | ok hi =>
          have hsmall := returns_small_crossing hcross hle hlo hhi
          by_cases hprot : mmu.table.Accessible h (some prot) false (PageNumber.fromVaddr vaddr)
          · have hprot' :
                ¬ mmu.table.Accessible h (some prot) false (PageNumber.fromVaddr vaddr + 1) :=
              fun hhi' => ha ⟨hle, hprot, hhi'⟩
            obtain ⟨page, hp, hgranted⟩ := accessible_prot.1 hprot
            obtain rfl : page = lo := Except.ok.inj (hp.symm.trans hlo)
            exact ⟨_, hsmall.bind ((returns_ensure hgranted).bind
              (returns_ensure_fault (not_granted hprot' hhi)).bind_error)⟩
          · exact ⟨_, hsmall.bind (returns_ensure_fault (not_granted hprot hlo)).bind_error⟩
    · rw [bulkAllowed_inside hcross] at ha
      exact ⟨_, (returns_small_inside hcross hlo).bind
        (returns_ensure_fault (not_granted ha hlo)).bind_error⟩

/-- The common shape of `load_byte` and `store_byte`. -/
def byteAccess (h : Heap) (mmu : IoMMU) (vaddr : BitVec 64) (prot : MemProt)
    (inside : Page → ℕ → α) :
    Access α := do
  let (page, offset) ← resolveAlignedScalarAccess h mmu 1 vaddr
  ensure vaddr (page.flags.containsAny (MemFlags.fromProt prot))
  return inside page offset

theorem scalarLoad_byte (h : Heap) (mmu : IoMMU) (vaddr : BitVec 64) :
    scalarLoad h mmu .w8 vaddr =
      byteAccess h mmu vaddr MemProt.READ fun page offset => h.mem page.ptr offset :=
  rfl

theorem scalarStore_byte (h : Heap) (mmu : IoMMU) (vaddr : BitVec 64)
    (value : BitVec IntWidth.w8.bits) :
    scalarStore h mmu vaddr value =
      byteAccess h mmu vaddr MemProt.WRITE fun page offset =>
        .write page offset value :: page.setDirty :=
  rfl

theorem not_crosses_byte (vaddr : BitVec 64) : ¬ Crosses .w8 vaddr := by
  have hlt := pageOffset_lt vaddr
  show ¬ 1 > PAGE_SIZE - pageOffset vaddr
  omega

theorem returns_resolveByte {page : Page}
    (hp : mmu.table.getPage h (PageNumber.fromVaddr vaddr) = .ok page) :
    Returns (Consistent h mmu) (resolveAlignedScalarAccess h mmu 1 vaddr)
      (.ok (page, pageOffset vaddr)) :=
  (returns_ensure (by simp [Nat.mod_one])).bind ((returns_found hp).bind Returns.pure)

theorem returns_byteAccess (ha : BulkAllowed h mmu.table (some prot) false vaddr 1) :
    Returns (Consistent h mmu) (byteAccess h mmu vaddr prot inside)
      (.ok (inside (pageAt h mmu.table (PageNumber.fromVaddr vaddr)) (pageOffset vaddr))) := by
  obtain ⟨page, hp, hprot⟩ := accessible_prot.1 ((bulkAllowed_inside (not_crosses_byte vaddr)).1 ha)
  rw [pageAt_eq hp]
  exact (returns_resolveByte hp).bind ((returns_ensure hprot).bind Returns.pure)

theorem returns_byteAccess_fault (ha : ¬ BulkAllowed h mmu.table (some prot) false vaddr 1) :
    ∃ f, Returns (Consistent h mmu) (byteAccess h mmu vaddr prot inside) (.error (.fault f)) := by
  have ha' := mt (bulkAllowed_inside (w := .w8) (not_crosses_byte vaddr)).2 ha
  cases hp : mmu.table.getPage h (PageNumber.fromVaddr vaddr) with
  | error f =>
    exact ⟨f, Returns.bind_error ((returns_ensure (by simp [Nat.mod_one])).bind
      (returns_notFound hp).bind_error)⟩
  | ok page =>
    exact ⟨_, (returns_resolveByte hp).bind (returns_ensure_fault (not_granted ha' hp)).bind_error⟩

end Multibyte

/-! ## Loads -/

theorem guestBytes_getD (t : PageTable) (vaddr : BitVec 64) {len i : ℕ} (hi : i < len) :
    (guestBytes h t vaddr len).getD i 0 =
      h.mem (pageAt h t (bytePage vaddr i)).ptr (byteOffset vaddr i) := by
  unfold guestBytes
  rw [List.getD_eq_getElem?_getD, List.getElem?_map, List.getElem?_range hi]
  rfl

theorem crossing_offset {len o : ℕ} (hsize : len ≤ 8) (ho : o < 4096)
    (hcross : len > 4096 - o) (i : ℕ) :
    4096 - len + (len - (4096 - o)) + i = o + i ∧ len - (len - (4096 - o)) = 4096 - o := by
  omega

/-- A crossing load has the bytes of the range. -/
theorem loadLe_crossing (t : PageTable) {w : IntWidth} {vaddr : BitVec 64}
    (hcross : Crosses w vaddr) :
    (loadLeAt w (h.mem (pageAt h t (PageNumber.fromVaddr vaddr + 1)).ptr) 0 <<<
        (w.bits - overflowAmount w vaddr * 8) |||
      loadLeAt w (h.mem (pageAt h t (PageNumber.fromVaddr vaddr)).ptr) (PAGE_SIZE - w.bytes) >>>
        (overflowAmount w vaddr * 8)) = fromLeBytes w (guestBytes h t vaddr w.bytes) := by
  have hoffset := crossing_offset (IntWidth.bytes_le w) (pageOffset_lt vaddr) hcross
  have hfirst : w.bytes - overflowAmount w vaddr = PAGE_SIZE - pageOffset vaddr := (hoffset 0).2
  have hspill : overflowAmount w vaddr ≤ w.bytes := Nat.sub_le _ _
  refine combine_eq_fromLeBytes hspill ?_ ?_
  · intro i hi
    rw [hfirst] at hi
    rw [guestBytes_getD t vaddr (lt_trans hi hcross), (bytePage_first vaddr hi).1,
      (bytePage_first vaddr hi).2]
    exact congrArg _ (hoffset i).1
  · intro i hi
    have hlen : w.bytes - overflowAmount w vaddr + i < w.bytes := by omega
    rw [guestBytes_getD t vaddr hlen]
    rw [hfirst] at hlen ⊢
    rw [(bytePage_second vaddr (Nat.le_add_right _ _) hlen).1,
      (bytePage_second vaddr (Nat.le_add_right _ _) hlen).2, Nat.add_sub_cancel_left]

/-- A load inside one page has the bytes of the range. -/
theorem loadLeAt_inside (t : PageTable) {w : IntWidth} {vaddr : BitVec 64}
    (hin : ¬ Crosses w vaddr) :
    loadLeAt w (h.mem (pageAt h t (PageNumber.fromVaddr vaddr)).ptr) (pageOffset vaddr) =
      fromLeBytes w (guestBytes h t vaddr w.bytes) := by
  refine loadLeAt_eq_fromLeBytes fun i hi => ?_
  have hfirst : i < PAGE_SIZE - pageOffset vaddr := by
    unfold Crosses at hin
    omega
  rw [guestBytes_getD t vaddr hi, (bytePage_first vaddr hfirst).1, (bytePage_first vaddr hfirst).2]

theorem loadLeAt_byte (bytes : PageBytes) (offset : ℕ) :
    loadLeAt .w8 bytes offset = bytes offset := by
  apply BitVec.eq_of_getLsbD_eq
  intro k hk
  have hk' : k < 8 := hk
  rw [getLsbD_loadLeAt .w8 bytes offset hk, Nat.div_eq_of_lt hk', Nat.mod_eq_of_lt hk',
    Nat.add_zero]
  rfl

/-- A scalar load returns the value of the bytes of its range. -/
theorem returns_scalarLoad {w : IntWidth} {vaddr : BitVec 64}
    (ha : BulkAllowed h mmu.table (some MemProt.READ) false vaddr w.bytes) :
    Returns (Consistent h mmu) (scalarLoad h mmu w vaddr)
      (.ok (fromLeBytes w (guestBytes h mmu.table vaddr w.bytes))) := by
  have hmulti : Returns (Consistent h mmu) (loadLe h mmu w vaddr)
      (.ok (fromLeBytes w (guestBytes h mmu.table vaddr w.bytes))) := by
    have hvalue : multibyteResult h mmu.table w vaddr
        (fun page offset => loadLeAt w (h.mem page.ptr) offset)
        (fun lo hi overflow => loadLeAt w (h.mem hi.ptr) 0 <<< (w.bits - overflow * 8) |||
          loadLeAt w (h.mem lo.ptr) (PAGE_SIZE - w.bytes) >>> (overflow * 8)) =
        fromLeBytes w (guestBytes h mmu.table vaddr w.bytes) := by
      unfold multibyteResult
      by_cases hcross : Crosses w vaddr
      · rw [if_pos hcross]
        exact loadLe_crossing mmu.table hcross
      · rw [if_neg hcross]
        exact loadLeAt_inside mmu.table hcross
    rw [loadLe_eq, ← hvalue]
    exact returns_multibyteAccess ha
  cases w with
  | w8 =>
    rw [← loadLeAt_inside mmu.table (not_crosses_byte vaddr), loadLeAt_byte, scalarLoad_byte]
    exact returns_byteAccess ha
  | w16 => exact hmulti
  | w32 => exact hmulti
  | w64 => exact hmulti

theorem returns_scalarLoad_fault {w : IntWidth} {vaddr : BitVec 64}
    (ha : ¬ BulkAllowed h mmu.table (some MemProt.READ) false vaddr w.bytes) :
    ∃ f, Returns (Consistent h mmu) (scalarLoad h mmu w vaddr) (.error (.fault f)) := by
  have hmulti : ∃ f, Returns (Consistent h mmu) (loadLe h mmu w vaddr) (.error (.fault f)) := by
    rw [loadLe_eq]
    exact returns_multibyteAccess_fault ha
  cases w with
  | w8 =>
    rw [scalarLoad_byte]
    exact returns_byteAccess_fault ha
  | w16 => exact hmulti
  | w32 => exact hmulti
  | w64 => exact hmulti

/-! ## Effects in any order -/

/-- The byte that effects store at a place, if they store one there alone. -/
theorem Heap.apply_mem_of_mem {h : Heap} {effects : List Effect} {page : Page} {i : ℕ}
    {byte : BitVec 8} (hmem : Effect.write page i byte ∈ effects)
    (hsame : ∀ page' byte', Effect.write page' i byte' ∈ effects → page'.ptr = page.ptr →
      byte' = byte) :
    (h.apply effects).mem page.ptr i = byte := by
  induction effects generalizing h page byte with
  | nil => cases hmem
  | cons e effects ih =>
    by_cases hlater : ∃ page' byte', Effect.write page' i byte' ∈ effects ∧ page'.ptr = page.ptr
    · obtain ⟨page', byte', hmem', hptr⟩ := hlater
      obtain rfl := hsame page' byte' (List.mem_cons_of_mem _ hmem') hptr
      rw [← hptr] at hsame ⊢
      exact ih hmem' fun page₁ byte₁ h₁ => hsame page₁ byte₁ (List.mem_cons_of_mem _ h₁)
    · -- this one is the last
      push Not at hlater
      rcases List.mem_cons.1 hmem with rfl | hmem'
      · exact @Heap.apply_mem_of_last h [] effects page i byte hlater
      · exact absurd rfl (hlater page byte hmem')

/-- The page objects after effects: those marked have the dirty flag. -/
theorem Heap.apply_pages (h : Heap) (effects : List Effect) (k : PageId) :
    (h.apply effects).pages[k]? = h.pages[k]?.map fun p =>
      if Effect.markDirty k ∈ effects then
        { p with flags := p.flags ||| IS_DIRTY_FLAG } else p := by
  unfold Heap.apply
  induction effects generalizing h with
  | nil => simp
  | cons e effects ih =>
    rw [List.foldl_cons, ih]
    cases e with
    | write page offset byte => simp [applyOne]
    | markDirty page =>
      simp only [applyOne, List.getElem?_modify, List.mem_cons, Effect.markDirty.injEq]
      cases h.pages[k]? with
      | none => rfl
      | some p =>
        by_cases hk : page = k
        · subst hk
          by_cases hmem : Effect.markDirty page ∈ effects
          · simp [hmem, BitVec.or_assoc]
          · simp [hmem]
        · have hne : ¬ k = page := fun heq => hk heq.symm
          simp [hk, hne]

/-- Two lists of the same effects leave the same heap, if no two of them store
    different bytes at one place. -/
theorem Heap.apply_congr {h : Heap} {l l' : List Effect} (hsame : ∀ e, e ∈ l ↔ e ∈ l')
    (honce : ∀ page page' i byte byte', Effect.write page i byte ∈ l →
      Effect.write page' i byte' ∈ l → page.ptr = page'.ptr → byte = byte') :
    h.apply l = h.apply l' := by
  have hmem : (h.apply l).mem = (h.apply l').mem := by
    funext host i
    by_cases hstored : ∃ page byte, Effect.write page i byte ∈ l ∧ page.ptr = host
    · obtain ⟨page, byte, hpage, rfl⟩ := hstored
      rw [apply_mem_of_mem hpage fun page' byte' h' hptr => honce _ _ _ _ _ h' hpage hptr,
        apply_mem_of_mem ((hsame _).1 hpage) fun page' byte' h' hptr =>
          honce _ _ _ _ _ ((hsame _).2 h') hpage hptr]
    · push Not at hstored
      rw [apply_mem_of_notMem hstored,
        apply_mem_of_notMem fun page byte h' => hstored page byte ((hsame _).2 h')]
  have hpages : (h.apply l).pages = (h.apply l').pages := by
    apply List.ext_getElem?
    intro k
    rw [apply_pages, apply_pages]
    simp only [hsame]
  obtain ⟨-, hslots, hnext, hzero⟩ := h.apply_frame l
  obtain ⟨-, hslots', hnext', hzero'⟩ := h.apply_frame l'
  rw [← hslots'] at hslots
  rw [← hnext'] at hnext
  rw [← hzero'] at hzero
  cases hl : h.apply l
  cases hl' : h.apply l'
  simp only [hl, hl'] at hmem hpages hslots hnext hzero
  subst hmem hpages hslots hnext hzero
  rfl

/-! ## Stores -/

/-- The effect of byte `i` of a store. -/
def byteEffect (h : Heap) (t : PageTable) (vaddr : BitVec 64) (mem : List (BitVec 8)) (i : ℕ) :
    Effect :=
  .write (pageAt h t (bytePage vaddr i)) (byteOffset vaddr i) (mem.getD i 0)

/-- What a store of `mem` does: the bytes to their places, and the marks of the pages. -/
def IsStore (h : Heap) (t : PageTable) (vaddr : BitVec 64) (mem : List (BitVec 8))
    (effects : List Effect) : Prop :=
  ∀ e, e ∈ effects ↔ ∃ i < mem.length, e = byteEffect h t vaddr mem i ∨
    e ∈ (pageAt h t (bytePage vaddr i)).setDirty

theorem setDirty_not_write {page : Page} {e : Effect} (he : e ∈ page.setDirty) :
    e.isWrite = false := by
  unfold Page.setDirty at he
  split_ifs at he
  · rw [List.mem_singleton.1 he]
    rfl
  · cases he

theorem isStore_bulkEffects (h : Heap) (t : PageTable) (vaddr : BitVec 64) (mem : List (BitVec 8)) :
    IsStore h t vaddr mem (bulkEffects (pageAt h t) vaddr mem) := by
  intro e
  have hwrites : e.isWrite = true → (e ∈ bulkEffects (pageAt h t) vaddr mem ↔
      ∃ i < mem.length, e = byteEffect h t vaddr mem i) := by
    intro he
    have hfilter : e ∈ bulkEffects (pageAt h t) vaddr mem ↔
        e ∈ (bulkEffects (pageAt h t) vaddr mem).filter Effect.isWrite := by
      rw [List.mem_filter, and_iff_left he]
    rw [hfilter, bulkEffects_writes, List.mem_map]
    constructor
    · rintro ⟨i, hi, rfl⟩
      exact ⟨i, List.mem_range.1 hi, rfl⟩
    · rintro ⟨i, hi, rfl⟩
      exact ⟨i, List.mem_range.2 hi, rfl⟩
  cases e with
  | write page offset byte =>
    rw [hwrites rfl]
    refine exists_congr fun i => and_congr_right fun _ => (or_iff_left fun hmark => ?_).symm
    exact absurd (setDirty_not_write hmark) (by simp [Effect.isWrite])
  | markDirty k =>
    have hcovered : Effect.markDirty k ∈ bulkEffects (pageAt h t) vaddr mem ↔
        ∃ n ∈ accessedPages vaddr mem.length, Effect.markDirty k ∈ (pageAt h t n).setDirty := by
      unfold bulkEffects
      rw [List.mem_flatMap]
      refine exists_congr fun n => and_congr_right fun _ => ?_
      rw [List.mem_append, or_iff_right (not_mem_writeBytes _ _ _ k)]
    rw [hcovered]
    unfold accessedPages
    constructor
    · rintro ⟨n, hn, hmark⟩
      by_cases hzero : mem.length = 0
      · rw [if_pos hzero] at hn
        cases hn
      · rw [if_neg hzero, mem_pagesOf vaddr (Nat.pos_of_ne_zero hzero)] at hn
        obtain ⟨i, hi, rfl⟩ := hn
        exact ⟨i, hi, .inr hmark⟩
    · rintro ⟨i, hi, hwrite | hmark⟩
      · cases hwrite
      · refine ⟨bytePage vaddr i, ?_, hmark⟩
        rw [if_neg (by omega), mem_pagesOf vaddr (by omega)]
        exact ⟨i, hi, rfl⟩

/-- The effects of a scalar store, from the pages of the table. -/
def scalarEffects (h : Heap) (t : PageTable) {w : IntWidth} (vaddr : BitVec 64)
    (value : BitVec w.bits) :
    List Effect :=
  multibyteResult h t w vaddr
    (fun page offset => writeBytes page offset (toLeBytes value) ++ page.setDirty)
    (fun lo hi overflow => crossingWrites lo hi overflow (toLeBytes value) ++
      (lo.setDirty ++ hi.setDirty))

theorem length_toLeBytes {w : IntWidth} (value : BitVec w.bits) :
    (toLeBytes value).length = w.bytes := by
  unfold toLeBytes
  rw [List.length_map, List.length_range]

theorem mem_writeBytes_slice {page : Page} {offset : ℕ} {mem : List (BitVec 8)} {index count : ℕ}
    (hle : index + count ≤ mem.length) {e : Effect} :
    e ∈ writeBytes page offset ((mem.drop index).take count) ↔
      ∃ j < count, e = .write page (offset + j) (mem.getD (index + j) 0) := by
  rw [writeBytes_slice page offset hle, List.mem_map]
  constructor
  · rintro ⟨j, hj, rfl⟩
    exact ⟨j, List.mem_range.1 hj, rfl⟩
  · rintro ⟨j, hj, rfl⟩
    exact ⟨j, List.mem_range.2 hj, rfl⟩

/-- The bytes of a crossing store: those before the border and those after it. -/
theorem mem_crossingWrites {lo hi : Page} {spill : ℕ} {bytes : List (BitVec 8)}
    (hspill : spill ≤ bytes.length) {e : Effect} :
    e ∈ crossingWrites lo hi spill bytes ↔
      (∃ j < bytes.length - spill,
        e = .write lo (PAGE_SIZE - (bytes.length - spill) + j) (bytes.getD j 0)) ∨
      ∃ j < spill, e = .write hi j (bytes.getD (bytes.length - spill + j) 0) := by
  have htake : bytes.take (bytes.length - spill) = (bytes.drop 0).take (bytes.length - spill) := by
    rw [List.drop_zero]
  have hdrop : bytes.drop (bytes.length - spill) =
      (bytes.drop (bytes.length - spill)).take spill := by
    rw [List.take_of_length_le]
    rw [List.length_drop]
    omega
  unfold crossingWrites
  rw [List.mem_append, List.mem_reverse, List.mem_reverse, hdrop, htake,
    mem_writeBytes_slice (by omega), mem_writeBytes_slice (by omega), or_comm]
  simp only [Nat.zero_add]

theorem isStore_scalarEffects (h : Heap) (t : PageTable) {w : IntWidth} (vaddr : BitVec 64)
    (value : BitVec w.bits) :
    IsStore h t vaddr (toLeBytes value) (scalarEffects h t vaddr value) := by
  intro e
  unfold scalarEffects multibyteResult byteEffect
  have hlength := length_toLeBytes value
  have hpos := IntWidth.bytes_pos w
  have hlt := pageOffset_lt vaddr
  by_cases hcross : Crosses w vaddr
  · have hfirst : w.bytes - overflowAmount w vaddr = PAGE_SIZE - pageOffset vaddr :=
      (crossing_offset (IntWidth.bytes_le w) (pageOffset_lt vaddr) hcross 0).2
    have hspill : overflowAmount w vaddr ≤ w.bytes := Nat.sub_le _ _
    rw [if_pos hcross, List.mem_append, List.mem_append, mem_crossingWrites (by omega),
      hlength, hfirst]
    constructor
    · rintro ((⟨j, hj, rfl⟩ | ⟨j, hj, rfl⟩) | hmark | hmark)
      · refine ⟨j, lt_trans hj hcross, .inl ?_⟩
        rw [(bytePage_first vaddr hj).1, (bytePage_first vaddr hj).2]
        congr 1
        omega
      · have hj' : PAGE_SIZE - pageOffset vaddr + j < w.bytes := by omega
        refine ⟨PAGE_SIZE - pageOffset vaddr + j, hj', .inl ?_⟩
        rw [(bytePage_second vaddr (Nat.le_add_right _ _) hj').1,
          (bytePage_second vaddr (Nat.le_add_right _ _) hj').2, Nat.add_sub_cancel_left]
      · refine ⟨0, hpos, .inr ?_⟩
        rw [(bytePage_first vaddr (by omega)).1]
        exact hmark
      · refine ⟨PAGE_SIZE - pageOffset vaddr, hcross, .inr ?_⟩
        rw [(bytePage_second vaddr (le_refl _) hcross).1]
        exact hmark
    · rintro ⟨i, hi, hi'⟩
      by_cases hfst : i < PAGE_SIZE - pageOffset vaddr
      · rw [(bytePage_first vaddr hfst).1, (bytePage_first vaddr hfst).2] at hi'
        rcases hi' with rfl | hmark
        · refine .inl (.inl ⟨i, hfst, ?_⟩)
          congr 1
          omega
        · exact .inr (.inl hmark)
      · have hsnd := bytePage_second vaddr (Nat.le_of_not_lt hfst) hi
        rw [hsnd.1, hsnd.2] at hi'
        rcases hi' with rfl | hmark
        · refine .inl (.inr ⟨i - (PAGE_SIZE - pageOffset vaddr), by omega, ?_⟩)
          rw [Nat.add_sub_cancel' (Nat.le_of_not_lt hfst)]
        · exact .inr (.inr hmark)
  · have hin : ∀ i < w.bytes, i < PAGE_SIZE - pageOffset vaddr := by
      unfold Crosses at hcross
      omega
    have hslice :=
      @mem_writeBytes_slice (pageAt h t (PageNumber.fromVaddr vaddr)) (pageOffset vaddr)
      (toLeBytes value) 0 w.bytes (by omega) e
    rw [List.drop_zero, List.take_of_length_le (by omega)] at hslice
    rw [if_neg hcross, List.mem_append, hslice, hlength]
    constructor
    · rintro (⟨j, hj, rfl⟩ | hmark)
      · refine ⟨j, hj, .inl ?_⟩
        rw [(bytePage_first vaddr (hin j hj)).1, (bytePage_first vaddr (hin j hj)).2, Nat.zero_add]
      · refine ⟨0, hpos, .inr ?_⟩
        rw [(bytePage_first vaddr (hin 0 hpos)).1]
        exact hmark
    · rintro ⟨i, hi, hi'⟩
      rw [(bytePage_first vaddr (hin i hi)).1, (bytePage_first vaddr (hin i hi)).2] at hi'
      rcases hi' with rfl | hmark
      · refine .inl ⟨i, hi, ?_⟩
        rw [Nat.zero_add]
      · exact .inr hmark

theorem offset_injective {a i j : ℕ} (hi : i < 4096) (hj : j < 4096)
    (heq : (a + i) % 4096 = (a + j) % 4096) : i = j := by
  omega

/-- A store of at most one page stores to each place once. -/
theorem IsStore.once {t : PageTable} {vaddr : BitVec 64} {mem : List (BitVec 8)}
    {effects : List Effect} (hstore : IsStore h t vaddr mem effects) (hlen : mem.length ≤ PAGE_SIZE)
    {page page' : Page} {i : ℕ} {byte byte' : BitVec 8} (hmem : Effect.write page i byte ∈ effects)
    (hmem' : Effect.write page' i byte' ∈ effects) : byte = byte' := by
  have hplace : ∀ {page : Page} {byte : BitVec 8}, Effect.write page i byte ∈ effects →
      ∃ k < mem.length, byteOffset vaddr k = i ∧ mem.getD k 0 = byte := by
    intro page byte hmem
    obtain ⟨k, hk, hwrite | hmark⟩ := (hstore _).1 hmem
    · obtain ⟨-, rfl, rfl⟩ := Effect.write.inj hwrite
      exact ⟨k, hk, rfl, rfl⟩
    · cases setDirty_not_write hmark
  obtain ⟨k, hk, hoffset, rfl⟩ := hplace hmem
  obtain ⟨k', hk', hoffset', rfl⟩ := hplace hmem'
  have hsame : k = k' :=
    offset_injective (lt_of_lt_of_le hk hlen) (lt_of_lt_of_le hk' hlen)
      (hoffset.trans hoffset'.symm)
  rw [hsame]

theorem IsStore.apply_eq {t : PageTable} {vaddr : BitVec 64} {mem : List (BitVec 8)}
    {l l' : List Effect} (hl : IsStore h t vaddr mem l) (hl' : IsStore h t vaddr mem l')
    (hlen : mem.length ≤ PAGE_SIZE) : h.apply l = h.apply l' := by
  refine Heap.apply_congr (fun e => (hl e).trans (hl' e).symm) ?_
  intro page page' i byte byte' hmem hmem' _
  exact hl.once hlen hmem hmem'

theorem toLeBytes_byte (value : BitVec IntWidth.w8.bits) : toLeBytes value = [value] := by
  show [BitVec.extractLsb' 0 8 value] = [value]
  exact congrArg (fun byte => [byte]) BitVec.extractLsb'_eq_self

theorem returns_scalarStore {w : IntWidth} {vaddr : BitVec 64} (value : BitVec w.bits)
    (ha : BulkAllowed h mmu.table (some MemProt.WRITE) false vaddr w.bytes) :
    Returns (Consistent h mmu) (scalarStore h mmu vaddr value)
      (.ok (scalarEffects h mmu.table vaddr value)) := by
  have hmulti : Returns (Consistent h mmu) (storeLe h mmu vaddr value)
      (.ok (scalarEffects h mmu.table vaddr value)) := by
    rw [storeLe_eq]
    exact returns_multibyteAccess ha
  cases w with
  | w8 =>
    unfold scalarEffects multibyteResult
    rw [scalarStore_byte, if_neg (not_crosses_byte vaddr), toLeBytes_byte]
    exact returns_byteAccess ha
  | w16 => exact hmulti
  | w32 => exact hmulti
  | w64 => exact hmulti

theorem returns_scalarStore_fault {w : IntWidth} {vaddr : BitVec 64} (value : BitVec w.bits)
    (ha : ¬ BulkAllowed h mmu.table (some MemProt.WRITE) false vaddr w.bytes) :
    ∃ f, Returns (Consistent h mmu) (scalarStore h mmu vaddr value) (.error (.fault f)) := by
  have hmulti :
      ∃ f, Returns (Consistent h mmu) (storeLe h mmu vaddr value) (.error (.fault f)) := by
    rw [storeLe_eq]
    exact returns_multibyteAccess_fault ha
  cases w with
  | w8 =>
    rw [scalarStore_byte]
    exact returns_byteAccess_fault ha
  | w16 => exact hmulti
  | w32 => exact hmulti
  | w64 => exact hmulti

/-! ## Scalar and bulk accesses -/

/-- A scalar store on the heap: its effects follow the tests. -/
def scalarStoreInPlace (mmu : IoMMU) {w : IntWidth} (vaddr : BitVec 64) (value : BitVec w.bits) :
    InPlace Unit := do
  let effects ← onCache fun h => scalarStore h mmu vaddr value
  modify fun s => (s.1, s.2.apply effects)

theorem scalarStoreInPlace_spec {w : IntWidth} (vaddr : BitVec 64) (value : BitVec w.bits)
    {cache : Option Tlb} (hc : Consistent h mmu cache) :
    (BulkAllowed h mmu.table (some MemProt.WRITE) false vaddr w.bytes ∧
      ∃ cache', (scalarStoreInPlace mmu vaddr value).run.run (cache, h) =
        (.ok (), cache', h.apply (scalarEffects h mmu.table vaddr value))) ∨
    (¬ BulkAllowed h mmu.table (some MemProt.WRITE) false vaddr w.bytes ∧
      ∃ f cache', (scalarStoreInPlace mmu vaddr value).run.run (cache, h) =
        (.error (.fault f), cache', h)) := by
  by_cases ha : BulkAllowed h mmu.table (some MemProt.WRITE) false vaddr w.bytes
  · refine .inl ⟨ha, ((scalarStore h mmu vaddr value).run.run cache).2, ?_⟩
    rw [scalarStoreInPlace, run_bind, run_onCache, (returns_scalarStore value ha cache hc).1]
    rfl
  · obtain ⟨f, hf⟩ := returns_scalarStore_fault value ha
    refine .inr ⟨ha, f, ((scalarStore h mmu vaddr value).run.run cache).2, ?_⟩
    rw [scalarStoreInPlace, run_bind, run_onCache, (hf cache hc).1]

/-- A scalar access through one cache and the bulk access of its bytes through another
    have the same outcome, and a scalar store that fails changes nothing. -/
structure ScalarAgrees (h : Heap) (mmu : IoMMU) (cache cache' : Option Tlb) {w : IntWidth}
    (vaddr : BitVec 64) (value : BitVec w.bits) : Prop where
  load_ok : (∃ v, ((scalarLoad h mmu w vaddr).run.run cache).1 = .ok v) ↔
    ∃ bytes, ((load h mmu vaddr w.bytes (some MemProt.READ)).run.run cache').1 = .ok bytes
  load_value : ∀ v bytes, ((scalarLoad h mmu w vaddr).run.run cache).1 = .ok v →
    ((load h mmu vaddr w.bytes (some MemProt.READ)).run.run cache').1 = .ok bytes →
    v = fromLeBytes w bytes
  store_ok : ((scalarStoreInPlace mmu vaddr value).run.run (cache, h)).1 = .ok () ↔
    ((storeInPlace mmu vaddr (toLeBytes value) (some MemProt.WRITE)).run.run (cache', h)).1 = .ok ()
  store_heap : ((scalarStoreInPlace mmu vaddr value).run.run (cache, h)).1 = .ok () →
    ((scalarStoreInPlace mmu vaddr value).run.run (cache, h)).2.2 =
      ((storeInPlace mmu vaddr (toLeBytes value) (some MemProt.WRITE)).run.run (cache', h)).2.2
  store_failed : ∀ e, ((scalarStoreInPlace mmu vaddr value).run.run (cache, h)).1 = .error e →
    ((scalarStoreInPlace mmu vaddr value).run.run (cache, h)).2.2 = h

/-- Every page of the range is mapped, resident and grants writing, and one of them is
    copy-on-write. -/
def CowWritable (h : Heap) (t : PageTable) (vaddr : BitVec 64) (len : ℕ) : Prop :=
  vaddr.toNat + len ≤ 2 ^ 64 ∧
    (∀ i < len, t.Accessible h (some MemProt.WRITE) false (bytePage vaddr i)) ∧
    ∃ i < len, ∃ entry, t.get? (bytePage vaddr i) = some entry ∧ World.isCow entry = true

theorem Accessible.noCow {t : PageTable} {prot : Option MemProt} {n : PageNumber} :
    t.Accessible h prot true n ↔ t.Accessible h prot false n ∧
      ∀ entry, t.get? n = some entry → World.isCow entry = false := by
  constructor
  · rintro ⟨entry, hget, hsome, hprot, hcow⟩
    refine ⟨⟨entry, hget, hsome, hprot, fun hfalse => by cases hfalse⟩, ?_⟩
    intro entry' hget'
    obtain rfl := Option.some.inj (hget.symm.trans hget')
    exact hcow rfl
  · rintro ⟨⟨entry, hget, hsome, hprot, -⟩, hcow⟩
    exact ⟨entry, hget, hsome, hprot, fun _ => hcow entry hget⟩

/-- These are the ranges that a scalar store accepts and `store` refuses. -/
theorem cowWritable_iff {t : PageTable} {vaddr : BitVec 64} {len : ℕ} (hlen : 0 < len) :
    CowWritable h t vaddr len ↔ BulkAllowed h t (some MemProt.WRITE) false vaddr len ∧
      ¬ BulkAllowed h t (some MemProt.WRITE) true vaddr len := by
  have hzero : ¬ len = 0 := by omega
  unfold CowWritable BulkAllowed
  simp only [hzero, false_or, Accessible.noCow]
  constructor
  · rintro ⟨hwrap, hpages, i, hi, entry, hget, hcow⟩
    refine ⟨⟨hwrap, hpages⟩, fun hall => ?_⟩
    rw [(hall.2 i hi).2 entry hget] at hcow
    cases hcow
  · rintro ⟨⟨hwrap, hpages⟩, hno⟩
    refine ⟨hwrap, hpages, ?_⟩
    by_contra hnone
    push Not at hnone
    refine hno ⟨hwrap, fun i hi => ⟨hpages i hi, fun entry hget => ?_⟩⟩
    rw [← Bool.not_eq_true]
    exact hnone i hi entry hget

/-- Loads agree in any case. -/
theorem load_agrees {cache cache' : Option Tlb} (hc : Consistent h mmu cache)
    (hc' : Consistent h mmu cache') (w : IntWidth) (vaddr : BitVec 64) :
    ((∃ v, ((scalarLoad h mmu w vaddr).run.run cache).1 = .ok v) ↔
      ∃ bytes, ((load h mmu vaddr w.bytes (some MemProt.READ)).run.run cache').1 = .ok bytes) ∧
    ∀ v bytes, ((scalarLoad h mmu w vaddr).run.run cache).1 = .ok v →
      ((load h mmu vaddr w.bytes (some MemProt.READ)).run.run cache').1 = .ok bytes →
      v = fromLeBytes w bytes := by
  have hsize : w.bytes < 2 ^ 64 := lt_of_le_of_lt (IntWidth.bytes_le w) (by decide)
  have hhits : HitsAgree (SameAccess h) Set.univ h mmu cache' := hc'.hitsAgree
  have hexact := loadExact hhits false vaddr hsize fun i _ => Set.mem_univ _
  by_cases ha : BulkAllowed h mmu.table (some MemProt.READ) false vaddr w.bytes
  · have hrun := (returns_scalarLoad ha cache hc).1
    refine ⟨⟨fun _ => hexact.ok_iff.2 ha, fun _ => ⟨_, hrun⟩⟩, fun v bytes hv hbytes => ?_⟩
    rw [hrun] at hv
    rw [hexact.bytes bytes hbytes, ← Except.ok.inj hv]
  · obtain ⟨f, hf⟩ := returns_scalarLoad_fault ha
    have hrun := (hf cache hc).1
    refine ⟨⟨fun ⟨v, hv⟩ => ?_, fun hok => absurd (hexact.ok_iff.1 hok) ha⟩, fun v bytes hv _ => ?_⟩
    · rw [hrun] at hv
      cases hv
    · rw [hrun] at hv
      cases hv

/-- Scalar and bulk accesses agree, unless the pages of the access grant writing while
    one of them is copy-on-write: `store` refuses these and a scalar store does not. -/
theorem scalar_agrees_iff {h : Heap} {mmu : IoMMU} {cache cache' : Option Tlb}
    (hc : Consistent h mmu cache) (hc' : Consistent h mmu cache') {w : IntWidth} (vaddr : BitVec 64)
    (value : BitVec w.bits) :
    ScalarAgrees h mmu cache cache' vaddr value ↔ ¬ CowWritable h mmu.table vaddr w.bytes := by
  have hlength := length_toLeBytes value
  have hsize : w.bytes ≤ PAGE_SIZE := le_trans (IntWidth.bytes_le w) (by decide)
  have hbulk := @storeInPlace_consistent h mmu vaddr (toLeBytes value) (some MemProt.WRITE)
    (by rw [hlength]; exact lt_of_le_of_lt hsize (by decide)) cache' hc'
  rw [hlength] at hbulk
  obtain ⟨hload_ok, hload_value⟩ := load_agrees hc hc' w vaddr
  rw [cowWritable_iff (IntWidth.bytes_pos w)]
  obtain ⟨ha, c, hrun⟩ | ⟨ha, f, c, hrun⟩ := scalarStoreInPlace_spec vaddr value hc
  · obtain ⟨hok, c', hrun'⟩ | ⟨hno, f, c', hrun'⟩ := hbulk
    · -- both store
      refine ⟨fun _ hcow => hcow.2 hok, fun _ => ⟨hload_ok, hload_value, ?_, ?_, ?_⟩⟩
      · rw [hrun, hrun']
      · rw [hrun, hrun']
        exact fun _ => (isStore_scalarEffects h mmu.table vaddr value).apply_eq
          (isStore_bulkEffects h mmu.table vaddr _) (by rw [hlength]; exact hsize)
      · rw [hrun]
        intro e he
        cases he
    · -- the scalar store alone
      refine ⟨fun hagrees => ?_, fun hcow => absurd ⟨ha, hno⟩ hcow⟩
      have hstore := hagrees.store_ok
      rw [hrun, hrun'] at hstore
      cases hstore.1 rfl
  · -- neither: what `store` may access a scalar store may, too
    have hno : ¬ BulkAllowed h mmu.table (some MemProt.WRITE) true vaddr w.bytes := by
      rintro (hzero | ⟨hwrap, hpages⟩)
      · exact ha (.inl hzero)
      · exact ha (.inr ⟨hwrap, fun i hi => (Accessible.noCow.1 (hpages i hi)).1⟩)
    obtain ⟨-, f', c', hrun'⟩ := hbulk.resolve_left fun hok => hno hok.1
    refine ⟨fun _ hcow => ha hcow.1, fun _ => ⟨hload_ok, hload_value, ?_, ?_, ?_⟩⟩
    · rw [hrun, hrun']
      refine ⟨fun hok => ?_, fun hok => ?_⟩ <;> cases hok
    · rw [hrun]
      intro hok
      cases hok
    · rw [hrun]
      exact fun _ _ => rfl

/-- A crossing access on two plain pages. -/
theorem scalar_agrees_twoPages :
    Consistent twoPages.1 twoPages.2 (some Tlb.new) ∧ Consistent twoPages.1 twoPages.2 none ∧
      ScalarAgrees twoPages.1 twoPages.2 (some Tlb.new) none (w := .w32) 20478 0x04030201 := by
  have hc : Consistent twoPages.1 twoPages.2 (some Tlb.new) := by
    intro tlb htlb n page hhit
    obtain rfl := Option.some.inj htlb
    cases Tlb.hit_eq_some hhit
  have hplain : ∀ i < 4, (twoPages.2.table.get? (bytePage 20478 i)).any World.isCow = false := by
    decide
  refine ⟨hc, consistent_noCache, (scalar_agrees_iff hc consistent_noCache 20478 0x04030201).2 ?_⟩
  rintro ⟨-, -, i, hi, entry, hget, hcow⟩
  have hfalse := hplain i hi
  rw [hget] at hfalse
  rw [Option.any_some, hcow] at hfalse
  cases hfalse

/-- After a lazy mapping `store_byte` succeeds where `store` of the byte fails. -/
theorem storeByte_through_cow :
    ¬ ∀ calls m mmu, (World.init.run calls).mmu? m = some mmu →
      ∀ cache cache', Consistent (World.init.run calls).heap mmu cache →
        Consistent (World.init.run calls).heap mmu cache' →
        ∀ (w : IntWidth) (vaddr : BitVec 64) (value : BitVec w.bits),
          ScalarAgrees (World.init.run calls).heap mmu cache cache' vaddr value := by
  intro hclaim
  have hagrees :=
    hclaim (mapLazily.zipIdx 0) 0 _ rfl none none consistent_noCache consistent_noCache
    .w8 0 1
  have hstore := hagrees.store_ok
  revert hstore
  decide

end RapidArm.Mmu
