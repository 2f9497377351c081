import RapidArm.Mmu.Scalar
import RapidArm.Mmu.Fill

/-!
# Scalar accesses that hit

A scalar access (`io-mmu/src/lib.rs`, lines 847–1214) that finds its page in the TLB and does not
cross into another one tests the permission of that page, and leaves the TLB as it is. The table is
not read.

Results:
* `scalarLoad_hit`, `scalarStore_hit`: an aligned access of a page that is in the TLB.
* `inlineStore_eq_scalarStore`: the store that the JIT emits inline is the scalar store, with every
  TLB whose page numbers exist.
* `faults_scalarLoad`, `faults_scalarStore`: through a TLB no scalar access is aborted.
-/

namespace RapidArm.Mmu

open RapidArm.Ir RapidArm.Lib

section Hit

variable {h : Heap} {mmu : IoMMU} {tlb : Tlb} {w : IntWidth} {vaddr : BitVec 64} {page : Page}

/-- An aligned access does not cross: every width divides the size of a page. -/
theorem not_crosses_of_aligned (haligned : vaddr.toNat % w.bytes = 0) : ¬ Crosses w vaddr := by
  have hdivides : pageOffset vaddr % w.bytes = vaddr.toNat % w.bytes := by
    refine Nat.mod_mod_of_dvd _ ?_
    cases w <;> decide
  have hlt : pageOffset vaddr < 4096 := pageOffset_lt vaddr
  rw [haligned] at hdivides
  cases w with
  | w8 => exact not_crosses_byte vaddr
  | w16 =>
    have hmod : pageOffset vaddr % 2 = 0 := hdivides
    show ¬ 2 > 4096 - pageOffset vaddr
    omega
  | w32 =>
    have hmod : pageOffset vaddr % 4 = 0 := hdivides
    show ¬ 4 > 4096 - pageOffset vaddr
    omega
  | w64 =>
    have hmod : pageOffset vaddr % 8 = 0 := hdivides
    show ¬ 8 > 4096 - pageOffset vaddr
    omega

/-- The result of an access to a page that grants it or does not. -/
def granted {α : Type} (vaddr : BitVec 64) (grants : Bool) (result : α) : Except Failure α :=
  if grants then .ok result else .error (.fault (.generalProtection vaddr))

variable {α : Type} {prot : MemProt} {inside : Page → ℕ → α} {crossing : Page → Page → ℕ → α}

theorem returns_granted {I : Option Tlb → Prop} (grants : Bool) (result : α) :
    Returns I (ensure vaddr grants >>= fun _ => pure result) (granted vaddr grants result) := by
  cases grants with
  | true => exact (returns_ensure rfl).bind Returns.pure
  | false => exact (returns_ensure_fault rfl).bind_error

theorem returns_byteAccess_hit
    (hhit : tlb.hit (PageNumber.fromVaddr vaddr) mmu.identifier = some page) :
    Returns (· = some tlb) (byteAccess h mmu vaddr prot inside)
      (granted vaddr (page.flags.containsAny (MemFlags.fromProt prot))
        (inside page (pageOffset vaddr))) := by
  have hresolve : Returns (· = some tlb) (resolveAlignedScalarAccess h mmu 1 vaddr)
      (.ok (page, pageOffset vaddr)) :=
    (returns_ensure (by simp [Nat.mod_one])).bind ((returns_hit hhit).bind Returns.pure)
  exact hresolve.bind (returns_granted _ _)

theorem returns_multibyteAccess_hit
    (hhit : tlb.hit (PageNumber.fromVaddr vaddr) mmu.identifier = some page)
    (hin : ¬ Crosses w vaddr) :
    Returns (· = some tlb) (multibyteAccess h mmu w vaddr prot inside crossing)
      (granted vaddr (page.flags.containsAny (MemFlags.fromProt prot))
        (inside page (pageOffset vaddr))) := by
  have hsmall : Returns (· = some tlb) (staticSmallMultibyteAccess h mmu w.bytes vaddr)
      (.ok ⟨page, pageOffset vaddr, none⟩) := by
    refine (returns_hit hhit).bind ?_
    rw [if_neg hin]
    exact Returns.pure
  exact hsmall.bind (returns_granted _ _)

/-- What an access returns from this TLB, which it leaves as it is. -/
theorem Returns.run_eq {x : Access α} {r : Except Failure α} (hx : Returns (· = some tlb) x r) :
    x (some tlb) = (r, some tlb) := by
  obtain ⟨hr, htlb⟩ := hx (some tlb) rfl
  exact Prod.ext hr htlb

/-- An aligned load of a page in the TLB. -/
theorem scalarLoad_hit (hhit : tlb.hit (PageNumber.fromVaddr vaddr) mmu.identifier = some page)
    (haligned : vaddr.toNat % w.bytes = 0) :
    scalarLoad h mmu w vaddr (some tlb) =
      (granted vaddr (page.flags.containsAny MemFlags.READ)
        (loadLeAt w (h.mem page.ptr) (pageOffset vaddr)), some tlb) := by
  refine Returns.run_eq ?_
  have hmulti : Returns (· = some tlb) (loadLe h mmu w vaddr)
      (granted vaddr (page.flags.containsAny MemFlags.READ)
        (loadLeAt w (h.mem page.ptr) (pageOffset vaddr))) := by
    rw [loadLe_eq]
    exact returns_multibyteAccess_hit hhit (not_crosses_of_aligned haligned)
  cases w with
  | w8 =>
    rw [scalarLoad_byte, loadLeAt_byte]
    exact returns_byteAccess_hit hhit
  | w16 | w32 | w64 => exact hmulti

/-- An aligned store to a page in the TLB. -/
theorem scalarStore_hit (hhit : tlb.hit (PageNumber.fromVaddr vaddr) mmu.identifier = some page)
    (haligned : vaddr.toNat % w.bytes = 0) (value : BitVec w.bits) :
    scalarStore h mmu vaddr value (some tlb) =
      (granted vaddr (page.flags.containsAny MemFlags.WRITE)
        (writeBytes page (pageOffset vaddr) (toLeBytes value) ++ page.setDirty), some tlb) := by
  refine Returns.run_eq ?_
  have hmulti : Returns (· = some tlb) (storeLe h mmu vaddr value)
      (granted vaddr (page.flags.containsAny MemFlags.WRITE)
        (writeBytes page (pageOffset vaddr) (toLeBytes value) ++ page.setDirty)) := by
    rw [storeLe_eq]
    exact returns_multibyteAccess_hit hhit (not_crosses_of_aligned haligned)
  cases w with
  | w8 =>
    rw [scalarStore_byte, toLeBytes_byte]
    exact returns_byteAccess_hit hhit
  | w16 | w32 | w64 => exact hmulti

/-- The inline store does what the scalar store does. -/
theorem inlineStore_eq_scalarStore
    (hbound : ∀ i entry, tlb i = some entry → entry.virtualPageNumber ≤ PageNumber.MAX)
    (value : BitVec w.bits) :
    inlineStore h mmu vaddr value (some tlb) = scalarStore h mmu vaddr value (some tlb) := by
  have hprobe : (some tlb).bind (fun tlb => inlineHit mmu tlb vaddr) = inlineHit mmu tlb vaddr :=
    rfl
  unfold inlineStore
  rw [hprobe]
  cases hhit : inlineHit mmu tlb vaddr with
  | none => rfl
  | some page =>
    by_cases haligned : vaddr.toNat % w.bytes = 0
    · rw [scalarStore_hit (hit_of_inlineHit hbound hhit) haligned]
      simp only [haligned, granted]
      split_ifs <;> rfl
    · simp only [haligned, if_false]

end Hit

/-! ## Failures -/

section Faults

variable (h : Heap) (mmu : IoMMU) {α : Type}

/-- The failure is a fault and no abort. -/
def Failure.IsFault (e : Failure) : Prop := ∃ f, e = .fault f

theorem faults_getPage (n : PageNumber) :
    Ends Cached (getPage h mmu n) (fun _ => True) Failure.IsFault := by
  rintro _ ⟨tlb, rfl⟩
  cases hhit : tlb.hit n mmu.identifier with
  | some page =>
    rw [getPage_hit hhit]
    exact ⟨⟨_, rfl⟩, trivial⟩
  | none =>
    cases hpage : mmu.table.getPage h n with
    | ok page =>
      rw [getPage_miss hhit hpage]
      exact ⟨⟨_, rfl⟩, trivial⟩
    | error f =>
      rw [getPage_fault hhit hpage]
      exact ⟨⟨_, rfl⟩, f, rfl⟩

theorem faults_ensure {I : Option Tlb → Prop} (vaddr : BitVec 64) (c : Bool) :
    Ends I (ensure vaddr c) (fun _ => True) Failure.IsFault :=
  Ends.ite (fun _ => Ends.pure trivial) fun _ => Ends.throw ⟨_, rfl⟩

variable {w : IntWidth} {vaddr : BitVec 64} {prot : MemProt} {inside : Page → ℕ → α}
  {crossing : Page → Page → ℕ → α}

theorem faults_byteAccess :
    Ends Cached (byteAccess h mmu vaddr prot inside) (fun _ => True) Failure.IsFault := by
  have hresolve :
      Ends Cached (resolveAlignedScalarAccess h mmu 1 vaddr) (fun _ => True) Failure.IsFault :=
    (faults_ensure _ _).bind fun _ _ => (faults_getPage h mmu _).bind fun _ _ => Ends.pure trivial
  exact hresolve.bind fun _ _ => (faults_ensure _ _).bind fun _ _ => Ends.pure trivial

theorem faults_smallAccess (bytes : ℕ) :
    Ends Cached (staticSmallMultibyteAccess h mmu bytes vaddr) (fun _ => True) Failure.IsFault := by
  refine (faults_getPage h mmu _).bind fun basePage _ => Ends.ite (fun _ => ?_) fun _ =>
    Ends.pure trivial
  cases (PageNumber.fromVaddr vaddr).inc with
  | none => exact Ends.throw ⟨_, rfl⟩
  | some secondPageNum => exact (faults_getPage h mmu _).bind fun _ _ => Ends.pure trivial

theorem faults_multibyteAccess :
    Ends Cached (multibyteAccess h mmu w vaddr prot inside crossing) (fun _ =>
      True) Failure.IsFault := by
  refine (faults_smallAccess h mmu _).bind fun access _ => ?_
  cases access.secondPage with
  | none => exact (faults_ensure _ _).bind fun _ _ => Ends.pure trivial
  | some second =>
    exact (faults_ensure _ _).bind fun _ _ => (faults_ensure _ _).bind fun _ _ => Ends.pure trivial

theorem faults_scalarLoad (w : IntWidth) (vaddr : BitVec 64) :
    Ends Cached (scalarLoad h mmu w vaddr) (fun _ => True) Failure.IsFault := by
  have hmulti : Ends Cached (loadLe h mmu w vaddr) (fun _ => True) Failure.IsFault := by
    rw [loadLe_eq]
    exact faults_multibyteAccess h mmu
  cases w with
  | w8 =>
    rw [scalarLoad_byte]
    exact faults_byteAccess h mmu
  | w16 | w32 | w64 => exact hmulti

theorem faults_scalarStore (vaddr : BitVec 64) (value : BitVec w.bits) :
    Ends Cached (scalarStore h mmu vaddr value) (fun _ => True) Failure.IsFault := by
  have hmulti : Ends Cached (storeLe h mmu vaddr value) (fun _ => True) Failure.IsFault := by
    rw [storeLe_eq]
    exact faults_multibyteAccess h mmu
  cases w with
  | w8 =>
    rw [scalarStore_byte]
    exact faults_byteAccess h mmu
  | w16 | w32 | w64 => exact hmulti

/-- Through a TLB an access returns a result or a fault, and the TLB. -/
theorem run_cached {x : Access α} (hx : Ends Cached x (fun _ => True) Failure.IsFault) (tlb : Tlb) :
    ∃ tlb', (∃ a, x (some tlb) = (.ok a, some tlb')) ∨ ∃ f,
      x (some tlb) = (.error (.fault f), some tlb') := by
  obtain ⟨⟨tlb', hcache⟩, hend⟩ := hx (some tlb) ⟨tlb, rfl⟩
  refine ⟨tlb', ?_⟩
  have hcache' : (x (some tlb)).2 = some tlb' := hcache
  cases hrun : (x (some tlb)).1 with
  | ok a => exact .inl ⟨a, Prod.ext hrun hcache'⟩
  | error e =>
    have hend' : Failure.IsFault e := by
      rw [show (x.run.run (some tlb)).1 = .error e from hrun] at hend
      exact hend
    obtain ⟨f, rfl⟩ := hend'
    exact .inr ⟨f, Prod.ext hrun hcache'⟩

end Faults

end RapidArm.Mmu
