import RapidArm.Mmu.Access

/-!
# Filled entries

A lookup that misses resolves the page and fills the entry (`Tlb::lookup`,
`emu-abi/src/memory.rs`, lines 674–713). A crossing access looks up a second page afterwards, which
has another entry.

Results:
* `scalarLoad_fills`, `scalarStore_fills`: a scalar access that succeeds has filled the entry of its
  address, and has not evicted it.
-/

namespace RapidArm.Mmu

open RapidArm.Ir RapidArm.Lib

section Fill

variable (h : Heap) (mmu : IoMMU)

/-- The access is through a TLB. -/
def Cached (cache : Option Tlb) : Prop := ∃ tlb, cache = some tlb

/-- The access is through a TLB that holds page `n`. -/
def Filled (n : PageNumber) (cache : Option Tlb) : Prop :=
  ∃ tlb page, cache = some tlb ∧ tlb.hit n mmu.identifier = some page

theorem hit_updateEntry (tlb : Tlb) (n : PageNumber) (ident : Token) (page : Page) :
    (tlb.updateEntry n ident page).hit n ident = some page := by
  unfold Tlb.hit Tlb.updateEntry
  rw [Function.update_self]
  exact if_pos ⟨rfl, rfl⟩

theorem hit_updateEntry_of_ne {tlb : Tlb} {n m : PageNumber} {ident : Token} {page : Page}
    (hne : Tlb.index n ≠ Tlb.index m) :
    (tlb.updateEntry m ident page).hit n ident = tlb.hit n ident := by
  unfold Tlb.hit Tlb.updateEntry
  rw [Function.update_of_ne hne]

/-! ## Lookups through a TLB -/

section

variable {h mmu} {tlb : Tlb} {n : PageNumber} {page : Page}

theorem getPage_hit (hhit : tlb.hit n mmu.identifier = some page) :
    (getPage h mmu n).run.run (some tlb) = (.ok page, some tlb) := by
  show getPage h mmu n (some tlb) = _
  simp only [getPage, hhit]

theorem getPage_miss (hhit : tlb.hit n mmu.identifier = none)
    (hpage : mmu.table.getPage h n = .ok page) :
    (getPage h mmu n).run.run
    (some tlb) = (.ok page, some (tlb.updateEntry n mmu.identifier page)) := by
  show getPage h mmu n (some tlb) = _
  simp only [getPage, hhit, hpage]

theorem getPage_fault (hhit : tlb.hit n mmu.identifier = none) {f : MemoryFault}
    (hpage : mmu.table.getPage h n = .error f) :
    (getPage h mmu n).run.run (some tlb) = (.error (.fault f), some tlb) := by
  show getPage h mmu n (some tlb) = _
  simp only [getPage, hhit, hpage]

end

theorem getPage_fills (n : PageNumber) : Establishes Cached (Filled mmu n) (getPage h mmu n) := by
  rintro _ ⟨tlb, rfl⟩ page hok
  cases hhit : tlb.hit n mmu.identifier with
  | some found =>
    rw [getPage_hit hhit]
    exact ⟨tlb, found, rfl, hhit⟩
  | none =>
    cases hpage : mmu.table.getPage h n with
    | ok found =>
      rw [getPage_miss hhit hpage]
      exact ⟨_, found, rfl, hit_updateEntry tlb n _ found⟩
    | error f =>
      rw [getPage_fault hhit hpage] at hok
      cases hok

/-- The second page of a crossing access has another entry than the first one. -/
theorem index_inc {n m : PageNumber} (hinc : n.inc = some m) : Tlb.index n ≠ Tlb.index m := by
  have hm : m = n + 1 := by
    unfold PageNumber.inc at hinc
    split_ifs at hinc
    exact (Option.some.inj hinc).symm
  unfold Tlb.index TLB_SIZE
  rw [hm]
  lia

theorem getPage_keeps_filled {n m : PageNumber} (hne : Tlb.index n ≠ Tlb.index m) :
    Keeps (Filled mmu n) (getPage h mmu m) fun _ => True := by
  rintro _ ⟨tlb, page, rfl, hhit⟩
  refine ⟨?_, fun _ _ => trivial⟩
  cases hhit' : tlb.hit m mmu.identifier with
  | some found =>
    rw [getPage_hit hhit']
    exact ⟨tlb, page, rfl, hhit⟩
  | none =>
    cases hpage : mmu.table.getPage h m with
    | ok found =>
      rw [getPage_miss hhit' hpage]
      exact ⟨_, page, rfl, (hit_updateEntry_of_ne hne).trans hhit⟩
    | error f =>
      rw [getPage_fault hhit' hpage]
      exact ⟨tlb, page, rfl, hhit⟩

theorem ensure_keeps {I : Option Tlb → Prop} (vaddr : BitVec 64) (c : Bool) :
    Keeps I (ensure vaddr c) fun _ => True :=
  Keeps.ite (fun _ => Keeps.pure trivial) fun _ => Keeps.throw

variable {h mmu} {vaddr : BitVec 64}

theorem resolveAligned_fills (size : ℕ) :
    Establishes Cached (Filled mmu (PageNumber.fromVaddr vaddr))
      (resolveAlignedScalarAccess h mmu size vaddr) := by
  refine Establishes.after (ensure_keeps _ _) fun _ => ?_
  exact (getPage_fills h mmu _).bind fun page => Keeps.pure trivial

theorem smallMultibyte_fills (bytes : ℕ) :
    Establishes Cached (Filled mmu (PageNumber.fromVaddr vaddr))
      (staticSmallMultibyteAccess h mmu bytes vaddr) := by
  refine (getPage_fills h mmu _).bind fun page => ?_
  refine Keeps.ite (fun _ => ?_) fun _ => Keeps.pure trivial
  cases hinc : (PageNumber.fromVaddr vaddr).inc with
  | none => exact Keeps.throw
  | some second =>
    exact (getPage_keeps_filled h mmu (index_inc hinc)).bind fun page' _ => Keeps.pure trivial

/-- A scalar load that succeeds has filled the entry of its address. -/
theorem scalarLoad_fills (w : IntWidth) :
    Establishes Cached (Filled mmu (PageNumber.fromVaddr vaddr)) (scalarLoad h mmu w vaddr) := by
  have hle :
      Establishes Cached (Filled mmu (PageNumber.fromVaddr vaddr)) (loadLe h mmu w vaddr) := by
    refine (smallMultibyte_fills w.bytes).bind fun access => ?_
    cases access.secondPage with
    | none => exact (ensure_keeps _ _).bind fun _ _ => Keeps.pure trivial
    | some second =>
      exact (ensure_keeps _ _).bind fun _ _ => (ensure_keeps _ _).bind fun _ _ => Keeps.pure trivial
  cases w with
  | w8 =>
    exact (resolveAligned_fills 1).bind fun p => (ensure_keeps _ _).bind fun _ _ =>
      Keeps.pure trivial
  | w16 | w32 | w64 => exact hle

/-- So has a scalar store. -/
theorem scalarStore_fills {w : IntWidth} (value : BitVec w.bits) :
    Establishes Cached (Filled mmu (PageNumber.fromVaddr vaddr))
      (scalarStore h mmu vaddr value) := by
  have hle :
      Establishes Cached (Filled mmu (PageNumber.fromVaddr vaddr)) (storeLe h mmu vaddr value) := by
    refine (smallMultibyte_fills w.bytes).bind fun access => ?_
    cases access.secondPage with
    | none => exact (ensure_keeps _ _).bind fun _ _ => Keeps.pure trivial
    | some second =>
      exact (ensure_keeps _ _).bind fun _ _ => (ensure_keeps _ _).bind fun _ _ => Keeps.pure trivial
  cases w with
  | w8 =>
    exact (resolveAligned_fills 1).bind fun p => (ensure_keeps _ _).bind fun _ _ =>
      Keeps.pure trivial
  | w16 | w32 | w64 => exact hle

end Fill

end RapidArm.Mmu
