import RapidArm.Mmu.Scalar
import Mathlib.Tactic.IntervalCases

/-!
# Unaligned scalar accesses to guest memory

`io-mmu/src/memops.rs`: an aligned access is one atomic access, an unaligned one is
taken apart into aligned accesses by a case table over the remainder of the address,
whose parts `combine_ne_parts!` shifts together and `split_ne_parts!` shifts apart. What
the source may assume and does not check (an atomic access is aligned, a shift is less
than the width, the match on the remainder is exhaustive) is `none` here, and so is a
failed `const` assertion. The backend for `miri` is not modelled.

Memory is a map from addresses to bytes. A pointer is valid for the bytes it accesses,
so that addresses do not wrap.

Results:
* `loadNe_run`, `storeNe_run`: an access of any alignment is the access of its bytes, by
  aligned parts that follow each other.
* `unaligned_scalar_access_exact`: the same of all four operations, with the round trip.
-/

namespace RapidArm.Memops

open RapidArm.Ir RapidArm.Mmu

/-! ## Memory -/

/-- `target_endian`. -/
inductive Endian
  | little
  | big
  deriving DecidableEq, Repr

/-- An access to guest memory: a load or a store of a width at an address. -/
structure MemoryAccess where
  isStore : Bool
  addr : ℕ
  width : IntWidth
  deriving DecidableEq, Repr

/-- The bytes of an access. -/
def MemoryAccess.bytes (access : MemoryAccess) : List ℕ :=
  List.range' access.addr access.width.bytes

/-- The memory, with the accesses made to it so far. -/
structure Memory where
  mem : ℕ → BitVec 8
  accesses : List MemoryAccess

/-- An operation on memory. -/
abbrev MemOp := StateT Memory Option

/-- The memory after `count` bytes were written at `addr`. -/
def writeAt (mem : ℕ → BitVec 8) (addr count : ℕ) (bytes : ℕ → BitVec 8) : ℕ → BitVec 8 := fun a =>
  if addr ≤ a ∧ a < addr + count then bytes (a - addr) else mem a

/-- How significant the byte at offset `i` of a value of `n` bytes is. -/
def Endian.place (e : Endian) (n i : ℕ) : ℕ :=
  match e with
  | .little => i
  | .big => n - 1 - i

/-- The native-endian value of some bytes (`from_ne_bytes`). -/
def fromNeBytes (e : Endian) (w : IntWidth) (bytes : ℕ → BitVec 8) : BitVec w.bits :=
  loadLeAt w (fun i => bytes (e.place w.bytes i)) 0

/-- The native-endian bytes of a value (`to_ne_bytes`). -/
def toNeBytes (e : Endian) {w : IntWidth} (value : BitVec w.bits) (i : ℕ) : BitVec 8 :=
  value.extractLsb' (8 * e.place w.bytes i) 8

/-- `swap_bytes`. -/
def swapBytes {w : IntWidth} (value : BitVec w.bits) : BitVec w.bits :=
  fromNeBytes .big w (toNeBytes .little value)

/-- `from_le` and `to_le`, which are one function. -/
def Endian.fromLe (e : Endian) {w : IntWidth} (value : BitVec w.bits) : BitVec w.bits :=
  match e with
  | .little => value
  | .big => swapBytes value

/-! ## Aligned accesses -/

/-- `loadN_ne_aligned_inner` and `load8`: an atomic load, of an aligned address. -/
def loadNeAlignedInner (e : Endian) (w : IntWidth) (ptr : ℕ) : MemOp (BitVec w.bits) := fun m =>
  if ptr % w.bytes = 0 then
    some (fromNeBytes e w fun i => m.mem (ptr + i),
      { m with accesses := m.accesses ++ [⟨false, ptr, w⟩] })
  else none

/-- `storeN_ne_aligned_inner` and `store8`. -/
def storeNeAlignedInner (e : Endian) {w : IntWidth} (ptr : ℕ) (value : BitVec w.bits) :
    MemOp Unit := fun m =>
  if ptr % w.bytes = 0 then
    some ((), { mem := writeAt m.mem ptr w.bytes (toNeBytes e value),
                accesses := m.accesses ++ [⟨true, ptr, w⟩] })
  else none

/-! ## Parts -/

def strictSub (a b : ℕ) : Option ℕ := if b ≤ a then some (a - b) else none

/-- `ne_part_shift_inner`. -/
def nePartShiftInner (e : Endian) (offset width total : ℕ) : Option ℕ :=
  match e with
  | .little => some offset
  | .big => do strictSub (← strictSub total offset) width

/-- `ne_part_shift` for a type of width `ty`. -/
def nePartShift (e : Endian) (ty : IntWidth) (offset width : ℕ) : Option ℕ := do
  let shift ← nePartShiftInner e offset width ty.bytes
  guard (shift < ty.bytes)
  return shift * 8

/-- `unchecked_shl`. -/
def uncheckedShl {n : ℕ} (value : BitVec n) (shift : ℕ) : Option (BitVec n) := do
  guard (shift < n)
  return value <<< shift

/-- `unchecked_shr`. -/
def uncheckedShr {n : ℕ} (value : BitVec n) (shift : ℕ) : Option (BitVec n) := do
  guard (shift < n)
  return value >>> shift

/-- The `@fold` steps of `combine_ne_parts!` and `split_ne_parts!`: the parts with their
    offsets, and the total of the widths. -/
def foldParts (off : ℕ) : List IntWidth → List (IntWidth × ℕ) × ℕ
  | [] => ([], off)
  | width :: rest =>
    let (folded, total) := foldParts (off + width.bytes) rest
    ((width, off) :: folded, total)

/-- The limbs that `combine_ne_parts!` combines with `|`. -/
def combineLimbs (e : Endian) (ty : IntWidth) (ptr : ℕ) :
    List (IntWidth × ℕ) → MemOp (BitVec ty.bits)
  | [] => return 0
  | (width, offset) :: rest => do
    let limb ← loadNeAlignedInner e width (ptr + offset)
    let limb ← uncheckedShl (limb.setWidth ty.bits) (← nePartShift e ty offset width.bytes)
    return limb ||| (← combineLimbs e ty ptr rest)

/-- `combine_ne_parts!`. -/
def combineNeParts (e : Endian) (ty : IntWidth) (ptr : ℕ) (parts : List IntWidth) :
    MemOp (BitVec ty.bits) := do
  let (folded, total) := foldParts 0 parts
  guard (total = ty.bytes)
  combineLimbs e ty ptr folded

/-- The stores of `split_ne_parts!`. -/
def splitLimbs (e : Endian) {ty : IntWidth} (ptr : ℕ) (value : BitVec ty.bits) :
    List (IntWidth × ℕ) → MemOp Unit
  | [] => return ()
  | (width, offset) :: rest => do
    let limb ← uncheckedShr value (← nePartShift e ty offset width.bytes)
    storeNeAlignedInner e (ptr + offset) (limb.setWidth width.bits)
    splitLimbs e ptr value rest

/-- `split_ne_parts!`. -/
def splitNeParts (e : Endian) {ty : IntWidth} (ptr : ℕ) (value : BitVec ty.bits)
    (parts : List IntWidth) :
    MemOp Unit := do
  let (folded, total) := foldParts 0 parts
  guard (total = ty.bytes)
  splitLimbs e ptr value folded

/-- The cases of `make_unaligned_ne_access!` (lines 774–935): the parts by the remainder
    of the address. The match of the source on any other remainder is unreachable. -/
def unalignedParts : IntWidth → ℕ → Option (List IntWidth)
  | .w64, 4 => some [.w32, .w32]
  | .w64, 2 | .w64, 6 => some [.w16, .w32, .w16]
  | .w64, 1 | .w64, 5 => some [.w8, .w16, .w32, .w8]
  | .w64, 3 | .w64, 7 => some [.w8, .w32, .w16, .w8]
  | .w32, 2 => some [.w16, .w16]
  | .w32, 1 | .w32, 3 => some [.w8, .w16, .w8]
  | .w16, 1 => some [.w8, .w8]
  | _, _ => none

/-- `loadN_ne`; for a byte, whose address is always aligned, `load_byte`. -/
def loadNe (e : Endian) (w : IntWidth) (ptr : ℕ) : MemOp (BitVec w.bits) := do
  if ptr % w.bytes = 0 then loadNeAlignedInner e w ptr
  else combineNeParts e w ptr (← unalignedParts w (ptr % w.bytes))

/-- `storeN_ne` and `store_byte`. -/
def storeNe (e : Endian) {w : IntWidth} (ptr : ℕ) (value : BitVec w.bits) : MemOp Unit := do
  if ptr % w.bytes = 0 then storeNeAlignedInner e ptr value
  else splitNeParts e ptr value (← unalignedParts w (ptr % w.bytes))

/-- `loadN_le`. -/
def loadLe (e : Endian) (w : IntWidth) (ptr : ℕ) : MemOp (BitVec w.bits) := do
  return e.fromLe (← loadNe e w ptr)

/-- `storeN_le`. -/
def storeLe (e : Endian) {w : IntWidth} (ptr : ℕ) (value : BitVec w.bits) : MemOp Unit :=
  storeNe e ptr (e.fromLe value)

/-! ## Runs of operations -/

section

variable {σ α β : Type} {s s' : σ}

theorem pure_run (a : α) (s : σ) : (pure a : StateT σ Option α) s = some (a, s) := rfl

theorem bind_run {x : StateT σ Option α} {f : α → StateT σ Option β} {a : α}
    (hx : x s = some (a, s')) :
    (x >>= f) s = f a s' := by
  show (x s).bind (fun result => f result.1 result.2) = f a s'
  rw [hx]
  rfl

theorem lift_run {x : Option α} {a : α} (hx : x = some a) (s : σ) :
    (liftM x : StateT σ Option α) s = some (a, s) := by
  rw [hx]
  rfl

theorem guard_run {c : Prop} [Decidable c] (hc : c) (s : σ) :
    (guard c : StateT σ Option Unit) s = some ((), s) := by
  unfold guard
  rw [if_pos hc]
  exact pure_run () s

end

theorem loadNeAlignedInner_run (e : Endian) {w : IntWidth} {ptr : ℕ} (haligned : ptr % w.bytes = 0)
    (m : Memory) :
    loadNeAlignedInner e w ptr m = some (fromNeBytes e w fun i => m.mem (ptr + i),
      { m with accesses := m.accesses ++ [⟨false, ptr, w⟩] }) :=
  if_pos haligned

theorem storeNeAlignedInner_run (e : Endian) {w : IntWidth} {ptr : ℕ} (haligned : ptr % w.bytes = 0)
    (value : BitVec w.bits) (m : Memory) :
    storeNeAlignedInner e ptr value m =
      some ((), { mem := writeAt m.mem ptr w.bytes (toNeBytes e value),
                                                    accesses := m.accesses ++ [⟨true, ptr, w⟩] }) :=
  if_pos haligned

theorem uncheckedShl_eq {n shift : ℕ} (value : BitVec n) (h : shift < n) :
    uncheckedShl value shift = some (value <<< shift) := by
  unfold uncheckedShl guard
  rw [if_pos h]
  rfl

theorem uncheckedShr_eq {n shift : ℕ} (value : BitVec n) (h : shift < n) :
    uncheckedShr value shift = some (value >>> shift) := by
  unfold uncheckedShr guard
  rw [if_pos h]
  rfl

/-! ## Bytes of a value -/

theorem Endian.place_lt (e : Endian) {n i : ℕ} (hi : i < n) : e.place n i < n := by
  cases e with
  | little => exact hi
  | big =>
    show n - 1 - i < n
    omega

theorem Endian.place_place (e : Endian) {n i : ℕ} (hi : i < n) : e.place n (e.place n i) = i := by
  cases e with
  | little => rfl
  | big =>
    show n - 1 - (n - 1 - i) = i
    omega

/-- The place of the least significant byte of the part at `offset`. -/
def Endian.lowest (e : Endian) (total offset width : ℕ) : ℕ :=
  match e with
  | .little => offset
  | .big => total - offset - width

/-- A byte of a part lies, within the whole value, above the least significant byte of
    the part. -/
theorem Endian.place_add (e : Endian) {total offset width i : ℕ} (hin : offset + width ≤ total)
    (hi : i < width) :
    e.place total (offset + i) = e.lowest total offset width + e.place width i := by
  cases e with
  | little => rfl
  | big =>
    show total - 1 - (offset + i) = total - offset - width + (width - 1 - i)
    omega

theorem getLsbD_fromNeBytes (e : Endian) (w : IntWidth) (bytes : ℕ → BitVec 8) {k : ℕ}
    (hk : k < w.bits) :
    (fromNeBytes e w bytes).getLsbD k = (bytes (e.place w.bytes (k / 8))).getLsbD (k % 8) := by
  unfold fromNeBytes
  rw [getLsbD_loadLeAt w _ 0 hk, Nat.zero_add]

theorem getLsbD_toNeBytes (e : Endian) {w : IntWidth} (value : BitVec w.bits) (i : ℕ) {j : ℕ}
    (hj : j < 8) :
    (toNeBytes e value i).getLsbD j = value.getLsbD (8 * e.place w.bytes i + j) := by
  unfold toNeBytes
  rw [BitVec.getLsbD_extractLsb', decide_eq_true hj, Bool.true_and]

theorem fromNeBytes_congr (e : Endian) {w : IntWidth} {bytes bytes' : ℕ → BitVec 8}
    (heq : ∀ i < w.bytes, bytes i = bytes' i) : fromNeBytes e w bytes = fromNeBytes e w bytes' := by
  apply BitVec.eq_of_getLsbD_eq
  intro k hk
  have hbits := IntWidth.bits_eq w
  have hbyte : k / 8 < w.bytes := by omega
  rw [getLsbD_fromNeBytes e w bytes hk, getLsbD_fromNeBytes e w bytes' hk, heq _ (e.place_lt hbyte)]

theorem fromNeBytes_toNeBytes (e : Endian) {w : IntWidth} (value : BitVec w.bits) :
    fromNeBytes e w (toNeBytes e value) = value := by
  apply BitVec.eq_of_getLsbD_eq
  intro k hk
  have hbits := IntWidth.bits_eq w
  have hbyte : k / 8 < w.bytes := by omega
  rw [getLsbD_fromNeBytes e w _ hk, getLsbD_toNeBytes e value _ (Nat.mod_lt _ (by decide)),
    e.place_place hbyte, Nat.div_add_mod]

theorem toNeBytes_fromNeBytes (e : Endian) {w : IntWidth} (bytes : ℕ → BitVec 8) {i : ℕ}
    (hi : i < w.bytes) :
    toNeBytes e (fromNeBytes e w bytes) i = bytes i := by
  apply BitVec.eq_of_getLsbD_eq
  intro j hj
  have hbits := IntWidth.bits_eq w
  have hplace := e.place_lt hi
  have hdiv : (8 * e.place w.bytes i + j) / 8 = e.place w.bytes i := by omega
  have hmod : (8 * e.place w.bytes i + j) % 8 = j := by omega
  rw [getLsbD_toNeBytes e _ i hj, getLsbD_fromNeBytes e w bytes (by omega), hdiv, hmod,
    e.place_place hi]

/-- Swapping turns the bytes of a value around, so that `from_le` reads native bytes as
    little-endian ones. -/
theorem Endian.fromLe_fromNeBytes (e : Endian) {w : IntWidth} (bytes : ℕ → BitVec 8) :
    e.fromLe (fromNeBytes e w bytes) = fromNeBytes .little w bytes := by
  cases e with
  | little => rfl
  | big =>
    apply BitVec.eq_of_getLsbD_eq
    intro k hk
    have hbits := IntWidth.bits_eq w
    have hbyte : k / 8 < w.bytes := by omega
    have hplace := Endian.place_lt .big hbyte
    have hmod : (8 * Endian.big.place w.bytes (k / 8) + k % 8) / 8 =
        Endian.big.place w.bytes (k / 8) := by omega
    have hmod' : (8 * Endian.big.place w.bytes (k / 8) + k % 8) % 8 = k % 8 := by omega
    show (fromNeBytes .big w (toNeBytes .little (fromNeBytes .big w bytes))).getLsbD k = _
    rw [getLsbD_fromNeBytes .big w _ hk, getLsbD_toNeBytes .little _ _ (Nat.mod_lt _ (by decide)),
      getLsbD_fromNeBytes .little w bytes hk]
    show (fromNeBytes .big w bytes).getLsbD (8 * Endian.big.place w.bytes (k / 8) + k % 8) = _
    rw [getLsbD_fromNeBytes .big w bytes (by omega), hmod, hmod', Endian.place_place .big hbyte]
    rfl

theorem Endian.toNeBytes_toLe (e : Endian) {w : IntWidth} (value : BitVec w.bits) {i : ℕ}
    (hi : i < w.bytes) :
    toNeBytes e (e.fromLe value) i = toNeBytes .little value i := by
  cases e with
  | little => rfl
  | big => exact toNeBytes_fromNeBytes .big (toNeBytes .little value) hi

/-- The little-endian value of the bytes of a host page, as the memory unit reads it. -/
theorem fromNeBytes_little (w : IntWidth) (bytes : ℕ → BitVec 8) (offset : ℕ) :
    fromNeBytes .little w (fun i => bytes (offset + i)) = loadLeAt w bytes offset := by
  apply BitVec.eq_of_getLsbD_eq
  intro k hk
  rw [getLsbD_fromNeBytes .little w _ hk, getLsbD_loadLeAt w bytes offset hk]
  rfl

/-! ## Memory after writes -/

theorem writeAt_zero (mem : ℕ → BitVec 8) (addr : ℕ) (bytes : ℕ → BitVec 8) :
    writeAt mem addr 0 bytes = mem := by
  funext a
  exact if_neg (by omega)

/-- Writing on after a write writes both. -/
theorem writeAt_writeAt (mem : ℕ → BitVec 8) (addr : ℕ) {count count' : ℕ}
    {bytes bytes' bytes'' : ℕ → BitVec 8} (hfirst : ∀ i < count, bytes i = bytes'' i)
    (hsecond : ∀ i < count', bytes' i = bytes'' (count + i)) :
    writeAt (writeAt mem addr count bytes) (addr + count) count' bytes' =
      writeAt mem addr (count + count') bytes'' := by
  funext a
  unfold writeAt
  by_cases hin : addr ≤ a ∧ a < addr + (count + count')
  · rw [if_pos hin]
    by_cases hbefore : a < addr + count
    · rw [if_neg (by omega), if_pos (by omega), hfirst _ (by omega)]
    · have hsum : count + (a - (addr + count)) = a - addr := by omega
      rw [if_pos (by omega), hsecond _ (by omega), hsum]
  · rw [if_neg hin, if_neg (by omega), if_neg (by omega)]

/-- What was written is read. -/
theorem writeAt_add (mem : ℕ → BitVec 8) (addr : ℕ) {count i : ℕ} (bytes : ℕ → BitVec 8)
    (hi : i < count) :
    writeAt mem addr count bytes (addr + i) = bytes i := by
  unfold writeAt
  rw [if_pos (by omega), Nat.add_sub_cancel_left]

theorem writeAt_congr (mem : ℕ → BitVec 8) (addr : ℕ) {count : ℕ} {bytes bytes' : ℕ → BitVec 8}
    (heq : ∀ i < count, bytes i = bytes' i) :
    writeAt mem addr count bytes = writeAt mem addr count bytes' := by
  funext a
  unfold writeAt
  by_cases hin : addr ≤ a ∧ a < addr + count
  · rw [if_pos hin, if_pos hin, heq _ (by omega)]
  · rw [if_neg hin, if_neg hin]

/-! ## Parts of an access -/

/-- The accesses made by the parts at their offsets. -/
def partAccesses (isStore : Bool) (ptr : ℕ) (folded : List (IntWidth × ℕ)) : List MemoryAccess :=
  folded.map fun part => ⟨isStore, ptr + part.2, part.1⟩

theorem le_foldParts (parts : List IntWidth) (off : ℕ) : off ≤ (foldParts off parts).2 := by
  induction parts generalizing off with
  | nil => exact Nat.le_refl off
  | cons width rest ih =>
    have hrest := ih (off + width.bytes)
    show off ≤ (foldParts (off + width.bytes) rest).2
    omega

/-- The parts cover the bytes from the first offset to the total, each once and in
    order. -/
theorem partAccesses_cover (isStore : Bool) (ptr : ℕ) (parts : List IntWidth) (off : ℕ) :
    (partAccesses isStore ptr (foldParts off parts).1).flatMap MemoryAccess.bytes =
      List.range' (ptr + off) ((foldParts off parts).2 - off) := by
  induction parts generalizing off with
  | nil =>
    show [] = List.range' (ptr + off) (off - off)
    rw [Nat.sub_self, List.range'_zero]
  | cons width rest ih =>
    have hle := le_foldParts rest (off + width.bytes)
    have hsum : (foldParts (off + width.bytes) rest).2 - off =
        width.bytes + ((foldParts (off + width.bytes) rest).2 - (off + width.bytes)) := by omega
    show List.range' (ptr + off) width.bytes ++ (partAccesses isStore ptr
      (foldParts (off + width.bytes) rest).1).flatMap MemoryAccess.bytes =
        List.range' (ptr + off) ((foldParts (off + width.bytes) rest).2 - off)
    rw [ih, hsum, ← Nat.add_assoc]
    exact List.range'_append_1

/-- Every part lies at a multiple of its width. -/
def PartsAligned (ptr : ℕ) (folded : List (IntWidth × ℕ)) : Prop :=
  ∀ part ∈ folded, (ptr + part.2) % part.1.bytes = 0

/-- The cases of a width: a remainder has parts that are as long as the value, aligned
    at every address with that remainder. -/
theorem unalignedParts_spec (w : IntWidth) {ptr : ℕ} (hptr : ptr % w.bytes ≠ 0) :
    ∃ parts, unalignedParts w (ptr % w.bytes) = some parts ∧ (foldParts 0 parts).2 = w.bytes ∧
      PartsAligned ptr (foldParts 0 parts).1 := by
  have hcases : ∀ r < w.bytes, r ≠ 0 → ∃ parts, unalignedParts w r = some parts ∧
      (foldParts 0 parts).2 = w.bytes ∧
      ∀ part ∈ (foldParts 0 parts).1, part.1.bytes ∣ w.bytes ∧ (r + part.2) % part.1.bytes = 0 := by
    intro r hr hne
    cases w <;> dsimp only [IntWidth.bytes] at hr <;> interval_cases r <;>
      first
        | exact absurd rfl hne
        | exact ⟨_, rfl, rfl, by decide⟩
  obtain ⟨parts, hparts, htotal, haligned⟩ := hcases _ (Nat.mod_lt _ (IntWidth.bytes_pos w)) hptr
  refine ⟨parts, hparts, htotal, ?_⟩
  intro part hpart
  obtain ⟨hdvd, hmod⟩ := haligned part hpart
  rw [Nat.add_mod, Nat.mod_mod_of_dvd _ hdvd, ← Nat.add_mod] at hmod
  exact hmod

theorem nePartShift_eq (e : Endian) {ty : IntWidth} {offset width : ℕ}
    (hin : offset + width ≤ ty.bytes) (hwidth : 0 < width) :
    nePartShift e ty offset width = some (8 * e.lowest ty.bytes offset width) := by
  unfold nePartShift nePartShiftInner strictSub Endian.lowest
  cases e with
  | little =>
    have hlt : offset < ty.bytes := by omega
    simp [hlt, guard, Nat.mul_comm]
  | big =>
    have hoffset : offset ≤ ty.bytes := by omega
    have hrest : width ≤ ty.bytes - offset := by omega
    have hlt : ty.bytes - offset - width < ty.bytes := by omega
    simp [hoffset, hrest, hlt, guard, Nat.mul_comm]

/-- A limb, shifted to its place in the value: the native bits of the bytes of its part
    and no others. -/
theorem getLsbD_limb (e : Endian) {ty width : IntWidth} {off : ℕ}
    (hin : off + width.bytes ≤ ty.bytes) (bytes : ℕ → BitVec 8) {k : ℕ} (hk : k < ty.bits) :
    ((fromNeBytes e width fun i => bytes (off + i)).setWidth ty.bits <<<
        (8 * e.lowest ty.bytes off width.bytes)).getLsbD k =
      (decide (off ≤ e.place ty.bytes (k / 8) ∧ e.place ty.bytes (k / 8) < off + width.bytes) &&
        (bytes (e.place ty.bytes (k / 8))).getLsbD (k % 8)) := by
  have hbits := IntWidth.bits_eq ty
  have hwbits := IntWidth.bits_eq width
  have hbyte : k / 8 < ty.bytes := by omega
  rw [BitVec.getLsbD_shiftLeft, BitVec.getLsbD_setWidth]
  by_cases hpart : off ≤ e.place ty.bytes (k / 8) ∧ e.place ty.bytes (k / 8) < off + width.bytes
  · obtain ⟨i, hi⟩ : ∃ i, e.place ty.bytes (k / 8) = off + i :=
      ⟨_, (Nat.add_sub_cancel' hpart.1).symm⟩
    have hiw : i < width.bytes := by omega
    have hplace : k / 8 = e.lowest ty.bytes off width.bytes + e.place width.bytes i := by
      rw [← e.place_add hin hiw, ← hi, e.place_place hbyte]
    have hplacew := e.place_lt hiw
    have hge : ¬k < 8 * e.lowest ty.bytes off width.bytes := by omega
    have hlt : k - 8 * e.lowest ty.bytes off width.bytes < ty.bits := by omega
    have hltw : k - 8 * e.lowest ty.bytes off width.bytes < width.bits := by omega
    have hdiv : (k - 8 * e.lowest ty.bytes off width.bytes) / 8 = e.place width.bytes i := by omega
    have hmod : (k - 8 * e.lowest ty.bytes off width.bytes) % 8 = k % 8 := by omega
    rw [getLsbD_fromNeBytes e width _ hltw, hdiv, hmod, e.place_place hiw, ← hi]
    simp [hk, hge, hlt, hpart]
  · -- outside the part the bit is below the limb or above it, by the byte order
    have hout : k < 8 * e.lowest ty.bytes off width.bytes ∨
        width.bits ≤ k - 8 * e.lowest ty.bytes off width.bytes := by
      unfold Endian.place at hpart
      unfold Endian.lowest
      cases e with
      | little =>
        dsimp only at hpart ⊢
        omega
      | big =>
        dsimp only at hpart ⊢
        omega
    rw [decide_eq_false hpart, Bool.false_and]
    rcases hout with hbelow | habove
    · simp [hbelow]
    · rw [BitVec.getLsbD_of_ge _ _ habove]
      simp

/-- The first of some parts: it lies in the value, as its limb does, and is aligned. -/
theorem first_part (e : Endian) {ty width : IntWidth} {rest : List IntWidth} {ptr off : ℕ}
    (htotal : (foldParts off (width :: rest)).2 = ty.bytes)
    (haligned : PartsAligned ptr (foldParts off (width :: rest)).1) :
    off + width.bytes ≤ ty.bytes ∧ 8 * e.lowest ty.bytes off width.bytes < ty.bits ∧
      (ptr + off) % width.bytes = 0 ∧ PartsAligned ptr (foldParts (off + width.bytes) rest).1 := by
  have htotal' : (foldParts (off + width.bytes) rest).2 = ty.bytes := htotal
  have hle := le_foldParts rest (off + width.bytes)
  have hin : off + width.bytes ≤ ty.bytes := by omega
  have hpos := IntWidth.bytes_pos width
  have hbits := IntWidth.bits_eq ty
  have hlowest : e.lowest ty.bytes off width.bytes + e.place width.bytes 0 < ty.bytes := by
    rw [← e.place_add hin hpos]
    exact e.place_lt (by omega)
  refine ⟨hin, by omega, haligned (width, off) List.mem_cons_self, ?_⟩
  intro part hmem
  exact haligned part (List.mem_cons_of_mem _ hmem)

/-- The combined limbs, from some offset to the end of the value: the native bits of the
    bytes from that offset on. The induction is on the parts, and the offset grows. -/
theorem combineLimbs_run (e : Endian) (ty : IntWidth) (ptr : ℕ) (parts : List IntWidth) {off : ℕ}
    (m : Memory) (htotal : (foldParts off parts).2 = ty.bytes)
    (haligned : PartsAligned ptr (foldParts off parts).1) :
    ∃ value, combineLimbs e ty ptr (foldParts off parts).1 m =
        some (value,
          { m with accesses := m.accesses ++ partAccesses false ptr (foldParts off parts).1 }) ∧
      ∀ k < ty.bits, value.getLsbD k = (decide (off ≤ e.place ty.bytes (k / 8)) &&
        (m.mem (ptr + e.place ty.bytes (k / 8))).getLsbD (k % 8)) := by
  induction parts generalizing off m with
  | nil =>
    refine ⟨BitVec.ofNat ty.bits 0, ?_, ?_⟩
    · show some (BitVec.ofNat ty.bits 0, m) =
          some (BitVec.ofNat ty.bits 0, { m with accesses := m.accesses ++ [] })
      rw [List.append_nil]
    · intro k hk
      have hbits := IntWidth.bits_eq ty
      have hbyte : k / 8 < ty.bytes := by omega
      have hplace := e.place_lt hbyte
      have hout : ¬off ≤ e.place ty.bytes (k / 8) := by
        have : off = ty.bytes := htotal
        omega
      rw [BitVec.getLsbD_zero, decide_eq_false hout, Bool.false_and]
  | cons width rest ih =>
    obtain ⟨hin, hshift, hpart, hrest⟩ := first_part e htotal haligned
    have hpos := IntWidth.bytes_pos width
    have hbits := IntWidth.bits_eq ty
    obtain ⟨value, hrun, hvalue⟩ := ih
      { m with accesses := m.accesses ++ [⟨false, ptr + off, width⟩] } htotal hrest
    refine ⟨(fromNeBytes e width fun i => m.mem (ptr + off + i)).setWidth ty.bits <<<
      (8 * e.lowest ty.bytes off width.bytes) ||| value, ?_, ?_⟩
    · show combineLimbs e ty ptr ((width, off) :: (foldParts (off + width.bytes) rest).1) m =
        some (_, { m with accesses := m.accesses ++
          (⟨false, ptr + off, width⟩ ::
            partAccesses false ptr (foldParts (off + width.bytes) rest).1) })
      rw [List.append_cons]
      refine (bind_run (loadNeAlignedInner_run e hpart m)).trans ?_
      refine (bind_run (lift_run (nePartShift_eq e hin hpos) _)).trans ?_
      refine (bind_run (lift_run (uncheckedShl_eq _ hshift) _)).trans ?_
      exact (bind_run hrun).trans (pure_run _ _)
    · intro k hk
      have hbyte : k / 8 < ty.bytes := by omega
      have hassoc : (fun i => m.mem (ptr + off + i)) = fun i =>
        (fun o => m.mem (ptr + o)) (off + i) := by
        funext i
        rw [Nat.add_assoc]
      rw [BitVec.getLsbD_or, hvalue k hk, hassoc, getLsbD_limb e hin (fun o => m.mem (ptr + o)) hk,
        ← Bool.and_or_distrib_right, ← Bool.decide_or]
      congr 2
      apply propext
      omega

/-- The bytes of a shifted limb are those of its part. -/
theorem toNeBytes_limb (e : Endian) {ty width : IntWidth} (value : BitVec ty.bits) {off i : ℕ}
    (hin : off + width.bytes ≤ ty.bytes) (hi : i < width.bytes) :
    toNeBytes e ((value >>> (8 * e.lowest ty.bytes off width.bytes)).setWidth width.bits) i =
      toNeBytes e value (off + i) := by
  apply BitVec.eq_of_getLsbD_eq
  intro j hj
  have hwbits := IntWidth.bits_eq width
  have hplace := e.place_lt hi
  have hlt : 8 * e.place width.bytes i + j < width.bits := by omega
  have hsum : 8 * e.lowest ty.bytes off width.bytes + (8 * e.place width.bytes i + j) =
      8 * e.place ty.bytes (off + i) + j := by
    rw [e.place_add hin hi]
    omega
  rw [getLsbD_toNeBytes e _ i hj, getLsbD_toNeBytes e value _ hj, BitVec.getLsbD_setWidth,
    decide_eq_true hlt, Bool.true_and, BitVec.getLsbD_ushiftRight, hsum]

/-- The stores of the parts from some offset on write the bytes from that offset to the
    end of the value. -/
theorem splitLimbs_run (e : Endian) {ty : IntWidth} (ptr : ℕ) (value : BitVec ty.bits)
    (parts : List IntWidth) {off : ℕ} (m : Memory) (htotal : (foldParts off parts).2 = ty.bytes)
    (haligned : PartsAligned ptr (foldParts off parts).1) :
    splitLimbs e ptr value (foldParts off parts).1 m =
      some ((),
        { mem := writeAt m.mem (ptr + off) (ty.bytes - off) fun i => toNeBytes e value (off + i),
                  accesses := m.accesses ++ partAccesses true ptr (foldParts off parts).1 }) := by
  induction parts generalizing off m with
  | nil =>
    have hoff : ty.bytes - off = 0 := by
      have : off = ty.bytes := htotal
      omega
    rw [hoff, writeAt_zero]
    show some ((), m) = some ((), { m with accesses := m.accesses ++ [] })
    rw [List.append_nil]
  | cons width rest ih =>
    obtain ⟨hin, hshift, hpart, hrest⟩ := first_part e htotal haligned
    have hpos := IntWidth.bytes_pos width
    have hlimb : ∀ i < width.bytes,
        toNeBytes e ((value >>> (8 * e.lowest ty.bytes off width.bytes)).setWidth width.bits) i =
          toNeBytes e value (off + i) := fun i hi => toNeBytes_limb e value hin hi
    have hsum : ty.bytes - off = width.bytes + (ty.bytes - (off + width.bytes)) := by omega
    show splitLimbs e ptr value ((width, off) :: (foldParts (off + width.bytes) rest).1) m =
      some ((), ⟨_, m.accesses ++
        (⟨true, ptr + off, width⟩ :: partAccesses true ptr (foldParts (off + width.bytes) rest).1)⟩)
    rw [List.append_cons, hsum, ← writeAt_writeAt m.mem (ptr + off) hlimb (fun i _ => rfl)]
    refine (bind_run (lift_run (nePartShift_eq e hin hpos) _)).trans ?_
    refine (bind_run (lift_run (uncheckedShr_eq _ hshift) _)).trans ?_
    refine (bind_run (storeNeAlignedInner_run e hpart _ m)).trans ?_
    refine (ih _ htotal hrest).trans ?_
    simp only [Nat.add_assoc]

/-! ## Whole accesses -/

/-- Accesses that cover `count` bytes from `ptr` on, each once and in order. -/
structure Covers (isStore : Bool) (ptr count : ℕ) (parts : List MemoryAccess) : Prop where
  kind : ∀ part ∈ parts, part.isStore = isStore
  cover : parts.flatMap MemoryAccess.bytes = List.range' ptr count

/-- Accesses that cover some bytes and are all aligned. -/
structure Decomposes (isStore : Bool) (ptr count : ℕ) (parts : List MemoryAccess) : Prop
    extends Covers isStore ptr count parts where
  aligned : ∀ part ∈ parts, part.addr % part.width.bytes = 0

theorem covers_one (isStore : Bool) (ptr : ℕ) (w : IntWidth) :
    Covers isStore ptr w.bytes [⟨isStore, ptr, w⟩] where
  kind part hpart := by
    rw [List.mem_singleton.1 hpart]
  cover := by simp [MemoryAccess.bytes]

theorem decomposes_aligned (isStore : Bool) {ptr : ℕ} {w : IntWidth} (hptr : ptr % w.bytes = 0) :
    Decomposes isStore ptr w.bytes [⟨isStore, ptr, w⟩] where
  toCovers := covers_one isStore ptr w
  aligned part hpart := by
    rw [List.mem_singleton.1 hpart]
    exact hptr

theorem decomposes_parts (isStore : Bool) {ptr : ℕ} {w : IntWidth} {parts : List IntWidth}
    (htotal : (foldParts 0 parts).2 = w.bytes) (haligned : PartsAligned ptr (foldParts 0 parts).1) :
    Decomposes isStore ptr w.bytes (partAccesses isStore ptr (foldParts 0 parts).1) where
  kind part hpart := by
    obtain ⟨_, -, rfl⟩ := List.mem_map.1 hpart
    rfl
  aligned part hpart := by
    obtain ⟨folded, hmem, rfl⟩ := List.mem_map.1 hpart
    exact haligned folded hmem
  cover := by rw [partAccesses_cover, htotal, Nat.add_zero, Nat.sub_zero]

/-- A native-endian load of any alignment returns the native value of its bytes. -/
theorem loadNe_run (e : Endian) (w : IntWidth) (ptr : ℕ) (m : Memory) :
    ∃ parts, Decomposes false ptr w.bytes parts ∧
      loadNe e w ptr m = some (fromNeBytes e w fun i => m.mem (ptr + i),
        { m with accesses := m.accesses ++ parts }) := by
  by_cases hptr : ptr % w.bytes = 0
  · refine ⟨_, decomposes_aligned false hptr, ?_⟩
    unfold loadNe
    rw [if_pos hptr]
    exact loadNeAlignedInner_run e hptr m
  · obtain ⟨parts, hparts, htotal, haligned⟩ := unalignedParts_spec w hptr
    obtain ⟨value, hrun, hvalue⟩ := combineLimbs_run e w ptr parts m htotal haligned
    have heq : value = fromNeBytes e w fun i => m.mem (ptr + i) := by
      apply BitVec.eq_of_getLsbD_eq
      intro k hk
      rw [hvalue k hk, getLsbD_fromNeBytes e w _ hk, decide_eq_true (Nat.zero_le _), Bool.true_and]
    refine ⟨_, decomposes_parts false htotal haligned, ?_⟩
    rw [← heq, ← hrun]
    unfold loadNe
    rw [if_neg hptr]
    exact (bind_run (lift_run hparts m)).trans (bind_run (guard_run htotal m))

/-- A native-endian store of any alignment writes the native bytes of its value and no
    others. -/
theorem storeNe_run (e : Endian) {w : IntWidth} (ptr : ℕ) (value : BitVec w.bits) (m : Memory) :
    ∃ parts, Decomposes true ptr w.bytes parts ∧
      storeNe e ptr value m = some ((), { mem := writeAt m.mem ptr w.bytes (toNeBytes e value),
                                          accesses := m.accesses ++ parts }) := by
  by_cases hptr : ptr % w.bytes = 0
  · refine ⟨_, decomposes_aligned true hptr, ?_⟩
    unfold storeNe
    rw [if_pos hptr]
    exact storeNeAlignedInner_run e hptr value m
  · obtain ⟨parts, hparts, htotal, haligned⟩ := unalignedParts_spec w hptr
    have hrun := splitLimbs_run e ptr value parts m htotal haligned
    simp only [Nat.add_zero, Nat.zero_add, Nat.sub_zero] at hrun
    refine ⟨_, decomposes_parts true htotal haligned, ?_⟩
    rw [← hrun]
    unfold storeNe
    rw [if_neg hptr]
    exact (bind_run (lift_run hparts m)).trans (bind_run (guard_run htotal m))

/-- A little-endian load of any alignment returns the value that the memory unit's model
    reads at the address. -/
theorem loadLe_run (e : Endian) (w : IntWidth) (ptr : ℕ) (m : Memory) :
    ∃ parts, Decomposes false ptr w.bytes parts ∧
      loadLe e w ptr m =
        some (loadLeAt w m.mem ptr, { m with accesses := m.accesses ++ parts }) := by
  obtain ⟨parts, hparts, hrun⟩ := loadNe_run e w ptr m
  refine ⟨parts, hparts, ?_⟩
  rw [← fromNeBytes_little w m.mem ptr, ← e.fromLe_fromNeBytes]
  exact (bind_run hrun).trans (pure_run _ _)

/-- A little-endian store of any alignment writes the little-endian bytes of its value. -/
theorem storeLe_run (e : Endian) {w : IntWidth} (ptr : ℕ) (value : BitVec w.bits) (m : Memory) :
    ∃ parts, Decomposes true ptr w.bytes parts ∧
      storeLe e ptr value m = some ((),
        { mem := writeAt m.mem ptr w.bytes (toNeBytes .little value),
                                          accesses := m.accesses ++ parts }) := by
  obtain ⟨parts, hparts, hrun⟩ := storeNe_run e ptr (e.fromLe value) m
  refine ⟨parts, hparts, ?_⟩
  rw [← writeAt_congr m.mem ptr fun i hi => e.toNeBytes_toLe value hi]
  exact hrun

/-- After a native-endian store a load at the address returns the value. -/
theorem loadNe_storeNe (e : Endian) {w : IntWidth} (ptr : ℕ) (value : BitVec w.bits) (m : Memory) :
    ∃ m', (do storeNe e ptr value; loadNe e w ptr) m = some (value, m') := by
  obtain ⟨parts, -, hstore⟩ := storeNe_run e ptr value m
  obtain ⟨_, -, hload⟩ := loadNe_run e w ptr
    { mem := writeAt m.mem ptr w.bytes (toNeBytes e value), accesses := m.accesses ++ parts }
  rw [fromNeBytes_congr e fun i hi => writeAt_add m.mem ptr (toNeBytes e value) hi,
    fromNeBytes_toNeBytes] at hload
  exact ⟨_, (bind_run hstore).trans hload⟩

/-- After a little-endian store a load at the address returns the value. -/
theorem loadLe_storeLe (e : Endian) {w : IntWidth} (ptr : ℕ) (value : BitVec w.bits) (m : Memory) :
    ∃ m', (do storeLe e ptr value; loadLe e w ptr) m = some (value, m') := by
  obtain ⟨parts, -, hstore⟩ := storeLe_run e ptr value m
  obtain ⟨_, -, hload⟩ := loadLe_run e w ptr
    { mem := writeAt m.mem ptr w.bytes (toNeBytes .little value), accesses := m.accesses ++ parts }
  rw [← fromNeBytes_little, fromNeBytes_congr .little fun i hi =>
    writeAt_add m.mem ptr (toNeBytes .little value) hi,
    fromNeBytes_toNeBytes] at hload
  exact ⟨_, (bind_run hstore).trans hload⟩

/-- Scalar accesses are exact for either byte order, every address, width, value and
    memory: loads return the native or little-endian value of the bytes at the address,
    stores write exactly these bytes, a load after a store returns the value, and all of
    them go by aligned parts that cover the access once. -/
theorem unaligned_scalar_access_exact (e : Endian) (w : IntWidth) (ptr : ℕ) (value : BitVec w.bits)
    (m : Memory) :
    (∃ parts, Decomposes false ptr w.bytes parts ∧
      loadNe e w ptr m = some (fromNeBytes e w fun i => m.mem (ptr + i),
        { m with accesses := m.accesses ++ parts })) ∧
    (∃ parts, Decomposes false ptr w.bytes parts ∧
      loadLe e w ptr m = some (loadLeAt w m.mem ptr, { m with accesses := m.accesses ++ parts })) ∧
    (∃ parts, Decomposes true ptr w.bytes parts ∧
      storeNe e ptr value m = some ((), { mem := writeAt m.mem ptr w.bytes (toNeBytes e value),
                                          accesses := m.accesses ++ parts })) ∧
    (∃ parts, Decomposes true ptr w.bytes parts ∧
      storeLe e ptr value m = some ((),
        { mem := writeAt m.mem ptr w.bytes (toNeBytes .little value),
                                          accesses := m.accesses ++ parts })) ∧
    (∃ m', (do storeNe e ptr value; loadNe e w ptr) m = some (value, m')) ∧
    (∃ m', (do storeLe e ptr value; loadLe e w ptr) m = some (value, m')) :=
  ⟨loadNe_run e w ptr m, loadLe_run e w ptr m, storeNe_run e ptr value m, storeLe_run e ptr value m,
    loadNe_storeNe e ptr value m, loadLe_storeLe e ptr value m⟩

end RapidArm.Memops
