import RapidArm.Backend.Shift
import RapidArm.Backend.BoolLowering
import RapidArm.Backend.BlockParams

/-!
# The meaning of the integer statements

What the statements on integers and booleans compute (`ir/mod.rs`, lines 432–739). Where the
documentation of a statement leaves it to its lowering, the meaning is that of the backend:
`OverflowingBinOp`, `ShiftUnbounded` and `ShiftImm`
(`compiler/gcc_backend.rs`, lines 784–887; `compiler/cranelift_backend.rs`, lines 478–547).

Results:
* `gccOverflowing_eq`: the 128-bit computation of the GCC backend overflows where the
  signed operation does.
* `shiftUnbounded_eq`: both lowerings of `ShiftUnbounded` are the documented shift.
-/

namespace RapidArm.Jit

open RapidArm.Ir RapidArm.Backend

/-! ## Values -/

/-- A value of the IR; `P` are the host pointers. -/
inductive Val (P : Type)
  | int (width : IntWidth) (value : BitVec width.bits)
  | bool (value : Bool)
  | ptr (p : P)
  deriving DecidableEq, Repr

/-! ## Arithmetic -/

/-- An `ArithBinOp`; the divisions are undefined for a zero divisor, the signed one also
    for `MIN / -1`. -/
def arithResult (op : ArithBinOp) {n : ℕ} (lhs rhs : BitVec n) : Option (BitVec n) :=
  match op with
  | .add => some (lhs + rhs)
  | .sub => some (lhs - rhs)
  | .mul => some (lhs * rhs)
  | .uncheckedUDiv => if rhs = 0 then none else some (lhs / rhs)
  | .uncheckedSDiv =>
    if rhs = 0 ∨ lhs = BitVec.intMin n ∧ rhs = BitVec.allOnes n then none else some (lhs.sdiv rhs)

/-- The wrapping result of an `OverflowingBinOp`. -/
def wrappingResult (op : OverflowingBinOp) {n : ℕ} (lhs rhs : BitVec n) : BitVec n :=
  match op with
  | .add => lhs + rhs
  | .sub => lhs - rhs

/-- The GCC lowering: the operation on the operands sign-extended to 128 bits, the result
    truncated, and whether it changes when it is sign-extended again. -/
def gccOverflowing (op : OverflowingBinOp) {n : ℕ} (lhs rhs : BitVec n) : BitVec n × Bool :=
  let wideResult := wrappingResult op (lhs.signExtend 128) (rhs.signExtend 128)
  let truncated := wideResult.setWidth n
  (truncated, wideResult != truncated.signExtend 128)

/-- `sadd_overflow` and `ssub_overflow`. -/
def clifOverflowing (op : OverflowingBinOp) {n : ℕ} (lhs rhs : BitVec n) : BitVec n × Bool :=
  (wrappingResult op lhs rhs, signedOverflow op lhs rhs)

/-- `OverflowingBinOp` as lowered by a backend. -/
def overflowing (backend : JitBackend) (op : OverflowingBinOp) {n : ℕ} (lhs rhs : BitVec n) :
    BitVec n × Bool :=
  match backend with
  | .gcc => gccOverflowing op lhs rhs
  | .cranelift => clifOverflowing op lhs rhs

/-- A `BitwiseOp` on integers. -/
def bitwiseResult (op : BitwiseOp) {n : ℕ} (lhs rhs : BitVec n) : BitVec n :=
  match op with
  | .and => lhs &&& rhs
  | .or => lhs ||| rhs
  | .xor => lhs ^^^ rhs

/-! ## Shifts -/

/-- `ShiftUnbounded` as documented (lines 715–729). -/
def unboundedMeaning {w : ℕ} (op : ShiftOp) (value : BitVec w) (amount : ℕ) : BitVec w :=
  if amount < w then shiftBy op value amount
  else
    match op with
    | .signExtendShr => shiftBy .signExtendShr value (w - 1)
    | .zeroExtendShr | .shl => 0

/-- The Cranelift lowering of `ShiftUnbounded` (lines 478–505). -/
def clifShiftUnbounded {w a : ℕ} (op : ShiftOp) (value : BitVec w) (shift : BitVec a) : BitVec w :=
  let inRange := intCmp .unsignedLessThan shift (BitVec.ofNat a w)
  let shifted := clifShift op value shift
  let overflowVal :=
    match op with
    | .signExtendShr => clifShift .signExtendShr value (BitVec.ofNat 64 (w - 1))
    | .zeroExtendShr | .shl => 0
  if inRange then shifted else overflowVal

/-- `new_rvalue_from_int` at the unsigned type of a width. -/
def rvalueFromInt (width : IntWidth) (n : ℕ) : GccInt := ⟨width, false, BitVec.ofNat width.bits n⟩

/-- The GCC lowering of `ShiftUnbounded` (lines 784–833); only the selected shift is
    evaluated. -/
def gccShiftUnbounded {w a : IntWidth} (op : ShiftOp) (value : BitVec w.bits)
    (shift : BitVec a.bits) :
    Option GccInt :=
  let val : GccInt := ⟨w, false, value⟩
  let amount : GccInt := ⟨a, false, shift⟩
  if amount.num < (rvalueFromInt a w.bits).num then lowerShift op w val (amount.cast w false)
  else
    match op with
    | .signExtendShr => lowerShift .signExtendShr w val (rvalueFromInt w (w.bits - 1))
    | .zeroExtendShr | .shl => some (rvalueFromInt w 0)

/-- An rvalue as a value of the IR. -/
def GccInt.toVal {P : Type} (v : GccInt) : Val P := .int v.width v.bits

/-- `ShiftUnbounded` as lowered by a backend. -/
def shiftUnbounded {P : Type} (backend : JitBackend) {w a : IntWidth} (op : ShiftOp)
    (value : BitVec w.bits) (shift : BitVec a.bits) : Option (Val P) :=
  match backend with
  | .gcc => (gccShiftUnbounded op value shift).map GccInt.toVal
  | .cranelift => some (.int w (clifShiftUnbounded op value shift))

/-- `ShiftImm` as lowered by a backend; its amount must be below the width. -/
def shiftImm {P : Type} (backend : JitBackend) {w : IntWidth} (op : ShiftOp)
    (value : BitVec w.bits) (shift : ℕ) : Option (Val P) :=
  if shift < w.bits then
    match backend with
    | .gcc => (lowerShift op w ⟨w, false, value⟩ (rvalueFromInt w shift)).map GccInt.toVal
    | .cranelift => some (.int w (clifShift op value (BitVec.ofNat 64 shift)))
  else none

/-! ## Statements -/

/-- The statements on integers and booleans. -/
def isInteger : StmtKind → Bool
  | .iconst _ | .arithBinOp .. | .intNeg _ | .overflowingBinOp .. | .intCmp .. | .intCmpImm ..
  | .select .. | .bitwise .. | .bitwiseImm .. | .bitNot _ | .shift .. | .shiftUnbounded ..
  | .shiftImm .. => true
  | _ => false

/-- What such a statement computes; `none` where it is undefined or has operands of other
    types. `Shift` is the documented one, and so is `BitNot` of a boolean with both backends,
    although the Cranelift lowering flips all bits of its byte. -/
def evalInteger {P : Type} (backend : JitBackend) (rvalue : StmtKind) (args : List (Val P)) :
    Option (List (Val P)) :=
  match rvalue, args with
  | .iconst c, [] => some [.int c.width (c.bits.setWidth c.width.bits)]
  | .arithBinOp op _ _, [.int w lhs, .int w' rhs] =>
    if w = w' then (arithResult op lhs (rhs.setWidth w.bits)).map fun r => [.int w r] else none
  | .intNeg _, [.int w value] => some [.int w (-value)]
  | .overflowingBinOp op _ _, [.int w lhs, .int w' rhs] =>
    let r := overflowing backend op lhs (rhs.setWidth w.bits)
    if w = w' then some [.int w r.1, .bool r.2] else none
  | .intCmp cmp _ _, [.int w lhs, .int w' rhs] =>
    if w = w' then some [.bool (intCmp cmp lhs (rhs.setWidth w.bits))] else none
  | .intCmpImm cmp _ imm, [.int w lhs] => some [.bool (intCmp cmp lhs (imm.setWidth w.bits))]
  | .select _ _ _, [.bool cond, ifTrue, ifFalse] => some [if cond then ifTrue else ifFalse]
  | .bitwise op _ _, [.bool lhs, .bool rhs] => some [.bool (BitwiseOp.onBool op lhs rhs)]
  | .bitwise op _ _, [.int w lhs, .int w' rhs] =>
    if w = w' then some [.int w (bitwiseResult op lhs (rhs.setWidth w.bits))] else none
  | .bitwiseImm op _ imm, [.int w lhs] =>
    some [.int w (bitwiseResult op lhs (imm.setWidth w.bits))]
  | .bitNot _, [.bool value] => some [.bool (!value)]
  | .bitNot _, [.int w value] => some [.int w (~~~ value)]
  | .shift op _ _, [.int w value, .int _ amount] =>
    some [.int w (shiftMeaning op value amount.toNat)]
  | .shiftUnbounded op _ _, [.int _ value, .int _ amount] =>
    (shiftUnbounded backend op value amount).map fun r => [r]
  | .shiftImm op _ amount, [.int _ value] => (shiftImm backend op value amount).map fun r => [r]
  | _, _ => none

/-! ## The overflow of the GCC lowering -/

/-- The result of an `OverflowingBinOp` on the signed numbers. -/
def exactResult (op : OverflowingBinOp) {n : ℕ} (lhs rhs : BitVec n) : ℤ :=
  match op with
  | .add => lhs.toInt + rhs.toInt
  | .sub => lhs.toInt - rhs.toInt

theorem toInt_wrappingResult (op : OverflowingBinOp) {n : ℕ} (lhs rhs : BitVec n) :
    (wrappingResult op lhs rhs).toInt = (exactResult op lhs rhs).bmod (2 ^ n) := by
  cases op with
  | add => exact BitVec.toInt_add lhs rhs
  | sub => exact BitVec.toInt_sub

theorem exactResult_bounds (op : OverflowingBinOp) {n : ℕ} (lhs rhs : BitVec n) :
    -2 ^ n ≤ exactResult op lhs rhs ∧ exactResult op lhs rhs ≤ 2 ^ n := by
  have hl := lhs.le_two_mul_toInt
  have hl' := lhs.two_mul_toInt_lt
  have hr := rhs.le_two_mul_toInt
  have hr' := rhs.two_mul_toInt_lt
  cases op <;> simp only [exactResult] <;> omega

/-- Signed overflow: the wrapping result is not the exact one. -/
theorem signedOverflow_eq (op : OverflowingBinOp) (w : IntWidth) (lhs rhs : BitVec w.bits) :
    signedOverflow op lhs rhs =
      decide (exactResult op lhs rhs ≠ (wrappingResult op lhs rhs).toInt) := by
  have hb := exactResult_bounds op lhs rhs
  have hdef : signedOverflow op lhs rhs = decide (exactResult op lhs rhs ≥ 2 ^ (w.bits - 1) ∨
      exactResult op lhs rhs < -2 ^ (w.bits - 1)) := by
    cases op with
    | add => exact (Bool.decide_or _ _).symm
    | sub => exact (Bool.decide_or _ _).symm
  rw [hdef, toInt_wrappingResult, Int.bmod_def]
  apply decide_eq_decide.2
  generalize exactResult op lhs rhs = z at hb
  cases w <;>
    simp only [IntWidth.bits, IntWidth.bytes, Nat.reduceMul, Nat.reduceSub, Nat.reducePow,
      Int.reducePow] at hb ⊢ <;> omega

/-- The 128-bit computation is the operation with its signed overflow. -/
theorem gccOverflowing_eq (op : OverflowingBinOp) (w : IntWidth) (lhs rhs : BitVec w.bits) :
    gccOverflowing op lhs rhs = clifOverflowing op lhs rhs := by
  have hle : w.bits ≤ 128 := by cases w <;> decide
  have htrunc : ∀ x : BitVec w.bits, (x.signExtend 128).setWidth w.bits = x := by
    intro x
    ext i hi
    rw [BitVec.getElem_setWidth, BitVec.getLsbD_signExtend, if_pos hi,
      decide_eq_true (lt_of_lt_of_le hi hle), Bool.true_and, BitVec.getLsbD_eq_getElem]
  have hresult : (wrappingResult op (lhs.signExtend 128) (rhs.signExtend 128)).setWidth w.bits =
      wrappingResult op lhs rhs := by
    cases op with
    | add =>
      show (_ + _ : BitVec 128).setWidth w.bits = lhs + rhs
      rw [BitVec.setWidth_add _ _ hle, htrunc, htrunc]
    | sub =>
      show (_ - _ : BitVec 128).setWidth w.bits = lhs - rhs
      rw [BitVec.sub_eq_add_neg, BitVec.setWidth_add _ _ hle, BitVec.setWidth_neg_of_le hle,
        htrunc, htrunc, BitVec.sub_eq_add_neg]
  have hwide : (wrappingResult op (lhs.signExtend 128) (rhs.signExtend 128)).toInt =
      exactResult op lhs rhs := by
    have hb := exactResult_bounds op lhs rhs
    have hsame : exactResult op (lhs.signExtend 128) (rhs.signExtend 128) =
        exactResult op lhs rhs := by
      cases op <;> simp only [exactResult, BitVec.toInt_signExtend_of_le hle]
    rw [toInt_wrappingResult, hsame]
    have hpow : (2 : ℤ) ^ w.bits ≤ 2 ^ 64 := by cases w <;> decide
    apply Int.bmod_eq_of_le_mul_two <;> omega
  unfold gccOverflowing clifOverflowing
  rw [signedOverflow_eq]
  simp only [hresult]
  refine congrArg (Prod.mk _) ?_
  rw [← hwide, ← BitVec.toInt_signExtend_of_le hle]
  apply Bool.eq_iff_iff.2
  rw [bne_iff_ne, decide_eq_true_eq]
  exact not_congr BitVec.toInt_inj.symm

/-- `OverflowingBinOp` with both backends. -/
theorem overflowing_eq (backend : JitBackend) (op : OverflowingBinOp) {w : IntWidth}
    (lhs rhs : BitVec w.bits) :
    overflowing backend op lhs rhs = (wrappingResult op lhs rhs, signedOverflow op lhs rhs) := by
  cases backend with
  | gcc => exact gccOverflowing_eq op w lhs rhs
  | cranelift => rfl

/-! ## The lowerings of the shifts -/

theorem IntWidth.bits_lt_two_pow (w a : IntWidth) : w.bits < 2 ^ a.bits := by
  cases w <;> cases a <;> decide

theorem IntWidth.bits_pos (w : IntWidth) : 0 < w.bits := by cases w <;> decide

/-- The Cranelift lowering is the documented shift. -/
theorem clifShiftUnbounded_eq {w a : IntWidth} (op : ShiftOp) (value : BitVec w.bits)
    (shift : BitVec a.bits) :
    clifShiftUnbounded op value shift = unboundedMeaning op value shift.toNat := by
  have hrange : intCmp .unsignedLessThan shift (BitVec.ofNat a.bits w.bits) =
      decide (shift.toNat < w.bits) := by
    show shift.ult (BitVec.ofNat a.bits w.bits) = _
    rw [BitVec.ult, BitVec.toNat_ofNat, Nat.mod_eq_of_lt (IntWidth.bits_lt_two_pow w a)]
  have hlast : (BitVec.ofNat 64 (w.bits - 1)).toNat % w.bits = w.bits - 1 := by
    cases w <;> decide
  unfold clifShiftUnbounded unboundedMeaning
  simp only [hrange, decide_eq_true_eq]
  split_ifs with h
  · rw [clifShift_eq_shiftMeaning, shiftMeaning, Nat.mod_eq_of_lt h]
  · cases op with
    | signExtendShr => simp only [clifShift_eq_shiftMeaning, shiftMeaning, hlast]
    | zeroExtendShr => rfl
    | shl => rfl

/-- A shift by an amount below the width, as `lower_shift` lowers it. -/
theorem lowerShift_of_lt {w : IntWidth} (op : ShiftOp) (value : BitVec w.bits) {n : ℕ}
    (h : n < w.bits) :
    lowerShift op w ⟨w, false, value⟩ (rvalueFromInt w n) =
      some ⟨w, false, shiftBy op value n⟩ := by
  have hn : (BitVec.ofNat w.bits n).toNat = n := by
    rw [BitVec.toNat_ofNat]
    exact Nat.mod_eq_of_lt (lt_trans h (IntWidth.bits_lt_two_pow w w))
  have hrange : AmountInRange op w (BitVec.ofNat w.bits n).toNat := by
    rw [hn]
    cases op with
    | signExtendShr =>
      exact lt_of_le_of_lt (Nat.mod_le _ _) h
    | zeroExtendShr => exact h
    | shl => exact h
  have hshift := gccShift_eq_some (a := w) value hrange
  rw [hn, shiftMeaning, Nat.mod_eq_of_lt h] at hshift
  exact hshift

/-- The GCC lowering is the documented shift. -/
theorem gccShiftUnbounded_eq {w a : IntWidth} (op : ShiftOp) (value : BitVec w.bits)
    (shift : BitVec a.bits) :
    gccShiftUnbounded op value shift = some ⟨w, false, unboundedMeaning op value shift.toNat⟩ := by
  have hrange : (GccInt.mk a false shift).num < (rvalueFromInt a w.bits).num ↔
      shift.toNat < w.bits := by
    simp only [GccInt.num, rvalueFromInt, Bool.false_eq_true, if_false, Int.ofNat_lt,
      BitVec.toNat_ofNat, Nat.mod_eq_of_lt (IntWidth.bits_lt_two_pow w a)]
  have hcast : (GccInt.mk a false shift).cast w false = rvalueFromInt w shift.toNat := by
    simp [GccInt.cast, GccInt.num, rvalueFromInt]
  unfold gccShiftUnbounded unboundedMeaning
  simp only [hrange, hcast]
  split_ifs with h
  · exact lowerShift_of_lt op value h
  · cases op with
    | signExtendShr =>
      exact lowerShift_of_lt .signExtendShr value (Nat.sub_lt (IntWidth.bits_pos w) Nat.one_pos)
    | zeroExtendShr => rfl
    | shl => rfl

/-- `ShiftUnbounded` is the documented shift with both backends. -/
theorem shiftUnbounded_eq {P : Type} (backend : JitBackend) {w a : IntWidth} (op : ShiftOp)
    (value : BitVec w.bits) (shift : BitVec a.bits) :
    shiftUnbounded (P := P) backend op value shift =
      some (.int w (unboundedMeaning op value shift.toNat)) := by
  cases backend with
  | gcc =>
    show (gccShiftUnbounded op value shift).map GccInt.toVal = _
    rw [gccShiftUnbounded_eq]
    rfl
  | cranelift =>
    show some (Val.int w (clifShiftUnbounded op value shift)) = _
    rw [clifShiftUnbounded_eq]

/-- So is `ShiftImm` for the amounts it may have. -/
theorem shiftImm_eq {P : Type} (backend : JitBackend) {w : IntWidth} (op : ShiftOp)
    (value : BitVec w.bits) {amount : ℕ} (h : amount < w.bits) :
    shiftImm (P := P) backend op value amount = some (.int w (shiftBy op value amount)) := by
  unfold shiftImm
  rw [if_pos h]
  cases backend with
  | gcc =>
    simp only [lowerShift_of_lt op value h]
    rfl
  | cranelift =>
    have hn : (BitVec.ofNat 64 amount).toNat = amount := by
      rw [BitVec.toNat_ofNat]
      exact Nat.mod_eq_of_lt (lt_trans h (IntWidth.bits_lt_two_pow w .w64))
    simp only [clifShift_eq_shiftMeaning, shiftMeaning, hn, Nat.mod_eq_of_lt h]

end RapidArm.Jit
