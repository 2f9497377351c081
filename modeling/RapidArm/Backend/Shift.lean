import RapidArm.Ir.Types
import Mathlib.Data.BitVec

/-!
# Run-time shifts in the two backends

`StmtKind::Shift` is documented to reduce its amount modulo the width of the
value (`ir/mod.rs`, lines 704–713). Its two lowerings are

* `clifShift` — Cranelift's `sshr`, `ushr` and `ishl`, which mask the amount
  (`compiler/cranelift_backend.rs`, lines 465–476);
* `gccShift` — libgccjit's `LShift` and `RShift` through `lower_shift`
  (`compiler/gcc_backend.rs`, lines 587–622 and 772–782), undefined for an
  amount that is not below the width. The amount is passed on as it is; only an
  arithmetic shift casts it, to the signed type of the value.

Results:
* `clifShift_eq_shiftMeaning`: the Cranelift lowering is the documented shift for
  every amount.
* `gccShift_eq_some`, `gccShift_eq_none`: the GCC lowering is the documented
  shift for the amounts in range (`AmountInRange`) and undefined for all others.
-/

namespace RapidArm.Backend

open RapidArm.Ir

/-! ## The documented meaning -/

/-- A value shifted by `amount`, an amount below its width. -/
def shiftBy {w : ℕ} (op : ShiftOp) (value : BitVec w) (amount : ℕ) : BitVec w :=
  match op with
  | .signExtendShr => value.sshiftRight amount
  | .zeroExtendShr => value >>> amount
  | .shl => value <<< amount

/-- `StmtKind::Shift` as documented: the amount is reduced modulo the width. -/
def shiftMeaning {w : ℕ} (op : ShiftOp) (value : BitVec w) (amount : ℕ) : BitVec w :=
  shiftBy op value (amount % w)

/-! ## Cranelift -/

/-- The Cranelift lowering of `StmtKind::Shift`. `sshr`, `ushr` and `ishl` accept
    an amount of any integer type and mask it by the width of the value. -/
def clifShift {w a : ℕ} (op : ShiftOp) (value : BitVec w) (amount : BitVec a) : BitVec w :=
  match op with
  | .signExtendShr => value.sshiftRight (amount.toNat % w)
  | .zeroExtendShr => value >>> (amount.toNat % w)
  | .shl => value <<< (amount.toNat % w)

theorem clifShift_eq_shiftMeaning {w a : ℕ} (op : ShiftOp) (value : BitVec w)
    (amount : BitVec a) : clifShift op value amount = shiftMeaning op value amount.toNat := by
  cases op <;> rfl

/-! ## GCC -/

/-- An rvalue of a libgccjit integer type: the type is a width and a signedness. -/
structure GccInt where
  width : IntWidth
  signed : Bool
  bits : BitVec width.bits

/-- The number an rvalue stands for. -/
def GccInt.num (v : GccInt) : ℤ := if v.signed then v.bits.toInt else v.bits.toNat

/-- `new_cast` between integer types. -/
def GccInt.cast (v : GccInt) (width : IntWidth) (signed : Bool) : GccInt :=
  ⟨width, signed, BitVec.ofInt width.bits v.num⟩

/-- `BinaryOp::RShift` of libgccjit in the type of the shifted operand:
    arithmetic for a signed type, logical for an unsigned one, undefined (`none`)
    unless the amount is a number below the width. -/
def gccRShift (val shift : GccInt) : Option GccInt :=
  if 0 ≤ shift.num ∧ shift.num < val.width.bits then
    some { val with bits :=
      if val.signed then val.bits.sshiftRight shift.num.toNat
      else val.bits >>> shift.num.toNat }
  else none

/-- `BinaryOp::LShift` of libgccjit, with the same domain. -/
def gccLShift (val shift : GccInt) : Option GccInt :=
  if 0 ≤ shift.num ∧ shift.num < val.width.bits then
    some { val with bits := val.bits <<< shift.num.toNat }
  else none

/-- `lower_shift` (lines 587–622). -/
def lowerShift (op : ShiftOp) (width : IntWidth) (val shift : GccInt) : Option GccInt :=
  match op with
  | .zeroExtendShr => gccRShift val shift
  | .signExtendShr => do
    let signedVal := val.cast width true
    let signedShift := shift.cast width true
    let result ← gccRShift signedVal signedShift
    return result.cast val.width val.signed
  | .shl => gccLShift val shift

/-- The GCC lowering of `StmtKind::Shift` (lines 772–782): every IR integer is
    held in a variable of the unsigned type of its width. -/
def gccShift {w a : IntWidth} (op : ShiftOp) (value : BitVec w.bits) (amount : BitVec a.bits) :
    Option GccInt :=
  lowerShift op w ⟨w, false, value⟩ ⟨a, false, amount⟩

/-! ## When the GCC lowering is the documented shift -/

/-- The amounts the GCC lowering can take: below the width of the value, and for
    an arithmetic shift after the cast to that width. -/
def AmountInRange (op : ShiftOp) (w : IntWidth) (amount : ℕ) : Prop :=
  match op with
  | .signExtendShr => amount % 2 ^ w.bits < w.bits
  | .zeroExtendShr | .shl => amount < w.bits

instance (op : ShiftOp) (w : IntWidth) (amount : ℕ) : Decidable (AmountInRange op w amount) :=
  match op with
  | .signExtendShr => inferInstanceAs (Decidable (_ < _))
  | .zeroExtendShr => inferInstanceAs (Decidable (_ < _))
  | .shl => inferInstanceAs (Decidable (_ < _))

/-- The amounts below a width are the non-negative numbers of the signed type of
    this width that are below it. -/
theorem toInt_lt_bits_iff (w : IntWidth) (x : BitVec w.bits) :
    (0 ≤ x.toInt ∧ x.toInt < w.bits) ↔ x.toNat < w.bits := by
  have hlt := x.isLt
  rw [BitVec.toInt_eq_toNat_cond]
  split_ifs with h <;> cases w <;>
    simp only [IntWidth.bits, IntWidth.bytes, Nat.reduceMul, Nat.reducePow] at * <;> omega

theorem toInt_toNat_of_lt (w : IntWidth) {x : BitVec w.bits} (hx : x.toNat < w.bits) :
    x.toInt.toNat = x.toNat := by
  rw [BitVec.toInt_eq_toNat_cond]
  split_ifs with h <;> cases w <;>
    simp only [IntWidth.bits, IntWidth.bytes, Nat.reduceMul, Nat.reducePow] at * <;> omega

/-- Every width divides the modulus of its integers, so that casting an amount to
    the width does not change its residue. -/
theorem mod_two_pow_mod_bits (w : IntWidth) (n : ℕ) : n % 2 ^ w.bits % w.bits = n % w.bits := by
  have hdvd : w.bits ∣ 2 ^ w.bits := by
    cases w
    · exact ⟨32, by decide⟩
    · exact ⟨4096, by decide⟩
    · exact ⟨134217728, by decide⟩
    · exact ⟨288230376151711744, by decide⟩
  exact Nat.mod_mod_of_dvd n hdvd

/-- An IR integer cast to the signed type of its own width keeps its bits. -/
theorem cast_signed_self (w : IntWidth) (value : BitVec w.bits) :
    (GccInt.mk w false value).cast w true = ⟨w, true, value⟩ := by
  simp [GccInt.cast, GccInt.num]

/-- And so does the cast of the result back to the unsigned type. -/
theorem cast_unsigned_self (w : IntWidth) (value : BitVec w.bits) :
    (GccInt.mk w true value).cast w false = ⟨w, false, value⟩ := by
  simp [GccInt.cast, GccInt.num]

/-- The shift amount after the cast of an arithmetic shift. -/
theorem cast_amount_bits {w a : IntWidth} (amount : BitVec a.bits) :
    (GccInt.mk a false amount).cast w true = ⟨w, true, BitVec.ofNat w.bits amount.toNat⟩ := by
  simp [GccInt.cast, GccInt.num]

theorem gccRShift_unsigned {w a : IntWidth} (value : BitVec w.bits) (amount : BitVec a.bits) :
    gccRShift ⟨w, false, value⟩ ⟨a, false, amount⟩ =
      if amount.toNat < w.bits then some ⟨w, false, value >>> amount.toNat⟩ else none := by
  simp [gccRShift, GccInt.num]

theorem gccLShift_unsigned {w a : IntWidth} (value : BitVec w.bits) (amount : BitVec a.bits) :
    gccLShift ⟨w, false, value⟩ ⟨a, false, amount⟩ =
      if amount.toNat < w.bits then some ⟨w, false, value <<< amount.toNat⟩ else none := by
  simp [gccLShift, GccInt.num]

theorem gccRShift_signed {w : IntWidth} (value amount : BitVec w.bits) :
    gccRShift ⟨w, true, value⟩ ⟨w, true, amount⟩ =
      if amount.toNat < w.bits then some ⟨w, true, value.sshiftRight amount.toNat⟩ else none := by
  simp only [gccRShift, GccInt.num, if_true, toInt_lt_bits_iff]
  split_ifs with h
  · rw [toInt_toNat_of_lt w h]
  · rfl

/-- Outside the range the GCC lowering evaluates an undefined shift. -/
theorem gccShift_eq_none {w a : IntWidth} {op : ShiftOp} (value : BitVec w.bits)
    {amount : BitVec a.bits} (h : ¬ AmountInRange op w amount.toNat) :
    gccShift op value amount = none := by
  cases op with
  | zeroExtendShr => simp only [gccShift, lowerShift, gccRShift_unsigned]; exact if_neg h
  | shl => simp only [gccShift, lowerShift, gccLShift_unsigned]; exact if_neg h
  | signExtendShr =>
    simp only [gccShift, lowerShift, cast_signed_self, cast_amount_bits, gccRShift_signed,
      BitVec.toNat_ofNat]
    rw [AmountInRange] at h
    rw [if_neg h]
    rfl

/-- Inside the range it is the documented shift. -/
theorem gccShift_eq_some {w a : IntWidth} {op : ShiftOp} (value : BitVec w.bits)
    {amount : BitVec a.bits} (h : AmountInRange op w amount.toNat) :
    gccShift op value amount = some ⟨w, false, shiftMeaning op value amount.toNat⟩ := by
  cases op with
  | zeroExtendShr =>
    simp only [gccShift, lowerShift, gccRShift_unsigned, shiftMeaning, shiftBy]
    rw [Nat.mod_eq_of_lt h]
    exact if_pos h
  | shl =>
    simp only [gccShift, lowerShift, gccLShift_unsigned, shiftMeaning, shiftBy]
    rw [Nat.mod_eq_of_lt h]
    exact if_pos h
  | signExtendShr =>
    have hmod : amount.toNat % 2 ^ w.bits = amount.toNat % w.bits := by
      rw [← mod_two_pow_mod_bits w amount.toNat, Nat.mod_eq_of_lt h]
    simp only [gccShift, lowerShift, cast_signed_self, cast_amount_bits, gccRShift_signed,
      BitVec.toNat_ofNat, shiftMeaning, shiftBy]
    rw [AmountInRange] at h
    rw [if_pos h, hmod]
    exact congrArg some (cast_unsigned_self w _)

/-- Both lowerings of one shift statement give the documented value, the GCC one
    without evaluating a shift that is undefined. -/
def ShiftLoweredFaithfully {w a : IntWidth} (op : ShiftOp) (value : BitVec w.bits)
    (amount : BitVec a.bits) : Prop :=
  clifShift op value amount = shiftMeaning op value amount.toNat ∧
    gccShift op value amount = some ⟨w, false, shiftMeaning op value amount.toNat⟩

/-- The two backends implement the documented shift exactly on the amounts in
    range: the GCC lowering never reduces the amount. -/
theorem shift_lowered_faithfully_iff {w a : IntWidth} (op : ShiftOp) (value : BitVec w.bits)
    (amount : BitVec a.bits) :
    ShiftLoweredFaithfully op value amount ↔ AmountInRange op w amount.toNat := by
  constructor
  · rintro ⟨-, h⟩
    by_contra hr
    rw [gccShift_eq_none value hr] at h
    cases h
  · intro hr
    exact ⟨clifShift_eq_shiftMeaning op value amount, gccShift_eq_some value hr⟩

/-- A 32-bit left shift by 33 is documented to shift by 1; GCC's shift by 33 is
    undefined. -/
theorem shl_by_33_not_faithful :
    ¬ ShiftLoweredFaithfully (w := .w32) (a := .w32) .shl 1#32 33#32 := by
  rintro ⟨-, h⟩
  have hnone : gccShift (w := .w32) (a := .w32) .shl 1#32 33#32 = none :=
    gccShift_eq_none _ (by decide)
  rw [hnone] at h
  cases h

end RapidArm.Backend
