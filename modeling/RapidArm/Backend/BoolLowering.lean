import RapidArm.Ir.Types
import Mathlib.Data.BitVec
import Mathlib.Data.List.Basic

/-!
# Booleans in the Cranelift backend

A `Bool` of the IR is an 8-bit integer in Cranelift
(`compiler/cranelift_backend.rs`, lines 39–45). Comparisons and overflow outputs
produce 0 or 1; the bitwise operators act on all eight bits (lines 433–463); a
`select` (lines 419–431) and a `brif` test for non-zero.

Bits 1–7 of such a byte are always equal to each other, so a byte is `boolByte b h`
for its low bit `b` and the common value `h` of the others. The comparisons start
with `h = false`, and `bnot` flips both. The results follow `h` through a tree:

* `clifValue_eq_boolByte`: where every test inside the tree is decided rightly,
  the byte of the tree has its meaning as low bit and `highBits` above.
* `testsFaithful_iff`: the tests of a tree are all decided rightly exactly when
  none of them is false with its upper bits set.
-/

namespace RapidArm.Backend

open RapidArm.Ir

/-! ## Boolean expressions and their meaning -/

/-- A tree of `Bool`-typed statements. The integer operands of the comparisons are
    values of the environment, taken at the width of the comparison. -/
inductive BoolExpr
  | icmp (cmp : IntCmp) (width : IntWidth) (lhs rhs : SSAValue)
  | icmpImm (cmp : IntCmp) (width : IntWidth) (lhs : SSAValue) (rhs : BitVec 64)
  | overflow (op : OverflowingBinOp) (width : IntWidth) (lhs rhs : SSAValue)
  | bitwise (op : BitwiseOp) (lhs rhs : BoolExpr)
  | bitNot (value : BoolExpr)
  | select (cond ifTrue ifFalse : BoolExpr)
  deriving DecidableEq, Repr

/-- Run-time integers: the zero-extended bits of every value. -/
abbrev IntEnv := SSAValue → BitVec 64

/-- The integer of width `width` that `v` holds. -/
def IntEnv.at (ρ : IntEnv) (width : IntWidth) (v : SSAValue) : BitVec width.bits :=
  (ρ v).setWidth width.bits

/-- The predicate an `IntCmp` names. -/
def intCmp {w : ℕ} (cmp : IntCmp) (lhs rhs : BitVec w) : Bool :=
  match cmp with
  | .equal => lhs == rhs
  | .notEqual => lhs != rhs
  | .signedLessThan => lhs.slt rhs
  | .signedLessThanOrEqual => lhs.sle rhs
  | .signedGreaterThan => rhs.slt lhs
  | .signedGreaterThanOrEqual => rhs.sle lhs
  | .unsignedLessThan => lhs.ult rhs
  | .unsignedLessThanOrEqual => lhs.ule rhs
  | .unsignedGreaterThan => rhs.ult lhs
  | .unsignedGreaterThanOrEqual => rhs.ule lhs

/-- Whether a checked addition or subtraction overflows as a signed one. -/
def signedOverflow {w : ℕ} (op : OverflowingBinOp) (lhs rhs : BitVec w) : Bool :=
  match op with
  | .add => lhs.saddOverflow rhs
  | .sub => lhs.ssubOverflow rhs

/-- A `BitwiseOp` on booleans. -/
def BitwiseOp.onBool : BitwiseOp → Bool → Bool → Bool
  | .and => and
  | .or => or
  | .xor => xor

/-- The boolean meaning of a tree in the IR. -/
def BoolExpr.meaning (ρ : IntEnv) : BoolExpr → Bool
  | icmp cmp w lhs rhs => intCmp cmp (ρ.at w lhs) (ρ.at w rhs)
  | icmpImm cmp w lhs rhs => intCmp cmp (ρ.at w lhs) (rhs.setWidth w.bits)
  | overflow op w lhs rhs => signedOverflow op (ρ.at w lhs) (ρ.at w rhs)
  | bitwise op lhs rhs => BitwiseOp.onBool op (lhs.meaning ρ) (rhs.meaning ρ)
  | bitNot value => !value.meaning ρ
  | select cond ifTrue ifFalse =>
    if cond.meaning ρ then ifTrue.meaning ρ else ifFalse.meaning ρ

/-! ## The Cranelift lowering -/

/-- Cranelift's `icmp`, `icmp_imm` and overflow outputs: an `i8` that is 0 or 1. -/
def clifBool (b : Bool) : BitVec 8 := if b then 1 else 0

/-- `band`, `bor` and `bxor` at `i8`. -/
def clifBitwise (op : BitwiseOp) (lhs rhs : BitVec 8) : BitVec 8 :=
  match op with
  | .and => lhs &&& rhs
  | .or => lhs ||| rhs
  | .xor => lhs ^^^ rhs

/-- `select` and `brif` take their first branch on a non-zero condition. -/
def clifTest (cond : BitVec 8) : Bool := cond != 0

/-- The byte the lowering of a tree computes (`lower_rvalue`). `icmp_imm` uses the
    immediate at the width of its operand. -/
def clifValue (ρ : IntEnv) : BoolExpr → BitVec 8
  | .icmp cmp w lhs rhs => clifBool (intCmp cmp (ρ.at w lhs) (ρ.at w rhs))
  | .icmpImm cmp w lhs rhs => clifBool (intCmp cmp (ρ.at w lhs) (rhs.setWidth w.bits))
  | .overflow op w lhs rhs => clifBool (signedOverflow op (ρ.at w lhs) (ρ.at w rhs))
  | .bitwise op lhs rhs => clifBitwise op (clifValue ρ lhs) (clifValue ρ rhs)
  | .bitNot value => ~~~ clifValue ρ value
  | .select cond ifTrue ifFalse =>
    if clifTest (clifValue ρ cond) then clifValue ρ ifTrue else clifValue ρ ifFalse

/-! ## The bytes that occur -/

/-- The byte with low bit `b` and all other bits `h`. -/
def boolByte (b h : Bool) : BitVec 8 := (if h then 0xFE else 0) ||| clifBool b

theorem clifBool_eq_boolByte (b : Bool) : clifBool b = boolByte b false := by
  cases b <;> rfl

theorem clifTest_boolByte (b h : Bool) : clifTest (boolByte b h) = (b || h) := by
  cases b <;> cases h <;> rfl

theorem not_boolByte (b h : Bool) : ~~~ boolByte b h = boolByte (!b) (!h) := by
  cases b <;> cases h <;> rfl

theorem clifBitwise_boolByte (op : BitwiseOp) (b h b' h' : Bool) :
    clifBitwise op (boolByte b h) (boolByte b' h') =
      boolByte (BitwiseOp.onBool op b b') (BitwiseOp.onBool op h h') := by
  cases op <;> cases b <;> cases h <;> cases b' <;> cases h' <;> rfl

/-! ## Tests -/

/-- The conditions of the selects inside a tree. -/
def BoolExpr.conds : BoolExpr → List BoolExpr
  | icmp .. | icmpImm .. | overflow .. => []
  | bitwise _ lhs rhs => lhs.conds ++ rhs.conds
  | bitNot value => value.conds
  | select cond ifTrue ifFalse => cond :: (cond.conds ++ ifTrue.conds ++ ifFalse.conds)

/-- What is tested for non-zero when a tree is the condition of a branch: the tree
    and every select condition in it. -/
def BoolExpr.tests (e : BoolExpr) : List BoolExpr := e :: e.conds

/-- The test of `e` is decided as its meaning says. -/
def Faithful (ρ : IntEnv) (e : BoolExpr) : Prop :=
  clifValue ρ e ≠ 0 ↔ e.meaning ρ = true

/-- The upper bits of a tree: its value with every comparison outside the select
    conditions false, each select taking the branch its meaning says. Without
    selects this is the meaning of the tree in which all comparisons fail. -/
def BoolExpr.highBits (ρ : IntEnv) : BoolExpr → Bool
  | icmp .. | icmpImm .. | overflow .. => false
  | bitwise op lhs rhs => BitwiseOp.onBool op (lhs.highBits ρ) (rhs.highBits ρ)
  | bitNot value => !value.highBits ρ
  | select cond ifTrue ifFalse =>
    if cond.meaning ρ then ifTrue.highBits ρ else ifFalse.highBits ρ

theorem faithful_iff_clifTest {ρ : IntEnv} {e : BoolExpr} :
    Faithful ρ e ↔ clifTest (clifValue ρ e) = e.meaning ρ := by
  unfold Faithful clifTest
  cases h : e.meaning ρ <;> simp

/-- Where the select conditions are decided rightly, the byte of a tree is its
    meaning below its upper bits. -/
theorem clifValue_eq_boolByte {ρ : IntEnv} {e : BoolExpr} (h : ∀ c ∈ e.conds, Faithful ρ c) :
    clifValue ρ e = boolByte (e.meaning ρ) (e.highBits ρ) := by
  induction e with
  | icmp | icmpImm | overflow => exact clifBool_eq_boolByte _
  | bitwise op lhs rhs ihl ihr =>
    simp only [BoolExpr.conds, List.mem_append, or_imp, forall_and] at h
    rw [clifValue, ihl h.1, ihr h.2, clifBitwise_boolByte]
    rfl
  | bitNot value ih =>
    rw [clifValue, ih h, not_boolByte]
    rfl
  | select cond ifTrue ifFalse ihc iht ihf =>
    simp only [BoolExpr.conds, List.mem_cons, List.mem_append, or_imp, forall_and, forall_eq] at h
    obtain ⟨hc, ⟨-, ht⟩, hf⟩ := h
    rw [clifValue, faithful_iff_clifTest.1 hc, iht ht, ihf hf]
    simp only [BoolExpr.meaning, BoolExpr.highBits]
    split_ifs <;> rfl

/-- A test over rightly decided selects is right unless it is false with its upper
    bits set. -/
theorem faithful_iff_of_conds {ρ : IntEnv} {e : BoolExpr} (h : ∀ c ∈ e.conds, Faithful ρ c) :
    Faithful ρ e ↔ (e.meaning ρ = true ∨ e.highBits ρ = false) := by
  rw [faithful_iff_clifTest, clifValue_eq_boolByte h, clifTest_boolByte]
  cases e.meaning ρ <;> cases e.highBits ρ <;> simp

theorem conds_trans {e c d : BoolExpr} (hc : c ∈ e.conds) (hd : d ∈ c.conds) : d ∈ e.conds := by
  induction e with
  | icmp | icmpImm | overflow => cases hc
  | bitwise op lhs rhs ihl ihr =>
    simp only [BoolExpr.conds, List.mem_append] at hc ⊢
    exact hc.imp ihl ihr
  | bitNot value ih => exact ih hc
  | select cond ifTrue ifFalse ihc iht ihf =>
    simp only [BoolExpr.conds, List.mem_cons, List.mem_append] at hc ⊢
    rcases hc with rfl | (hc | hc) | hc
    · exact .inr (.inl (.inl hd))
    · exact .inr (.inl (.inl (ihc hc)))
    · exact .inr (.inl (.inr (iht hc)))
    · exact .inr (.inr (ihf hc))

/-- If no select condition is false with its upper bits set, all of them are
    decided rightly: innermost conditions first. -/
theorem conds_faithful {ρ : IntEnv} {e : BoolExpr}
    (h : ∀ c ∈ e.conds, c.meaning ρ = true ∨ c.highBits ρ = false) :
    ∀ c ∈ e.conds, Faithful ρ c := by
  induction e with
  | icmp | icmpImm | overflow => simp [BoolExpr.conds]
  | bitwise op lhs rhs ihl ihr =>
    simp only [BoolExpr.conds, List.mem_append, or_imp, forall_and] at h ⊢
    exact ⟨ihl h.1, ihr h.2⟩
  | bitNot value ih => exact ih h
  | select cond ifTrue ifFalse ihc iht ihf =>
    simp only [BoolExpr.conds, List.mem_cons, List.mem_append, or_imp, forall_and,
      forall_eq] at h ⊢
    obtain ⟨hc, ⟨hcs, ht⟩, hf⟩ := h
    exact ⟨(faithful_iff_of_conds (ihc hcs)).2 hc, ⟨ihc hcs, iht ht⟩, ihf hf⟩

/-- The Cranelift lowering decides a tree and the condition of every select in it,
    also of those in an arm that is not taken, by the boolean meaning exactly when
    none of these tests is false while its upper bits are set. -/
theorem testsFaithful_iff (e : BoolExpr) (ρ : IntEnv) :
    (∀ t ∈ e.tests, Faithful ρ t) ↔
      ∀ t ∈ e.tests, t.meaning ρ = true ∨ t.highBits ρ = false := by
  constructor
  · intro h t ht
    have hconds : ∀ c ∈ t.conds, Faithful ρ c := by
      intro c hc
      rcases List.mem_cons.1 ht with rfl | ht'
      · exact h c (List.mem_cons_of_mem _ hc)
      · exact h c (List.mem_cons_of_mem _ (conds_trans ht' hc))
    exact (faithful_iff_of_conds hconds).1 (h t ht)
  · intro h
    have hconds := conds_faithful fun c hc => h c (List.mem_cons_of_mem _ hc)
    intro t ht
    rcases List.mem_cons.1 ht with rfl | ht'
    · exact (faithful_iff_of_conds hconds).2 (h t ht)
    · exact hconds t ht'

/-- `bitnot` of a comparison that holds is false in the IR and 0xFE, a taken
    branch, in Cranelift. -/
theorem bitNot_true_not_faithful :
    ¬ Faithful (fun _ => 0) (.bitNot (.icmp .equal .w8 0 0)) := by
  rw [faithful_iff_clifTest]
  decide

end RapidArm.Backend
