import RapidArm.Clif.Emits

/-!
# The instructions of an integer statement

The instructions that `lower_rvalue` inserts for a statement compute what the statement means.
An integer or pointer is its bits and a boolean a byte that is 0 or 1, except for the result of
`HasTag`: it is the pointer masked by the tag, which may be tested but is no byte.

Results:
* `lowerInteger_computed`: the statements on integers and booleans, `BitNot` of a boolean apart.
* `lowerSelect_computed`: `Select`, whose condition may be a tag.
-/

namespace RapidArm.Clif

open RapidArm.Ir RapidArm.Jit RapidArm.Lib RapidArm.Backend RapidArm.Mmu

/-! ## Representations -/

/-- The word of a value. A tag is not zero if and only if it is there. -/
def Represents (tag : Bool) (x : Val Address) (word : Word) : Prop :=
  if tag then word.width = .w64 ∧ x = .bool (word.bits != 0) else word = toWord x

/-- The result of a statement is a tag. -/
def isHasTag : StmtKind → Bool
  | .hasTag _ _ => true
  | _ => false

/-- The operands that are used for more than a test. -/
def valueOperands : StmtKind → List SSAValue
  | .select _ ifTrue ifFalse => [ifTrue, ifFalse]
  | rvalue => FunctionLowering.rvalueUses rvalue

theorem clifBool_ne_zero (b : Bool) : (clifBool b != 0) = b := by cases b <;> rfl

/-- A test of the word is a test of the value. -/
theorem Represents.test {W : Type} {host : FlatHost W} {tag : Bool} {x : Val Address} {word : Word}
    (h : Represents tag x word) : (word.bits != 0) = !(flatMachine host).isZero x := by
  unfold Represents at h
  split_ifs at h
  · obtain ⟨-, rfl⟩ := h
    exact (Bool.not_not _).symm
  · subst h
    cases x with
    | int width value => rfl
    | bool value => exact (clifBool_ne_zero value).trans (Bool.not_not value).symm
    | ptr p => rfl

/-- A choice by a comparison. -/
theorem select_clifBool (b : Bool) {width : IntWidth} (x y : BitVec width.bits) :
    (if (Word.mk .w8 (clifBool b)).bits != 0 then Word.mk width x else Word.mk width y) =
      ⟨width, if b then x else y⟩ := by
  cases b <;> rfl

section Operations

theorem convertToIntcc_holds (cmp : IntCmp) {n : ℕ} (lhs rhs : BitVec n) :
    (convertToIntcc cmp).holds lhs rhs = intCmp cmp lhs rhs := by
  cases cmp <;> rfl

theorem Word.binary_arith (op : ArithBinOp) {width : IntWidth} (lhs rhs : BitVec width.bits) :
    Word.binary (arithOp op) ⟨width, lhs⟩ ⟨width, rhs⟩ =
      (arithResult op lhs rhs).map fun r => ⟨width, r⟩ := by
  cases op <;> simp [arithOp, Word.binary, BinaryOp.apply, arithResult]

theorem bitwiseOp_apply (op : BitwiseOp) {n : ℕ} (lhs rhs : BitVec n) :
    (bitwiseOp op).apply lhs rhs = some (bitwiseResult op lhs rhs) := by
  cases op <;> rfl

theorem Word.binary_bitwise (op : BitwiseOp) {width : IntWidth} (lhs rhs : BitVec width.bits) :
    Word.binary (bitwiseOp op) ⟨width, lhs⟩ ⟨width, rhs⟩ =
      some ⟨width, bitwiseResult op lhs rhs⟩ := by
  cases op <;> simp [bitwiseOp, Word.binary, BinaryOp.apply, bitwiseResult]

/-- On bytes that are 0 or 1 they are the operations on booleans. -/
theorem Word.binary_clifBool (op : BitwiseOp) (lhs rhs : Bool) :
    Word.binary (bitwiseOp op) ⟨.w8, clifBool lhs⟩ ⟨.w8, clifBool rhs⟩ =
      some ⟨.w8, clifBool (BitwiseOp.onBool op lhs rhs)⟩ := by
  cases op <;> cases lhs <;> cases rhs <;> rfl

theorem Word.binary_shift (op : ShiftOp) {width width' : IntWidth} (value : BitVec width.bits)
    (amount : BitVec width'.bits) :
    Word.binary (shiftOp op) ⟨width, value⟩ ⟨width', amount⟩ =
      some ⟨width, clifShift op value amount⟩ := by
  cases op <;> rfl

/-- An immediate amount is masked, so that it may be cut to the type of the value first. -/
theorem shiftOp_apply (op : ShiftOp) {width : IntWidth} (value : BitVec width.bits)
    (imm : BitVec 64) :
    (shiftOp op).apply value (imm.setWidth width.bits) = some (clifShift op value imm) := by
  have hmask : (imm.setWidth width.bits).toNat % width.bits = imm.toNat % width.bits := by
    rw [BitVec.toNat_setWidth]
    exact mod_two_pow_mod_bits width imm.toNat
  cases op <;> simp only [shiftOp, BinaryOp.apply, clifShift, hmask]

end Operations

/-! ## Statements -/

section Statements

variable {W : Type} {host : FlatHost W} {halts : ℕ → BitVec 32} {ir : ExecIrBuilder}
  {ρ : SSAValue → Val Address} {tag : SSAValue → Bool} {types types' : List IntWidth}
  {s s' : ClifState W}

/-- The Cranelift value `cv` holds what the value `v` of the IR does. -/
def Shows (tag : SSAValue → Bool) (ρ : SSAValue → Val Address) (types : List IntWidth)
    (s : ClifState W)
    (v : SSAValue) (cv : ClifValue) : Prop :=
  ∃ word, Holds types s cv word ∧ Represents (tag v) (ρ v) word

theorem Shows.word {v : SSAValue} {cv : ClifValue} (h : Shows tag ρ types s v cv)
    (htag : tag v = false) :
    Holds types s cv (toWord (ρ v)) := by
  obtain ⟨word, hword, hrep⟩ := h
  rw [Represents, htag, if_neg Bool.false_ne_true] at hrep
  exact hrep ▸ hword

theorem represents_word (x : Val Address) : Represents false x (toWord x) := by
  rw [Represents, if_neg Bool.false_ne_true]

/-- The Cranelift values that hold the words of some values. -/
def HoldAll (types : List IntWidth) (s : ClifState W) :
    List ClifValue → List (Val Address) → Prop :=
  List.Forall₂ fun cv x => Holds types s cv (toWord x)

theorem holdAll_of_shows {vs : List SSAValue} {ops : List ClifValue}
    (h : List.Forall₂ (Shows tag ρ types s) vs ops) (htag : ∀ v ∈ vs, tag v = false) :
    HoldAll types s ops (vs.map ρ) := by
  induction h with
  | nil => exact List.Forall₂.nil
  | cons hv _ ih =>
    refine List.Forall₂.cons (hv.word (htag _ List.mem_cons_self)) ?_
    exact ih fun v hv => htag v (List.mem_cons_of_mem _ hv)

theorem HoldAll.nil {ops : List ClifValue} (h : HoldAll types s ops []) : ops = [] :=
  List.forall₂_nil_right_iff.1 h

theorem HoldAll.one {ops : List ClifValue} {x : Val Address} (h : HoldAll types s ops [x]) :
    ∃ c, ops = [c] ∧ Holds types s c (toWord x) := by
  obtain ⟨c, rest, hc, hrest, rfl⟩ := List.forall₂_cons_right_iff.1 h
  obtain rfl := HoldAll.nil hrest
  exact ⟨c, rfl, hc⟩

theorem HoldAll.two {ops : List ClifValue} {x y : Val Address} (h : HoldAll types s ops [x, y]) :
    ∃ c d, ops = [c, d] ∧ Holds types s c (toWord x) ∧ Holds types s d (toWord y) := by
  obtain ⟨c, rest, hc, hrest, rfl⟩ := List.forall₂_cons_right_iff.1 h
  obtain ⟨d, rfl, hd⟩ := HoldAll.one hrest
  exact ⟨c, d, rfl, hc, hd⟩

theorem HoldAll.three {ops : List ClifValue} {x y z : Val Address}
    (h : HoldAll types s ops [x, y, z]) :
    ∃ c d e, ops = [c, d, e] ∧ Holds types s c (toWord x) ∧ Holds types s d (toWord y) ∧
      Holds types s e (toWord z) := by
  obtain ⟨c, rest, hc, hrest, rfl⟩ := List.forall₂_cons_right_iff.1 h
  obtain ⟨d, e, rfl, hd, he⟩ := HoldAll.two hrest
  exact ⟨c, d, e, rfl, hc, hd, he⟩

/-- The words of what a statement yields are computed. -/
def Computed (host : FlatHost W) (halts : ℕ → BitVec 32) (ir : ExecIrBuilder)
    (types : List IntWidth) (s : ClifState W) (rvalue : StmtKind) (ops : List ClifValue)
    (vals : List (Val Address))
   
    (world : W) : Prop :=
  ∃ words, List.Forall₂ (Represents (isHasTag rvalue)) vals words ∧
    Emits host halts types s (lowerRvalue host.codeAddr ir rvalue ops) (Many world s.reads words)

theorem Computed.one {rvalue : StmtKind} {ops : List ClifValue} {x : Val Address} {world : W}
    {m : ClifM ClifValue} (htag : isHasTag rvalue = false)
    (hlower : lowerRvalue host.codeAddr ir rvalue ops = do return [← m])
    (h : Emits host halts types s m (One world s.reads (toWord x))) :
    Computed host halts ir types s rvalue ops [x] world := by
  refine ⟨[toWord x], List.Forall₂.cons ?_ List.Forall₂.nil, hlower ▸ h.singleton⟩
  rw [htag]
  exact represents_word x

theorem eval_binaryOverflow {op : OverflowingBinOp} {width : IntWidth} {lhs rhs : BitVec width.bits}
    {c d : ClifValue} (hc : Holds types s c ⟨width, lhs⟩) (hd : Holds types s d ⟨width, rhs⟩) :
    ClifInst.eval host halts s (.binaryOverflow op c d) =
      some ([⟨width, (clifOverflowing op lhs rhs).1⟩,
        ⟨.w8, clifBool (clifOverflowing op lhs rhs).2⟩],
        s.world, s.reads) := by
  obtain ⟨-, hc⟩ := hc
  obtain ⟨-, hd⟩ := hd
  simp only [ClifInst.eval, ClifInst.compute]
  generalize s.env c = x at hc
  generalize s.env d = y at hd
  subst hc hd
  simp

/-- What `ShiftUnbounded` yields for an amount out of range. -/
def overflowVal (op : ShiftOp) {n : ℕ} (value : BitVec n) : BitVec n :=
  match op with
  | .signExtendShr => clifShift .signExtendShr value (BitVec.ofNat 64 (n - 1))
  | .zeroExtendShr | .shl => 0

theorem lowerOverflowVal_emits (op : ShiftOp) {width : IntWidth} {value : BitVec width.bits}
    {c : ClifValue} (hc : Holds types s c ⟨width, value⟩) :
    Emits host halts types s (lowerOverflowVal op width c)
      (One s.world s.reads ⟨width, overflowVal op value⟩) := by
  have hzero : Emits host halts types s (iconst ⟨width, 0⟩) (One s.world s.reads ⟨width, 0⟩) := by
    have hbits : (0 : BitVec 64).setWidth width.bits = 0 := by simp
    rw [← hbits]
    exact emits_iconst ⟨width, 0⟩
  cases op with
  | signExtendShr => exact emits_binaryImm hc (shiftOp_apply .signExtendShr value _)
  | zeroExtendShr => exact hzero
  | shl => exact hzero

/-- `ShiftUnbounded` is the comparison, the shift, what an overflow gives, and the choice. -/
theorem lowerShiftUnbounded_emits (op : ShiftOp) {width width' : IntWidth}
    {value : BitVec width.bits} {amount : BitVec width'.bits} {c d : ClifValue}
    (hc : Holds types s c ⟨width, value⟩) (hd : Holds types s d ⟨width', amount⟩) :
    Emits host halts types s (lowerShiftUnbounded op c d)
      (One s.world s.reads ⟨width, clifShiftUnbounded op value amount⟩) := by
  have hrange : (convertToIntcc .unsignedLessThan).holds amount
      ((BitVec.ofNat 64 width.bits).setWidth width'.bits) =
      intCmp .unsignedLessThan amount (BitVec.ofNat width'.bits width.bits) := by
    rw [convertToIntcc_holds]
    congr 1
    cases width <;> cases width' <;> rfl
  have hmeaning : clifShiftUnbounded op value amount =
      if intCmp .unsignedLessThan amount (BitVec.ofNat width'.bits width.bits) then
        clifShift op value amount else overflowVal op value := by
    cases op <;> rfl
  rw [hmeaning, ← hrange, ← select_clifBool]
  refine Emits.bind (emits_valueType hc fun _ => ?_)
  refine Emits.bind ((emits_icmpImm hd).mono fun inRange types₁ s₁ hext₁ ⟨hw₁, hr₁, hin⟩ _ => ?_)
  replace hc := hc.extends hext₁
  replace hd := hd.extends hext₁
  refine Emits.bind ((emits_binary hc hd (Word.binary_shift op value amount)).mono
    fun shifted types₂ s₂ hext₂ ⟨hw₂, hr₂, hsh⟩ _ => ?_)
  refine Emits.bind ((lowerOverflowVal_emits op (hc.extends hext₂)).mono
    fun past types₃ s₃ hext₃ ⟨hw₃, hr₃, hover⟩ _ => ?_)
  have hin₃ := (hin.extends hext₂).extends hext₃
  refine (emits_select hin₃ (hsh.extends hext₃) hover rfl).mono ?_
  rintro out types₄ s₄ - ⟨hw₄, hr₄, hout⟩
  exact ⟨hw₄.trans (hw₃.trans (hw₂.trans hw₁)), hr₄.trans (hr₃.trans (hr₂.trans hr₁)), hout⟩

/-- `Select` tests its condition, which may be a tag. -/
theorem lowerSelect_computed {cond ifTrue ifFalse : SSAValue} {ops : List ClifValue}
    {vals : List (Val Address)}
    (hops : List.Forall₂ (Shows tag ρ types s) [cond, ifTrue, ifFalse] ops)
    (htrue : tag ifTrue = false) (hfalse : tag ifFalse = false)
    (hwidth : (toWord (ρ ifTrue)).width = (toWord (ρ ifFalse)).width)
    (heval : evalInteger .cranelift (.select cond ifTrue ifFalse) [ρ cond, ρ ifTrue, ρ ifFalse] =
      some vals) :
    Computed host halts ir types s (.select cond ifTrue ifFalse) ops vals s.world := by
  obtain ⟨c, ops₁, ⟨word, hword, hrep⟩, hops₁, rfl⟩ := List.forall₂_cons_left_iff.1 hops
  obtain ⟨d, ops₂, hd, hops₂, rfl⟩ := List.forall₂_cons_left_iff.1 hops₁
  obtain ⟨e, ops₃, he, hops₃, rfl⟩ := List.forall₂_cons_left_iff.1 hops₂
  obtain rfl := List.forall₂_nil_left_iff.1 hops₃
  have htest := @Represents.test W host _ _ _ hrep
  generalize ρ cond = x at heval htest
  cases x with
  | bool b =>
    obtain rfl := Option.some.inj heval
    have hb : (word.bits != 0) = b := htest.trans (Bool.not_not b)
    have hchoice : toWord (if b then ρ ifTrue else ρ ifFalse) =
        if word.bits != 0 then toWord (ρ ifTrue) else toWord (ρ ifFalse) := by
      rw [hb]
      cases b <;> rfl
    refine Computed.one rfl rfl ?_
    rw [hchoice]
    exact emits_select hword (hd.word htrue) (he.word hfalse) hwidth
  | int width value => cases heval
  | ptr p => cases heval

theorem lowerInteger_computed {rvalue : StmtKind} {ops : List ClifValue}
    {args vals : List (Val Address)}
    (hselect : ∀ cond ifTrue ifFalse, rvalue ≠ .select cond ifTrue ifFalse)
    (hargs : HoldAll types s ops args) (hnot : ∀ v b, rvalue = .bitNot v → args ≠ [.bool b])
    (heval : evalInteger .cranelift rvalue args = some vals) :
    Computed host halts ir types s rvalue ops vals s.world := by
  unfold evalInteger at heval
  split at heval
  -- the constant
  case h_1 c =>
    obtain rfl := hargs.nil
    obtain rfl := Option.some.inj heval
    exact Computed.one rfl rfl (emits_iconst c)
  -- arithmetic
  case h_2 op _ _ w lhs w' rhs =>
    obtain ⟨c, d, rfl, hc, hd⟩ := hargs.two
    obtain ⟨rfl, heval⟩ := Option.ite_none_right_eq_some.1 heval
    obtain ⟨r, hr, rfl⟩ := Option.map_eq_some_iff.1 heval
    rw [BitVec.setWidth_eq] at hr
    refine Computed.one rfl rfl (emits_binary hc hd ?_)
    rw [toWord, toWord, Word.binary_arith, hr]
    rfl
  case h_3 w value =>
    obtain ⟨c, rfl, hc⟩ := hargs.one
    obtain rfl := Option.some.inj heval
    exact Computed.one rfl rfl (emits_unary hc)
  case h_4 op _ _ w lhs w' rhs =>
    obtain ⟨c, d, rfl, hc, hd⟩ := hargs.two
    obtain ⟨rfl, heval⟩ := Option.ite_none_right_eq_some.1 heval
    obtain rfl := Option.some.inj heval
    rw [BitVec.setWidth_eq]
    refine ⟨[⟨w, (overflowing .cranelift op lhs rhs).1⟩,
      ⟨.w8, clifBool (overflowing .cranelift op lhs rhs).2⟩], ?_, ?_⟩
    · exact List.Forall₂.cons (represents_word _)
        (List.Forall₂.cons (represents_word _) List.Forall₂.nil)
    · exact Emits.bind (emits_valueType hc fun _ => emits_many (eval_binaryOverflow hc hd) rfl)
  -- comparisons
  case h_5 cmp _ _ w lhs w' rhs =>
    obtain ⟨c, d, rfl, hc, hd⟩ := hargs.two
    obtain ⟨rfl, heval⟩ := Option.ite_none_right_eq_some.1 heval
    obtain rfl := Option.some.inj heval
    rw [BitVec.setWidth_eq, ← convertToIntcc_holds]
    exact Computed.one rfl rfl (emits_icmp hc hd)
  case h_6 cmp _ imm w lhs =>
    obtain ⟨c, rfl, hc⟩ := hargs.one
    obtain rfl := Option.some.inj heval
    rw [← convertToIntcc_holds]
    exact Computed.one rfl rfl (emits_icmpImm hc)
  case h_7 => exact absurd rfl (hselect _ _ _)
  -- bitwise operations, on booleans and on integers
  case h_8 op _ _ lhs rhs =>
    obtain ⟨c, d, rfl, hc, hd⟩ := hargs.two
    obtain rfl := Option.some.inj heval
    exact Computed.one rfl rfl (emits_binary hc hd (Word.binary_clifBool op lhs rhs))
  case h_9 op _ _ w lhs w' rhs =>
    obtain ⟨c, d, rfl, hc, hd⟩ := hargs.two
    obtain ⟨rfl, heval⟩ := Option.ite_none_right_eq_some.1 heval
    obtain rfl := Option.some.inj heval
    rw [BitVec.setWidth_eq]
    exact Computed.one rfl rfl (emits_binary hc hd (Word.binary_bitwise op lhs rhs))
  case h_10 op _ imm w lhs =>
    obtain ⟨c, rfl, hc⟩ := hargs.one
    obtain rfl := Option.some.inj heval
    exact Computed.one rfl rfl (emits_binaryImm hc (bitwiseOp_apply op _ _))
  case h_11 b => exact absurd rfl (hnot _ b rfl)
  case h_12 w value =>
    obtain ⟨c, rfl, hc⟩ := hargs.one
    obtain rfl := Option.some.inj heval
    exact Computed.one rfl rfl (emits_unary hc)
  -- shifts
  case h_13 op _ _ w value w' amount =>
    obtain ⟨c, d, rfl, hc, hd⟩ := hargs.two
    obtain rfl := Option.some.inj heval
    rw [← clifShift_eq_shiftMeaning]
    exact Computed.one rfl rfl (emits_binary hc hd (Word.binary_shift op value amount))
  case h_14 op _ _ w value w' amount =>
    obtain ⟨c, d, rfl, hc, hd⟩ := hargs.two
    obtain rfl := Option.some.inj heval
    exact Computed.one rfl rfl (lowerShiftUnbounded_emits op hc hd)
  case h_15 op _ amount w value =>
    obtain ⟨c, rfl, hc⟩ := hargs.one
    obtain ⟨r, hr, rfl⟩ := Option.map_eq_some_iff.1 heval
    obtain ⟨-, hr⟩ := Option.ite_none_right_eq_some.1 hr
    obtain rfl := Option.some.inj hr
    exact Computed.one rfl rfl (emits_binaryImm hc (shiftOp_apply op value _))
  case h_16 => cases heval

end Statements

end RapidArm.Clif
