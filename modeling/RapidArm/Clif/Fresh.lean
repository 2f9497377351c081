import RapidArm.Clif.Lowering

/-!
# New values

What an emitter returns is new: no value that was there before it. This is known without
running the instructions, and it is why a jump that binds the parameters of a block changes no
other value.

Results:
* `lowerRvalue_fresh`: the values of a statement, for every kind of statement.
-/

namespace RapidArm.Clif

open RapidArm.Ir RapidArm.Jit RapidArm.Lib RapidArm.Backend

/-- Different values that were made between `types` and `types'`. -/
structure FreshIn (types types' : List IntWidth) (vs : List ClifValue) : Prop where
  nodup : vs.Nodup
  new : ∀ v ∈ vs, types.length ≤ v
  there : ∀ v ∈ vs, v < types'.length

/-- The emitter only adds types, and returns new values. -/
def Makes {α : Type} (types : List IntWidth) (m : ClifM α) (vs : α → List ClifValue) : Prop :=
  ∀ insts a t, m ⟨types, insts⟩ = .ok (a, t) → types <+: t.types ∧ FreshIn types t.types (vs a)

section Rules

variable {α β : Type} {types types' : List IntWidth} {m : ClifM α} {vs : α → List ClifValue}

theorem FreshIn.nil : FreshIn types types' [] := ⟨List.nodup_nil, by simp, by simp⟩

theorem FreshIn.of_prefix {types₁ : List IntWidth} {l : List ClifValue} (h : types <+: types₁)
    (hl : FreshIn types₁ types' l) : FreshIn types types' l :=
  ⟨hl.nodup, fun v hv => le_trans h.length_le (hl.new v hv), hl.there⟩

theorem makes_pure {a : α} (h : vs a = []) : Makes types (pure a) vs := by
  intro insts a' t hrun
  obtain ⟨rfl, rfl⟩ := Prod.mk.inj (Except.ok.inj hrun)
  exact ⟨List.prefix_refl _, h ▸ FreshIn.nil⟩

theorem makes_fail {e : ClifError} : Makes types (fail e : ClifM α) vs := by
  intro insts a t hrun
  cases hrun

/-- What the first emitter makes need not be returned. -/
theorem Makes.bind {f : α → ClifM β} {ws : β → List ClifValue} (hm : Makes types m fun _ => [])
    (hf : ∀ a types', Makes types' (f a) ws) : Makes types (m >>= f) ws := by
  intro insts b t hrun
  obtain ⟨⟨a, t₁⟩, hfirst, hnext⟩ := bind_eq_ok.1 hrun
  obtain ⟨hpre, -⟩ := hm insts a t₁ hfirst
  obtain ⟨hpre', hfresh⟩ := hf a t₁.types t₁.insts b t hnext
  exact ⟨hpre.trans hpre', hfresh.of_prefix hpre⟩

theorem Makes.drop (hm : Makes types m vs) : Makes types m fun _ => [] := fun insts a t hrun =>
  ⟨(hm insts a t hrun).1, FreshIn.nil⟩

/-- The values of an emitter, returned in another form. -/
theorem Makes.map {f : α → β} {ws : β → List ClifValue} (hm : Makes types m vs)
    (hf : ∀ a, ws (f a) = vs a) : Makes types (m >>= fun a => pure (f a)) ws := by
  intro insts b t hrun
  obtain ⟨⟨a, t₁⟩, hfirst, hnext⟩ := bind_eq_ok.1 hrun
  obtain ⟨rfl, rfl⟩ := Prod.mk.inj (Except.ok.inj hnext)
  obtain ⟨hpre, hfresh⟩ := hm insts a t₁ hfirst
  exact ⟨hpre, hf a ▸ hfresh⟩

theorem Makes.ite {c : Prop} [Decidable c] {m' : ClifM α} (hm : Makes types m vs)
    (hm' : Makes types m' vs) : Makes types (if c then m else m') vs := by
  split_ifs
  · exact hm
  · exact hm'

/-! ### The instructions -/

theorem makes_valueType {v : ClifValue} : Makes types (valueType v) fun _ => [] := by
  intro insts a t hrun
  unfold valueType at hrun
  split at hrun
  · obtain ⟨rfl, rfl⟩ := Prod.mk.inj (Except.ok.inj hrun)
    exact ⟨List.prefix_refl _, FreshIn.nil⟩
  · cases hrun

theorem makes_emit {inst : ClifInst} {tys : List IntWidth} : Makes types (emit inst tys) id := by
  intro insts a t hrun
  obtain ⟨rfl, rfl⟩ := Prod.mk.inj (Except.ok.inj hrun)
  refine ⟨List.prefix_append _ _, List.nodup_range', fun v hv => ?_, fun v hv => ?_⟩
  · exact (List.mem_range'_1.1 hv).1
  · rw [List.length_append]
    exact (List.mem_range'_1.1 hv).2

theorem emit1_eq {inst : ClifInst} {ty : IntWidth} {insts : List ClifStmt} :
    emit1 inst ty ⟨types, insts⟩ =
      .ok (types.length, ⟨types ++ [ty], insts ++ [⟨[types.length], inst⟩]⟩) := rfl

theorem makes_emit1 {inst : ClifInst} {ty : IntWidth} :
    Makes types (emit1 inst ty) fun v => [v] := by
  intro insts v t hrun
  rw [emit1_eq] at hrun
  obtain ⟨rfl, rfl⟩ := Prod.mk.inj (Except.ok.inj hrun)
  exact makes_emit insts [types.length] _ (show emit inst [ty] ⟨types, insts⟩ = _ from rfl)

theorem makes_iconst {c : IConst} : Makes types (iconst c) fun v => [v] := makes_emit1

theorem makes_binary {op : BinaryOp} {lhs rhs : ClifValue} :
    Makes types (binary op lhs rhs) fun v => [v] :=
  makes_valueType.bind fun _ _ => makes_emit1

theorem makes_binaryImm {op : BinaryOp} {lhs : ClifValue} {imm : BitVec 64} :
    Makes types (binaryImm op lhs imm) fun v => [v] :=
  makes_valueType.bind fun _ _ => makes_emit1

theorem makes_unary {op : UnaryOp} {arg : ClifValue} : Makes types (unary op arg) fun v => [v] :=
  makes_valueType.bind fun _ _ => makes_emit1

theorem makes_select {cond ifTrue ifFalse : ClifValue} :
    Makes types (select cond ifTrue ifFalse) fun v => [v] :=
  makes_valueType.bind fun _ _ => makes_emit1

theorem makes_assertValueTy {value : ClifValue} {ty : IntWidth} {context : String} :
    Makes types (assertValueTy value ty context) fun _ => [] :=
  makes_valueType.bind fun _ _ => Makes.ite (makes_pure rfl) makes_fail

theorem makes_hostMemoryFlags {canMove : Bool} {region : AliasRegion} :
    Makes types (hostMemoryFlags canMove region) fun _ => [] :=
  Makes.ite makes_fail (makes_pure rfl)

theorem makes_offset32 {offset : ℕ} : Makes types (offset32 offset) fun _ => [] :=
  Makes.ite (makes_pure rfl) makes_fail

theorem makes_pointerRegion {ir : ExecIrBuilder} {basePtr : SSAValue} :
    Makes types (pointerRegion ir basePtr) fun _ => [] := by
  unfold pointerRegion
  split
  · exact makes_pure rfl
  · exact makes_fail

theorem makes_ptrAdd {basePtr offset : ClifValue} {elemSize : ℕ} :
    Makes types (ptrAdd basePtr offset elemSize) fun v => [v] := by
  refine makes_assertValueTy.bind fun _ _ => makes_valueType.bind fun _ _ => ?_
  refine Makes.bind (Makes.ite makes_emit1.drop (makes_pure rfl)) fun _ _ => ?_
  refine Makes.bind (Makes.ite (makes_pure rfl) (Makes.ite makes_binaryImm.drop makes_fail))
    fun _ _ => ?_
  exact makes_binary

theorem makes_lowerShiftUnbounded {op : ShiftOp} {value shift : ClifValue} :
    Makes types (lowerShiftUnbounded op value shift) fun v => [v] := by
  refine makes_valueType.bind fun _ _ => makes_emit1.drop.bind fun _ _ => ?_
  refine makes_binary.drop.bind fun _ _ => ?_
  refine Makes.bind (?_ : Makes _ _ fun _ => []) fun _ _ => makes_select
  cases op with
  | signExtendShr => exact makes_binaryImm.drop
  | zeroExtendShr => exact makes_iconst.drop
  | shl => exact makes_iconst.drop

/-- One new value, returned as a list. -/
theorem Makes.singleton {m : ClifM ClifValue} (h : Makes types m fun v => [v]) :
    Makes types (do return [← m]) id :=
  h.map fun _ => rfl

end Rules

/-! ## Statements -/

theorem lowerRvalue_fresh {codeAddr : HostCallback → Address} {ir : ExecIrBuilder}
    {rvalue : StmtKind} {operands : List ClifValue} {types : List IntWidth} :
    Makes types (lowerRvalue codeAddr ir rvalue operands) id := by
  unfold lowerRvalue
  split
  -- one instruction on integers
  case h_1 => exact makes_iconst.singleton
  case h_2 => exact makes_binary.singleton
  case h_3 => exact makes_unary.singleton
  case h_4 => exact makes_emit1.singleton
  case h_5 => exact makes_emit1.singleton
  case h_6 => exact makes_select.singleton
  case h_7 => exact makes_binary.singleton
  case h_8 => exact makes_binaryImm.singleton
  case h_9 => exact makes_unary.singleton
  case h_10 => exact makes_binary.singleton
  case h_11 => exact makes_lowerShiftUnbounded.singleton
  case h_12 => exact makes_binaryImm.singleton
  case h_13 => exact makes_valueType.bind fun _ _ => makes_emit
  -- memory of the host, and pointers
  case h_14 => exact makes_pointerRegion.bind fun _ _ => (makes_offset32.bind fun _ _ =>
    makes_hostMemoryFlags.bind fun _ _ => makes_emit1).singleton
  case h_15 =>
    refine makes_pointerRegion.bind fun _ _ => Makes.bind ?_ fun _ _ => makes_pure rfl
    exact makes_offset32.bind fun _ _ => makes_hostMemoryFlags.bind fun _ _ =>
      makes_emit.drop.bind fun _ _ => makes_pure rfl
  case h_16 =>
    exact Makes.bind (Makes.ite (makes_pure rfl) makes_fail) fun _ _ => makes_emit1.singleton
  case h_17 => exact makes_ptrAdd.singleton
  case h_18 => exact makes_assertValueTy.bind fun _ _ => makes_assertValueTy.bind fun _ _ =>
    makes_emit1.singleton
  case h_19 => exact makes_binaryImm.singleton
  case h_20 => exact makes_binaryImm.singleton
  -- calls, guest memory and the halt reason
  case h_21 => exact makes_emit1.drop.bind fun _ _ => makes_emit
  case h_22 => exact makes_ptrAdd.drop.bind fun _ _ => makes_emit1.singleton
  case h_23 => exact makes_ptrAdd.drop.bind fun _ _ => makes_emit
  case h_24 => exact makes_hostMemoryFlags.bind fun _ _ => makes_emit1.singleton
  case h_25 => exact makes_iconst.drop.bind fun _ _ => makes_hostMemoryFlags.bind fun _ _ =>
    makes_emit1.singleton
  case h_26 => exact makes_iconst.drop.bind fun _ _ => makes_hostMemoryFlags.bind fun _ _ =>
    makes_emit1.drop.bind fun _ _ => makes_pure rfl
  case h_27 => exact makes_pure rfl
  case h_28 => exact makes_fail

/-- What a terminator inserts only adds types. -/
theorem lowerTerminator_fresh {terminator : Terminator} {values : List ClifValue}
    {jumps : List (ClifBlock × List ClifValue)} {types : List IntWidth} :
    Makes types (lowerTerminator terminator values jumps) fun _ => [] := by
  unfold lowerTerminator
  split
  case h_1 => exact makes_emit1.drop.bind fun _ _ => makes_pure rfl
  case h_2 => exact makes_assertValueTy.bind fun _ _ => makes_pure rfl
  case h_3 => exact makes_pure rfl
  case h_4 => exact Makes.bind (makes_emit1.drop : Makes types (intNonzero _) _) fun _ _ =>
    makes_pure rfl
  case h_5 => exact makes_fail

end RapidArm.Clif
