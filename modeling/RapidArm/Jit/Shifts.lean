import RapidArm.Jit.Operations

/-!
# Immediate shifts

The shift builders of `ExecIrBuilder` (`jit-compiler-core/src/ir/mod.rs`, lines 1660–1883). A
shift by a constant is emitted as `ShiftImm`, whose amount must be below the width; the two
families that accept every amount reduce it, clamp it or fold the operation to a constant.

Results:
* `immediate_shifts_agree`: at every width, for all amounts of a `u8`, the immediate forms compute
  what the run-time forms compute of the amount as a constant of any width.
* `shiftImm_in_range`: no sequence of calls of the builder makes a `ShiftImm` with an amount that is
  not below the width.
-/

namespace RapidArm.Jit

open RapidArm.Ir RapidArm.Lib RapidArm.Backend ExecIrBuilder

/-! ## The methods by operation -/

/-- `ushr`, `sshr` and `shl`. -/
def shiftDyn : ShiftOp → SSAValue → SSAValue → BuilderM SSAValue
  | .zeroExtendShr => ushr
  | .signExtendShr => sshr
  | .shl => shl

/-- `ushr_unbounded`, `sshr_unbounded` and `shl_unbounded`. -/
def shiftUnboundedDyn : ShiftOp → SSAValue → SSAValue → BuilderM SSAValue
  | .zeroExtendShr => ushrUnbounded
  | .signExtendShr => sshrUnbounded
  | .shl => shlUnbounded

/-- `ushr_imm`, `sshr_imm` and `shl_imm`. -/
def shiftModuloImm : ShiftOp → SSAValue → BitVec 8 → BuilderM SSAValue
  | .zeroExtendShr => ushrImm
  | .signExtendShr => sshrImm
  | .shl => shlImm

/-- `ushr_exact_imm`, `sshr_exact_imm` and `shl_exact_imm`. -/
def shiftExactImm : ShiftOp → SSAValue → BitVec 8 → BuilderM SSAValue
  | .zeroExtendShr => ushrExactImm
  | .signExtendShr => sshrExactImm
  | .shl => shlExactImm

/-- `ushr_unbounded_imm`, `sshr_unbounded_imm` and `shl_unbounded_imm`. -/
def shiftUnboundedImm : ShiftOp → SSAValue → BitVec 8 → BuilderM SSAValue
  | .zeroExtendShr => ushrUnboundedImm
  | .signExtendShr => sshrUnboundedImm
  | .shl => shlUnboundedImm

theorem shiftDyn_eq (op : ShiftOp) (value shift : SSAValue) :
    shiftDyn op value shift = emitShiftOp op value shift false := by cases op <;> rfl

theorem shiftUnboundedDyn_eq (op : ShiftOp) (value shift : SSAValue) :
    shiftUnboundedDyn op value shift = emitShiftOp op value shift true := by cases op <;> rfl

theorem shiftModuloImm_eq (op : ShiftOp) (value : SSAValue) (bits : BitVec 8) :
    shiftModuloImm op value bits = emitModuloShiftImmOp op value bits := by cases op <;> rfl

theorem shiftExactImm_eq (op : ShiftOp) (value : SSAValue) (bits : BitVec 8) :
    shiftExactImm op value bits = emitPanickingShiftImmOp op value bits := by cases op <;> rfl

theorem shiftUnboundedImm_eq (op : ShiftOp) (value : SSAValue) (bits : BitVec 8) :
    shiftUnboundedImm op value bits = emitUnboundedShiftImmOp op value bits := by cases op <;> rfl

/-! ## The emitted code -/

section Code

variable {L : Layout} {backend : JitBackend}
  {other : StmtKind → List (Val HostPtr) → HostState → Option (List (Val HostPtr) × HostState)}
  {B : Set Block} {K : List (HostFact L backend other)} {s : HostState} {v amount : SSAValue}
  {width a : IntWidth} {x : BitVec width.bits} {y : BitVec a.bits} {op : ShiftOp}

theorem computes_shift (hv : IsInt v width x ∈ K) (ha : IsInt amount a y ∈ K) :
    Computes B K s (shiftDyn op v amount) (fun r =>
      [IsInt r width (shiftMeaning op x y.toNat)]) s := by
  rw [shiftDyn_eq]
  refine Computes.assertInt_bind hv (Computes.assertInt_bind ha ?_)
  exact computes_integer [IsInt v width x, IsInt amount a y] (forall_mem_pair hv ha) rfl rfl
    (fun b hK => typeOf_first (hK _ hv)) rfl

theorem computes_shiftUnbounded (hv : IsInt v width x ∈ K) (ha : IsInt amount a y ∈ K) :
    Computes B K s (shiftUnboundedDyn op v amount)
      (fun r => [IsInt r width (unboundedMeaning op x y.toNat)]) s := by
  rw [shiftUnboundedDyn_eq]
  refine Computes.assertInt_bind hv (Computes.assertInt_bind ha ?_)
  refine computes_integer [IsInt v width x, IsInt amount a y] (forall_mem_pair hv ha) rfl rfl
    (fun b hK => typeOf_first (hK _ hv)) ?_
  exact congrArg (Option.map fun r => [r]) (shiftUnbounded_eq backend op x y)

theorem computes_shiftImm {n : ℕ} (hv : IsInt v width x ∈ K) (hn : n < width.bits) :
    Computes B K s (emit1RetStmt (.shiftImm op v n)) (fun r =>
      [IsInt r width (shiftBy op x n)]) s := by
  refine computes_integer [IsInt v width x] (List.forall_mem_singleton.2 hv) rfl rfl
    (fun b hK => typeOf_first (hK _ hv)) ?_
  exact congrArg (Option.map fun r => [r]) (shiftImm_eq backend op x hn)

/-- A computation of panics whose result is known. -/
theorem Computes.liftM_bind {α β : Type} {e : Except Panic α} {r : α} {f : α → BuilderM β}
    {facts : β → List (HostFact L backend other)} {s' : HostState} (he : e = .ok r)
    (hf : Computes B K s (f r) facts s') :
    Computes B K s ((liftM e : BuilderM α) >>= f) facts s' := by
  subst he
  exact Computes.read_bind (fun _ => rfl) hf

theorem computes_moduloImm {bits : BitVec 8} (hv : IsInt v width x ∈ K) :
    Computes B K s (shiftModuloImm op v bits)
      (fun r => [IsInt r width (shiftMeaning op x bits.toNat)]) s := by
  rw [shiftModuloImm_eq]
  refine Computes.assertInt_bind hv (Computes.liftM_bind rfl ?_)
  exact computes_shiftImm hv (Nat.mod_lt _ (IntWidth.bits_pos width))

theorem computes_exactImm {bits : BitVec 8} (hv : IsInt v width x ∈ K)
    (h : bits.toNat < width.bits) :
    Computes B K s (shiftExactImm op v bits) (fun r =>
      [IsInt r width (shiftBy op x bits.toNat)]) s := by
  rw [shiftExactImm_eq]
  refine Computes.assertInt_bind hv (Computes.liftM_bind (r := .inl bits.toNat) ?_ ?_)
  · exact bind_eq_ok.2 ⟨(), require_eq_ok.2 h, rfl⟩
  · exact computes_shiftImm hv h

theorem computes_unboundedImm {bits : BitVec 8} (hv : IsInt v width x ∈ K) :
    Computes B K s (shiftUnboundedImm op v bits)
      (fun r => [IsInt r width (unboundedMeaning op x bits.toNat)]) s := by
  rw [shiftUnboundedImm_eq]
  have hlast : width.bits - 1 < width.bits := Nat.sub_lt (IntWidth.bits_pos width) Nat.one_pos
  unfold unboundedMeaning
  split_ifs with h
  · refine Computes.assertInt_bind hv (Computes.liftM_bind (r := .inl bits.toNat) ?_ ?_)
    · exact if_neg (Nat.not_le.2 h)
    · exact computes_shiftImm hv h
  · have hge : bits.toNat ≥ width.bits := Nat.not_lt.1 h
    cases op with
    | signExtendShr =>
      refine Computes.assertInt_bind hv (Computes.liftM_bind (r := .inl (width.bits - 1)) ?_ ?_)
      · exact if_pos hge
      · exact computes_shiftImm hv hlast
    | zeroExtendShr =>
      refine Computes.assertInt_bind hv (Computes.liftM_bind (r := .inr (.zero width)) ?_ ?_)
      · exact if_pos hge
      · exact computes_iconst (zero_bits width)
    | shl =>
      refine Computes.assertInt_bind hv (Computes.liftM_bind (r := .inr (.zero width)) ?_ ?_)
      · exact if_pos hge
      · exact computes_iconst (zero_bits width)

end Code

/-! ## Amounts -/

/-- Every `ShiftImm` of a builder has an amount below the width of its value. -/
def ShiftImmInRange (b : ExecIrBuilder) : Prop :=
  ∀ stmt ∈ b.stmts, ∀ op v n, stmt.rvalue = .shiftImm op v n →
    ∃ width, b.ssaValues[v]? = some (.int width) ∧ n < width.bits

/-- A call of the builder. A `ShiftImm` is emitted at one place, in `emit_shift_imm_op`
    (line 1757), which the shift methods call; `other` is a call that is not this emission. -/
inductive ShiftCall (b b' : ExecIrBuilder) : Prop
  | other (call : Call b b')
      (site : ∀ k op v n outputs, emitStmtFull k (.shiftImm op v n) b ≠ .ok (outputs, b'))
  | moduloImm (op : ShiftOp) (v : SSAValue) (bits : BitVec 8) {r : SSAValue}
      (run : shiftModuloImm op v bits b = .ok (r, b'))
  | exactImm (op : ShiftOp) (v : SSAValue) (bits : BitVec 8) {r : SSAValue}
      (run : shiftExactImm op v bits b = .ok (r, b'))
  | unboundedImm (op : ShiftOp) (v : SSAValue) (bits : BitVec 8) {r : SSAValue}
      (run : shiftUnboundedImm op v bits b = .ok (r, b'))

/-- The builders that such calls produce from a new one. -/
inductive ShiftBuilt : ExecIrBuilder → Prop
  | withConfig (haltCheckEvery : NonZeroU32) : ShiftBuilt (ExecIrBuilder.withConfig haltCheckEvery)
  | call {b b' : ExecIrBuilder} : ShiftBuilt b → ShiftCall b b' → ShiftBuilt b'

/-- The statements that a call adds: none, or the one it emits. -/
theorem stmts_of_call {b b' : ExecIrBuilder} (call : Call b b') :
    b'.stmts = b.stmts ∨ ∃ k rvalue outputs, emitStmtFull k rvalue b = .ok (outputs, b') ∧
      b'.stmts = b.stmts ++ [⟨outputs, rvalue⟩] := by
  cases call with
  | createBlock run =>
    obtain ⟨-, rfl⟩ := Prod.mk.inj (Except.ok.inj run)
    exact .inl rfl
  | switchTo block valid run =>
    obtain ⟨-, rfl⟩ := Prod.mk.inj (Except.ok.inj run)
    exact .inl rfl
  | markBlockBold block run =>
    unfold ExecIrBuilder.markBlockBold at run
    split_ifs at run
    · obtain ⟨-, rfl⟩ := Prod.mk.inj (Except.ok.inj run)
      exact .inl rfl
    · obtain ⟨data, -, hb'⟩ := bind_eq_ok.1 run
      obtain ⟨-, rfl⟩ := Prod.mk.inj (Except.ok.inj hb')
      exact .inl rfl
  | terminateBlock block t targets operands run =>
    obtain ⟨t', data, -, -, -, -, rfl⟩ := terminateBlock_eq_ok run
    exact .inl rfl
  | addBlockParameterAt block ty run =>
    obtain ⟨data, -, hb'⟩ := bind_eq_ok.1 run
    obtain ⟨-, rfl⟩ := Prod.mk.inj (Except.ok.inj hb')
    exact .inl rfl
  | emitStmtFull k rvalue operands load take run =>
    refine .inr ⟨k, rvalue, _, run, ?_⟩
    obtain ⟨tys, data, -, -, -, rfl, rfl⟩ := emitStmtFull_eq_ok run
    rfl
  | createStackSlot size align run =>
    obtain ⟨-, -, hb'⟩ := bind_eq_ok.1 run
    obtain ⟨-, rfl⟩ := Prod.mk.inj (Except.ok.inj hb')
    exact .inl rfl
  | scratchSpace slot run =>
    subst run
    exact .inl rfl

/-- A call that is not the emission of a `ShiftImm` adds none. -/
theorem not_shiftImm_of_call {b b' : ExecIrBuilder} (call : Call b b')
    (site : ∀ k op v n outputs, emitStmtFull k (.shiftImm op v n) b ≠ .ok (outputs, b')) :
    ∀ stmt ∈ b'.stmts, stmt ∉ b.stmts → ∀ op v n, stmt.rvalue ≠ .shiftImm op v n := by
  rintro stmt hstmt hnew op v n heq
  rcases stmts_of_call call with hsame | ⟨k, rvalue, outputs, hemit, hstmts⟩
  · rw [hsame] at hstmt
    exact hnew hstmt
  · rw [hstmts, List.mem_append, List.mem_singleton] at hstmt
    rcases hstmt with hold | rfl
    · exact hnew hold
    · obtain rfl : rvalue = .shiftImm op v n := heq
      exact site k op v n outputs hemit

/-- An exact shift is emitted only by an amount below the width. -/
theorem exactImm_lt {b : ExecIrBuilder} {op : ShiftOp} {v : SSAValue} {bits : BitVec 8}
    {width : IntWidth} (hv : b.ssaValues[v]? = some (.int width)) {r : SSAValue × ExecIrBuilder}
    (h : shiftExactImm op v bits b = .ok r) : bits.toNat < width.bits := by
  rw [shiftExactImm_eq] at h
  obtain ⟨width', b₁, hwidth, hchoose⟩ := emit_bind_ok.1 h
  obtain ⟨-, hty⟩ := assertInt_ok hwidth
  obtain rfl : width' = width := TypeFull.int.inj (Option.some.inj (hty.symm.trans hv))
  obtain ⟨choice, b₂, hchoice, -⟩ := emit_bind_ok.1 hchoose
  obtain ⟨c, hc, -⟩ := bind_eq_ok.1 hchoice
  obtain ⟨_, hlt, -⟩ := bind_eq_ok.1 hc
  exact require_eq_ok.1 hlt

/-- A builder that emits one statement. -/
theorem ShiftImmInRange.emit {b b' : ExecIrBuilder} {rvalue : StmtKind} {r : SSAValue}
    (h : ShiftImmInRange b) (hemit : emit1RetStmt rvalue b = .ok (r, b'))
    (hrange : ∀ op v n, rvalue = .shiftImm op v n →
      ∃ width, b.ssaValues[v]? = some (.int width) ∧ n < width.bits) : ShiftImmInRange b' := by
  obtain ⟨tys, data, -, -, -, -, rfl⟩ := emitStmtFull_eq_ok (emit1RetStmt_eq_ok hemit)
  have hkeep : ∀ {v : SSAValue} {n : ℕ},
      (∃ width, b.ssaValues[v]? = some (.int width) ∧ n < width.bits) →
      ∃ width, (b.ssaValues ++ tys)[v]? = some (.int width) ∧ n < width.bits := by
    rintro v n ⟨width, hty, hn⟩
    exact ⟨width, getElem?_of_isPrefix (List.prefix_append _ _) hty, hn⟩
  intro stmt hstmt op v n heq
  rcases List.mem_append.1 hstmt with hold | hnew
  · exact hkeep (h stmt hold op v n heq)
  · obtain rfl := List.mem_singleton.1 hnew
    exact hkeep (hrange op v n heq)

/-- The shift methods, with an amount that is below the width wherever there is one. -/
theorem ShiftImmInRange.shiftImmOp {b b' : ExecIrBuilder} {op : ShiftOp} {v r : SSAValue}
    {bits : IntWidth → Except Panic (ℕ ⊕ IConst)} (h : ShiftImmInRange b)
    (hrun : emitShiftImmOp op v bits b = .ok (r, b'))
    (hbits : ∀ width n, bits width = .ok (.inl n) → n < width.bits) : ShiftImmInRange b' := by
  obtain ⟨width, b₁, hwidth, hchoose⟩ := emit_bind_ok.1 hrun
  obtain ⟨hb₁, hty⟩ := assertInt_ok hwidth
  subst hb₁
  obtain ⟨choice, b₂, hchoice, hemit⟩ := emit_bind_ok.1 hchoose
  obtain ⟨c, hc, hpure⟩ := bind_eq_ok.1 hchoice
  obtain ⟨rfl, rfl⟩ := Prod.mk.inj (Except.ok.inj hpure)
  cases c with
  | inl n =>
    refine h.emit hemit fun op' v' n' heq => ?_
    obtain ⟨rfl, rfl, rfl⟩ := StmtKind.shiftImm.inj heq
    exact ⟨width, hty, hbits width _ hc⟩
  | inr constVal => exact h.emit hemit fun _ _ _ heq => by cases heq

theorem ShiftImmInRange.call {b b' : ExecIrBuilder} (h : ShiftImmInRange b)
    (hcall : ShiftCall b b') :
    ShiftImmInRange b' := by
  cases hcall with
  | other call site =>
    intro stmt hstmt op v n heq
    by_cases hold : stmt ∈ b.stmts
    · obtain ⟨width, hty, hn⟩ := h stmt hold op v n heq
      exact ⟨width, getElem?_of_isPrefix (ssaValues_of_call call) hty, hn⟩
    · exact (not_shiftImm_of_call call site stmt hstmt hold op v n heq).elim
  | moduloImm op v bits run =>
    rw [shiftModuloImm_eq] at run
    refine h.shiftImmOp run fun width n hn => ?_
    obtain rfl := Sum.inl.inj (Except.ok.inj hn)
    exact Nat.mod_lt _ (IntWidth.bits_pos width)
  | exactImm op v bits run =>
    rw [shiftExactImm_eq] at run
    refine h.shiftImmOp run fun width n hn => ?_
    obtain ⟨_, hlt, hn⟩ := bind_eq_ok.1 hn
    obtain rfl := Sum.inl.inj (Except.ok.inj hn)
    exact require_eq_ok.1 hlt
  | unboundedImm op v bits run =>
    rw [shiftUnboundedImm_eq] at run
    refine h.shiftImmOp run fun width n hn => ?_
    by_cases hge : bits.toNat ≥ width.bits
    · rw [if_pos hge] at hn
      cases op with
      | signExtendShr =>
        obtain rfl := Sum.inl.inj (Except.ok.inj hn)
        exact Nat.sub_lt (IntWidth.bits_pos width) Nat.one_pos
      | zeroExtendShr => cases hn
      | shl => cases hn
    · rw [if_neg hge] at hn
      obtain rfl := Sum.inl.inj (Except.ok.inj hn)
      exact Nat.lt_of_not_le hge

/-- No `ShiftImm` of any builder is out of range. -/
theorem shiftImm_in_range {b : ExecIrBuilder} (h : ShiftBuilt b) : ShiftImmInRange b := by
  induction h with
  | withConfig haltCheckEvery =>
    intro stmt hstmt
    cases hstmt
  | call _ hcall ih => exact ih.call hcall

/-! ## The result -/

/-- A run-time shift by a constant. -/
def shiftByConst (shift : SSAValue → SSAValue → BuilderM SSAValue) (a : IntWidth) (bits : BitVec 8)
    (v : SSAValue) : BuilderM SSAValue := do
  let amount ← iconst ⟨a, bits.setWidth 64⟩
  shift v amount

theorem const_toNat (a : IntWidth) (bits : BitVec 8) :
    ((bits.setWidth 64).setWidth a.bits).toNat = bits.toNat := by
  have hlt := bits.isLt
  have hpow : 2 ^ 8 ≤ 2 ^ a.bits := by cases a <;> decide
  rw [BitVec.toNat_setWidth, BitVec.toNat_setWidth,
    Nat.mod_eq_of_lt (show bits.toNat < 2 ^ 64 by omega)]
  exact Nat.mod_eq_of_lt (lt_of_lt_of_le hlt hpow)

/-- The code of `m` computes `y` from the value `v`, which is `x`, and changes nothing else. -/
def Yields (L : Layout) (backend : JitBackend)
    (other : StmtKind → List (Val HostPtr) → HostState → Option (List (Val HostPtr) × HostState))
    (m : BuilderM SSAValue) (b : ExecIrBuilder) (v : SSAValue) {width : IntWidth}
    (x y : BitVec width.bits) : Prop :=
  ∀ s, Delivers L backend other m b [IsInt v width x] s fun _ _ r _ c' =>
    c'.env r = Val.int width y ∧ c'.world = s

/-- Immediate and run-time shifts by the same amount compute the same, with both backends, and
    every emitted immediate amount is below the width. -/
theorem immediate_shifts_agree (L : Layout) (backend : JitBackend)
    (other : StmtKind → List (Val HostPtr) → HostState → Option (List (Val HostPtr) × HostState))
    (op : ShiftOp) {b : ExecIrBuilder} (hopen : IsOpen b) {v : SSAValue} {width : IntWidth}
    (hv : b.ssaValues[v]? = some (.int width)) (x : BitVec width.bits) (bits : BitVec 8)
    (a : IntWidth) :
    (Yields L backend other (shiftModuloImm op v bits) b v x (shiftMeaning op x bits.toNat) ∧
      Yields L backend other (shiftByConst (shiftDyn op) a bits v) b v x
        (shiftMeaning op x bits.toNat)) ∧
    (Yields L backend other (shiftUnboundedImm op v bits) b v x (unboundedMeaning op x bits.toNat) ∧
      Yields L backend other (shiftByConst (shiftUnboundedDyn op) a bits v) b v x
        (unboundedMeaning op x bits.toNat)) ∧
    (if bits.toNat < width.bits then
      Yields L backend other (shiftExactImm op v bits) b v x (shiftBy op x bits.toNat)
    else ∀ r, shiftExactImm op v bits b ≠ .ok r) ∧
    ∀ b', ShiftBuilt b' → ShiftImmInRange b' := by
  have hK : Typed (M := hostMachine L backend other) [IsInt v width x] b :=
    List.forall_mem_singleton.2 hv
  have hresult : ∀ {m : BuilderM SSAValue} {y : BitVec width.bits},
      (∀ s, Computes ∅ ([IsInt v width x] : List (HostFact L backend other)) s m
        (fun r => [IsInt r width y]) s) → Yields L backend other m b v x y := by
    intro m y h s
    exact ((h s).delivers hopen hK).mono fun _ _ r _ _ _ hend =>
      ⟨hend.1 _ (List.mem_singleton.2 rfl), hend.2⟩
  refine ⟨⟨hresult fun s => ?_, hresult fun s => ?_⟩,
    ⟨hresult fun s => ?_, hresult fun s => ?_⟩, ?_,
    fun b' hb' => shiftImm_in_range hb'⟩
  · exact computes_moduloImm (List.mem_singleton.2 rfl)
  · refine (computes_iconst rfl).bind fun amount => ?_
    rw [← const_toNat a bits]
    exact computes_shift (by simp) List.mem_cons_self
  · exact computes_unboundedImm (List.mem_singleton.2 rfl)
  · refine (computes_iconst rfl).bind fun amount => ?_
    rw [← const_toNat a bits]
    exact computes_shiftUnbounded (by simp) List.mem_cons_self
  · split_ifs with hlt
    · exact hresult fun s => computes_exactImm (List.mem_singleton.2 rfl) hlt
    · exact fun r hr => hlt (exactImm_lt hv hr)

theorem immediate_shifts_agree_by_255 : ∃ b,
    Yields Layout.inOrder .gcc (fun _ _ _ => none) (shiftUnboundedImm .signExtendShr 6 255) b 6
      (BitVec.intMin (IntWidth.bits .w8)) (BitVec.allOnes 8) ∧
    Yields Layout.inOrder .gcc (fun _ _ _ => none)
      (shiftByConst (shiftUnboundedDyn .signExtendShr) .w64 255 6) b 6
      (BitVec.intMin (IntWidth.bits .w8)) (BitVec.allOnes 8) :=
  ⟨twoConstants (minNegative .w8) (.zero .w8),
    (immediate_shifts_agree Layout.inOrder .gcc (fun _ _ _ => none) .signExtendShr
      (isOpen_twoConstants _ _) rfl (BitVec.intMin (IntWidth.bits .w8)) 255 .w64).2.1⟩

end RapidArm.Jit
