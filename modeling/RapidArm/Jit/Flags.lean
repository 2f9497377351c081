import RapidArm.Jit.Operations

/-!
# Flag-setting arithmetic

`ExecIrBuilder::iadds` and `ExecIrBuilder::isubs` (`jit-compiler-core/src/ir/mod.rs`, lines
1886–1946) return the wrapping result and merge the condition flags into `PSTATE`. The
architecture defines the flags by `AddWithCarry`, as the difference of the result from the sum of
the operands as numbers.

Results:
* `flags_add`, `flags_sub`: the four comparisons of the emitted code are the flags of
  `AddWithCarry`.
* `arithmetic_sets_flags`: what the emitted code returns and leaves in `PSTATE`, at every width,
  with both backends.
-/

namespace RapidArm.Jit

open RapidArm.Ir RapidArm.Lib RapidArm.Backend ExecIrBuilder

/-! ## The architecture -/

/-- The condition flags. -/
structure NZCV where
  n : Bool
  z : Bool
  c : Bool
  v : Bool
  deriving DecidableEq, Repr

/-- `AddWithCarry(x, y, carry_in)` of the architecture. -/
def addWithCarry {w : ℕ} (x y : BitVec w) (carryIn : Bool) : BitVec w × NZCV :=
  let unsignedSum := x.toNat + y.toNat + carryIn.toNat
  let signedSum := x.toInt + y.toInt + carryIn.toNat
  let result := BitVec.ofNat w unsignedSum
  (result, {
    n := result.msb
    z := result == 0
    c := result.toNat != unsignedSum
    v := result.toInt != signedSum })

/-- The operation of a flag-setting instruction: `ADDS` adds without a carry, `SUBS` adds the
    complement with one. -/
def armFlagSetting (op : OverflowingBinOp) {w : ℕ} (x y : BitVec w) : BitVec w × NZCV :=
  match op with
  | .add => addWithCarry x y false
  | .sub => addWithCarry x (~~~y) true

/-- `PSTATE` has the flags `nzcv` in the bits 31 to 28. -/
def HasFlags (pstate : BitVec 32) (nzcv : NZCV) : Prop :=
  pstate.getLsbD 31 = nzcv.n ∧ pstate.getLsbD 30 = nzcv.z ∧ pstate.getLsbD 29 = nzcv.c ∧
    pstate.getLsbD 28 = nzcv.v

/-! ## Flags of the emitted code -/

/-- The flags that `emit_flag_setting_binop` computes. -/
def emittedFlags (op : OverflowingBinOp) {w : ℕ} (x y : BitVec w) : NZCV :=
  let value := wrappingResult op x y
  { n := intCmp .signedLessThan value 0
    z := intCmp .equal value 0
    c := match op with
      | .add => intCmp .unsignedLessThan value x
      | .sub => intCmp .unsignedGreaterThanOrEqual x y
    v := signedOverflow op x y }

/-- The bit of a flag, or zero. -/
def flagBits (p : Bool) (flag : BitVec 32) : BitVec 32 := if p then flag else 0

/-- `PSTATE` after `set_nzcv_flags`. -/
def mergeFlags (pstate : BitVec 32) (nzcv : NZCV) : BitVec 32 :=
  (pstate &&& ~~~ PState.NZCV_MASK) |||
    ((flagBits nzcv.n PState.N ||| flagBits nzcv.z PState.Z) |||
      (flagBits nzcv.c PState.C ||| flagBits nzcv.v PState.V))

theorem ult_iff {w : ℕ} {x y : BitVec w} : x.ult y = true ↔ x.toNat < y.toNat := by
  rw [BitVec.ult, decide_eq_true_eq]

theorem ule_iff {w : ℕ} {x y : BitVec w} : x.ule y = true ↔ x.toNat ≤ y.toNat := by
  rw [BitVec.ule, decide_eq_true_eq]

/-- The sum is below an operand where it wraps. -/
theorem carry_add {w : ℕ} (x y : BitVec w) :
    ((x + y).toNat != x.toNat + y.toNat) = intCmp .unsignedLessThan (x + y) x := by
  have hx := x.isLt
  have hy := y.isLt
  show _ = (x + y).ult x
  apply Bool.eq_iff_iff.2
  rw [bne_iff_ne, ult_iff, BitVec.toNat_add]
  rcases Nat.lt_or_ge (x.toNat + y.toNat) (2 ^ w) with h | h
  · rw [Nat.mod_eq_of_lt h]
    omega
  · rw [Nat.mod_eq_sub_mod h, Nat.mod_eq_of_lt (by omega)]
    omega

/-- The difference does not borrow where the complement carries. -/
theorem carry_sub {w : ℕ} (x y : BitVec w) :
    ((x - y).toNat != x.toNat + (~~~y).toNat + 1) = intCmp .unsignedGreaterThanOrEqual x y := by
  have hx := x.isLt
  have hy := y.isLt
  show _ = y.ule x
  apply Bool.eq_iff_iff.2
  rw [bne_iff_ne, ule_iff, BitVec.toNat_not, BitVec.toNat_sub]
  rcases Nat.lt_or_ge x.toNat y.toNat with h | h
  · rw [Nat.mod_eq_of_lt (by omega)]
    omega
  · rw [Nat.mod_eq_sub_mod (by omega), Nat.mod_eq_of_lt (by omega)]
    omega

/-- The complement as a signed number. -/
theorem toInt_complement (w : IntWidth) (y : BitVec w.bits) : (~~~y).toInt = -y.toInt - 1 := by
  have hy := y.isLt
  rw [BitVec.toInt_eq_toNat_cond, BitVec.toInt_eq_toNat_cond, BitVec.toNat_not]
  have heven : 2 ∣ 2 ^ w.bits := dvd_pow_self 2 (Nat.ne_of_gt (IntWidth.bits_pos w))
  split_ifs <;> omega

theorem addWithCarry_eq {w : ℕ} {x y r : BitVec w} {carryIn c v : Bool}
    (hr : BitVec.ofNat w (x.toNat + y.toNat + carryIn.toNat) = r)
    (hc : (r.toNat != x.toNat + y.toNat + carryIn.toNat) = c)
    (hv : (r.toInt != x.toInt + y.toInt + carryIn.toNat) = v) :
    addWithCarry x y carryIn = (r, ⟨r.slt 0, r == 0, c, v⟩) := by
  subst hr hc hv
  exact congrArg (fun n => (_, NZCV.mk n _ _ _)) BitVec.slt_zero_eq_msb.symm

/-- The overflow of the statement is that of the exact result. -/
theorem overflow_eq (op : OverflowingBinOp) (w : IntWidth) (x y : BitVec w.bits) {exact : ℤ}
    (h : exactResult op x y = exact) :
    ((wrappingResult op x y).toInt != exact) = signedOverflow op x y := by
  rw [signedOverflow_eq, h]
  apply Bool.eq_iff_iff.2
  rw [bne_iff_ne, decide_eq_true_eq]
  exact ne_comm

/-- What `emit_flag_setting_binop` computes is what the instruction does. -/
theorem armFlagSetting_eq (op : OverflowingBinOp) (w : IntWidth) (x y : BitVec w.bits) :
    armFlagSetting op x y = (wrappingResult op x y, emittedFlags op x y) := by
  cases op with
  | add =>
    refine addWithCarry_eq ?_ (carry_add x y) (overflow_eq .add w x y ?_)
    · exact BitVec.eq_of_toNat_eq (by simp [wrappingResult])
    · simp [exactResult]
  | sub =>
    refine addWithCarry_eq ?_ (carry_sub x y) (overflow_eq .sub w x y ?_)
    · have hx := x.isLt
      have hy := y.isLt
      apply BitVec.eq_of_toNat_eq
      show (BitVec.ofNat w.bits (x.toNat + (~~~y).toNat + 1)).toNat = (x - y).toNat
      rw [BitVec.toNat_ofNat, BitVec.toNat_not, BitVec.toNat_sub]
      exact congrArg (· % 2 ^ w.bits) (by omega)
    · rw [toInt_complement]
      show x.toInt - y.toInt = x.toInt + (-y.toInt - 1) + 1
      omega

/-! ## The merge -/

theorem flagBits_bit (p : Bool) (flag : BitVec 32) (i : ℕ) :
    (flagBits p flag).getLsbD i = (p && flag.getLsbD i) := by
  unfold flagBits
  cases p with
  | true => rw [if_pos rfl, Bool.true_and]
  | false => exact BitVec.getLsbD_zero

theorem mergeFlags_bit (pstate : BitVec 32) (nzcv : NZCV) {i : ℕ} (hi : i < 32) :
    (mergeFlags pstate nzcv).getLsbD i =
      ((pstate.getLsbD i && decide (i < 28)) ||
        ((nzcv.n && decide (i = 31)) || (nzcv.z && decide (i = 30)) ||
          ((nzcv.c && decide (i = 29)) || (nzcv.v && decide (i = 28))))) := by
  have hN : ∀ j < 32, PState.N.getLsbD j = decide (j = 31) := by decide
  have hZ : ∀ j < 32, PState.Z.getLsbD j = decide (j = 30) := by decide
  have hC : ∀ j < 32, PState.C.getLsbD j = decide (j = 29) := by decide
  have hV : ∀ j < 32, PState.V.getLsbD j = decide (j = 28) := by decide
  have hmask : ∀ j < 32, (~~~ PState.NZCV_MASK).getLsbD j = decide (j < 28) := by decide
  simp only [mergeFlags, BitVec.getLsbD_or, BitVec.getLsbD_and, flagBits_bit, hN i hi, hZ i hi,
    hC i hi, hV i hi, hmask i hi]

/-- The flags are stored, and the other bits are kept. -/
theorem mergeFlags_spec (pstate : BitVec 32) (nzcv : NZCV) :
    HasFlags (mergeFlags pstate nzcv) nzcv ∧
      ∀ i < 28, (mergeFlags pstate nzcv).getLsbD i = pstate.getLsbD i := by
  refine ⟨⟨?_, ?_, ?_, ?_⟩, fun i hi => ?_⟩
  · rw [mergeFlags_bit _ _ (by decide)]
    simp
  · rw [mergeFlags_bit _ _ (by decide)]
    simp
  · rw [mergeFlags_bit _ _ (by decide)]
    simp
  · rw [mergeFlags_bit _ _ (by decide)]
    simp
  · have hne : ∀ j, 28 ≤ j → (i = j) = False := fun j hj => eq_false (by omega)
    rw [mergeFlags_bit _ _ (by omega)]
    simp [hi, hne]

/-! ## The emitted code -/

section Code

variable {L : Layout} {backend : JitBackend}
  {other : StmtKind → List (Val HostPtr) → HostState → Option (List (Val HostPtr) × HostState)}
  {B : Set Block} {K : List (HostFact L backend other)} {s : HostState}

/-- The argument of a compiled function that points to the processor state. -/
def execStateArg : HostFact L backend other := IsPtr Arg.execState.asSSAValue .execState .execState

theorem computes_loadPstate (harg : execStateArg ∈ K) :
    Computes B K s (loadPstate L) (fun v => [IsInt v .w32 s.pstate]) s :=
  computes_loadHost harg (if_pos ⟨rfl, rfl⟩)

theorem computes_storePstate {v : SSAValue} {x : BitVec 32} (harg : execStateArg ∈ K)
    (hv : IsInt v .w32 x ∈ K) :
    Computes B K s (storePstate L v) (fun _ => []) { s with pstate := x } :=
  Computes.assertInt_bind hv (Computes.check_bind rfl (computes_storeHost harg hv (if_pos rfl)))

theorem u32_bits (x : BitVec 32) : (IConst.u32 x).bits.setWidth IntWidth.w32.bits = x := by
  show (x.setWidth 64).setWidth 32 = x
  rw [BitVec.setWidth_setWidth_of_le x (by decide), BitVec.setWidth_eq]

theorem computes_u32 (x : BitVec 32) :
    Computes B K s (iconst (.u32 x)) (fun v => [IsInt v .w32 x]) s :=
  computes_iconst (u32_bits x)

/-- The value of one flag: its bit or zero. -/
theorem computes_flag {cond t f : SSAValue} {p : Bool} (flag : BitVec 32) (hc : IsBool cond p ∈ K)
    (ht : IsInt t .w32 flag ∈ K) (hf : IsInt f .w32 (0 : BitVec 32) ∈ K) :
    Computes B K s (select cond t f) (fun v => [IsInt v .w32 (flagBits p flag)]) s :=
  computes_select hc ht hf

theorem computes_bitor32 {l r : SSAValue} (x y : BitVec 32) (hl : IsInt l .w32 x ∈ K)
    (hr : IsInt r .w32 y ∈ K) : Computes B K s (bitor l r) (fun v => [IsInt v .w32 (x ||| y)]) s :=
  computes_bitwiseInt hl hr

theorem computes_setNzcvFlags {n z c v : SSAValue} {f : NZCV} (harg : execStateArg ∈ K)
    (hn : IsBool n f.n ∈ K) (hz : IsBool z f.z ∈ K) (hc : IsBool c f.c ∈ K)
    (hv : IsBool v f.v ∈ K) :
    Computes B K s (setNzcvFlags L n z c v) (fun _ => [])
      { s with pstate := mergeFlags s.pstate f } := by
  let nBits := flagBits f.n PState.N
  let zBits := flagBits f.z PState.Z
  let cBits := flagBits f.c PState.C
  let vBits := flagBits f.v PState.V
  refine (computes_loadPstate harg).bind fun oldFlags => ?_
  refine (computes_u32 0).bind fun zeroed => ?_
  refine (computes_u32 PState.N).bind fun nFlagTrue => ?_
  refine (computes_u32 PState.Z).bind fun zFlagTrue => ?_
  refine (computes_u32 PState.C).bind fun cFlagTrue => ?_
  refine (computes_u32 PState.V).bind fun vFlagTrue => ?_
  refine (computes_flag PState.N (p := f.n) (by simp [hn]) (by simp) (by simp)).bind fun nFlag => ?_
  refine (computes_flag PState.Z (p := f.z) (by simp [hz]) (by simp) (by simp)).bind fun zFlag => ?_
  refine (computes_flag PState.C (p := f.c) (by simp [hc]) (by simp) (by simp)).bind fun cFlag => ?_
  refine (computes_flag PState.V (p := f.v) (by simp [hv]) (by simp) (by simp)).bind fun vFlag => ?_
  refine (computes_bitor32 nBits zBits (by simp [nBits]) (by simp [zBits])).bind fun nzFlag => ?_
  refine (computes_bitor32 cBits vBits (by simp [cBits]) (by simp [vBits])).bind fun cvFlag => ?_
  refine (computes_bitor32 (nBits ||| zBits) (cBits ||| vBits) (by simp) (by simp)).bind
    fun nzcvFlags => ?_
  refine Computes.bind (P := fun m => [IsInt m .w32 (s.pstate &&& ~~~ PState.NZCV_MASK)])
    (computes_bitandImm (by simp) (u32_bits _)) fun maskedOutFlags => ?_
  refine (computes_bitor32 (s.pstate &&& ~~~ PState.NZCV_MASK)
    ((nBits ||| zBits) ||| (cBits ||| vBits)) (by simp)
    (by simp)).bind fun newFlags => ?_
  exact computes_storePstate (by simp [harg]) (List.mem_append_left _ (List.mem_singleton.2 rfl))

variable {l r : SSAValue} {width : IntWidth} {x y : BitVec width.bits}

theorem computes_overflowing {op : OverflowingBinOp} (hl : IsInt l width x ∈ K)
    (hr : IsInt r width y ∈ K) :
    Computes B K s (emit2RetStmt (.overflowingBinOp op l r))
      (fun v => [IsInt v.1 width (wrappingResult op x y),
        IsBool v.2 (signedOverflow op x y)]) s := by
  refine Computes.emit2 [IsInt l width x, IsInt r width y] (forall_mem_pair hl hr) rfl (by nofun)
    (fun b hK => bind_eq_ok.2 ⟨.int width, arenaGet_eq_ok.2 (hK _ hl), rfl⟩)
    ((eval_of_isInteger rfl _ s).trans ?_)
  have heval : evalInteger (P := HostPtr) backend (.overflowingBinOp op l r)
      [.int width x, .int width y] =
        some [.int width (wrappingResult op x y), .bool (signedOverflow op x y)] := by
    show (if width = width then _ else none) = _
    rw [if_pos rfl, BitVec.setWidth_eq, overflowing_eq]
  exact congrArg (Option.map fun vals => (vals, s)) heval

theorem computes_carry {o : OverflowingBinOp} {value : SSAValue} (hl : IsInt l width x ∈ K)
    (hr : IsInt r width y ∈ K) (hv : IsInt value width (wrappingResult o x y) ∈ K) :
    Computes B K s (emitCarry o value l r) (fun v => [IsBool v (emittedFlags o x y).c]) s := by
  cases o with
  | add => exact computes_icmp hv hl
  | sub => exact computes_icmp hl hr

theorem computes_flagSetting {op : OverflowingBinOp} (harg : execStateArg ∈ K)
    (hl : IsInt l width x ∈ K) (hr : IsInt r width y ∈ K) :
    Computes B K s (emitFlagSettingBinop L op l r)
      (fun v => [IsInt v width (wrappingResult op x y)])
      { s with pstate := mergeFlags s.pstate (emittedFlags op x y) } := by
  have hbinop : Computes B K s
      (emitSameIntTyBinop l r fun width => do
        let v ← emit2RetStmt (.overflowingBinOp op l r)
        return (v.1, v.2, width))
      (fun v => [IsInt v.1 width (wrappingResult op x y),
        IsBool v.2.1 (signedOverflow op x y)]) s := by
    refine Computes.sameIntTy_bind hl hr ((computes_overflowing hl hr).bind fun v => ?_)
    exact Computes.pure fun f hf => List.mem_append_left _ hf
  refine hbinop.bind_of (p := fun v => v.2.2 = width) ?_ ?_
  · intro b v b' h hK
    obtain ⟨width', b₁, hwidth, h⟩ := emit_bind_ok.1 h
    obtain ⟨_, b₂, -, h⟩ := emit_bind_ok.1 h
    obtain ⟨_, b₃, -, h⟩ := emit_bind_ok.1 h
    obtain ⟨_, b₄, -, h⟩ := emit_bind_ok.1 h
    obtain ⟨rfl, -⟩ := emit_pure_ok.1 h
    exact TypeFull.int.inj (Option.some.inj ((assertInt_ok hwidth).2.symm.trans (hK _ hr)))
  · rintro ⟨value, overflow, width'⟩ hwidth
    obtain rfl : width' = width := hwidth
    refine (computes_icmpImm (c := .signedLessThan) (x := wrappingResult op x y) (by simp)
      (zero_bits _)).bind fun negative => ?_
    refine (computes_icmpImm (c := .equal) (x := wrappingResult op x y) (by simp)
      (zero_bits _)).bind fun zeroFlag => ?_
    refine (computes_carry (o := op) (x := x) (y := y) (by simp [hl]) (by simp [hr]) (by simp)).bind
      fun carry => ?_
    refine (computes_setNzcvFlags (f := emittedFlags op x y) (by simp [harg])
      (by simp [emittedFlags]) (by simp [emittedFlags]) (by simp) (by simp [emittedFlags])).bind
        fun _ => ?_
    exact Computes.pure (by simp)

end Code

/-! ## The result -/

/-- What `emit_flag_setting_binop` does, in the words of the architecture. -/
theorem flagSetting_delivers (L : Layout) (backend : JitBackend)
    (other : StmtKind → List (Val HostPtr) → HostState → Option (List (Val HostPtr) × HostState))
    (s : HostState) (op : OverflowingBinOp) {b : ExecIrBuilder} (hb : Built b) (hopen : IsOpen b)
    {l r : SSAValue} {width : IntWidth} (hl : b.ssaValues[l]? = some (.int width))
    (hr : b.ssaValues[r]? = some (.int width)) (x y : BitVec width.bits) :
    Delivers L backend other (emitFlagSettingBinop L op l r) b
      [execStateArg, IsInt l width x, IsInt r width y] s fun _ _ v _ c' =>
        c'.env v = Val.int width (armFlagSetting op x y).1 ∧
        HasFlags c'.world.pstate (armFlagSetting op x y).2 ∧
        (∀ i < 28, c'.world.pstate.getLsbD i = s.pstate.getLsbD i) ∧
        c'.world = { s with pstate := c'.world.pstate } := by
  have hK : Typed (M := hostMachine L backend other) [execStateArg, IsInt l width x,
      IsInt r width y] b := by
    intro f hf
    simp only [List.mem_cons, List.not_mem_nil, or_false] at hf
    rcases hf with rfl | rfl | rfl
    · exact arg_ty_of_built hb .execState
    · exact hl
    · exact hr
  refine ((computes_flagSetting List.mem_cons_self (List.mem_cons_of_mem _ List.mem_cons_self)
    (List.mem_cons_of_mem _ (List.mem_cons_of_mem _ List.mem_cons_self))).delivers hopen hK).mono ?_
  rintro halts F v c c' - ⟨hval, hworld⟩
  have hmerge := mergeFlags_spec s.pstate (emittedFlags op x y)
  rw [armFlagSetting_eq]
  refine ⟨hval _ (List.mem_singleton.2 rfl), ?_, ?_, ?_⟩
  · rw [hworld]
    exact hmerge.1
  · rw [hworld]
    exact hmerge.2
  · rw [hworld]

/-- `iadds` and `isubs` return the wrapping result and set the flags of `AddWithCarry`. -/
theorem arithmetic_sets_flags (L : Layout) (backend : JitBackend)
    (other : StmtKind → List (Val HostPtr) → HostState → Option (List (Val HostPtr) × HostState))
    (s : HostState) {b : ExecIrBuilder} (hb : Built b) (hopen : IsOpen b) {l r : SSAValue}
    {width : IntWidth} (hl : b.ssaValues[l]? = some (.int width))
    (hr : b.ssaValues[r]? = some (.int width)) (x y : BitVec width.bits) :
    (Delivers L backend other (iadds L l r) b [execStateArg, IsInt l width x, IsInt r width y] s
      fun _ _ v _ c' =>
        c'.env v = Val.int width (x + y) ∧
        HasFlags c'.world.pstate (addWithCarry x y false).2 ∧
        (∀ i < 28, c'.world.pstate.getLsbD i = s.pstate.getLsbD i) ∧
        c'.world = { s with pstate := c'.world.pstate }) ∧
    Delivers L backend other (isubs L l r) b [execStateArg, IsInt l width x, IsInt r width y] s
      fun _ _ v _ c' =>
        c'.env v = Val.int width (x - y) ∧
        HasFlags c'.world.pstate (addWithCarry x (~~~y) true).2 ∧
        (∀ i < 28, c'.world.pstate.getLsbD i = s.pstate.getLsbD i) ∧
        c'.world = { s with pstate := c'.world.pstate } := by
  have hadd := flagSetting_delivers L backend other s .add hb hopen hl hr x y
  have hsub := flagSetting_delivers L backend other s .sub hb hopen hl hr x y
  have haddResult : (armFlagSetting .add x y).1 = x + y :=
    congrArg Prod.fst (armFlagSetting_eq .add width x y)
  have hsubResult : (armFlagSetting .sub x y).1 = x - y :=
    congrArg Prod.fst (armFlagSetting_eq .sub width x y)
  rw [haddResult] at hadd
  rw [hsubResult] at hsub
  exact ⟨hadd, hsub⟩

theorem arithmetic_sets_flags_min_minus_one : ∃ b s,
    Delivers Layout.inOrder .gcc (fun _ _ _ => none) (isubs Layout.inOrder 6 7) b
      [execStateArg, IsInt 6 .w64 (BitVec.intMin 64), IsInt 7 .w64 1] s
      fun _ _ v _ c' => c'.env v = Val.int .w64 (BitVec.intMax 64) ∧
        HasFlags c'.world.pstate ⟨false, false, true, true⟩ :=
  ⟨twoConstants (minNegative .w64) (.one .w64), HostState.new ⟨0, Mmu.PageTable.new⟩,
    (arithmetic_sets_flags Layout.inOrder .gcc (fun _ _ _ => none) _ (built_twoConstants _ _)
      (isOpen_twoConstants _ _) rfl rfl (BitVec.intMin (IntWidth.bits .w64)) 1).2.mono
        fun _ _ _ _ _ _ h => ⟨h.1, h.2.1⟩⟩

end RapidArm.Jit
