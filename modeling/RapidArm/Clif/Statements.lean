import RapidArm.Clif.Integers

/-!
# The instructions of the other statements

Accesses to memory, pointers, calls of the host and the halt reason.

Results:
* `ptrAdd_emits`: the address that `ptr_add` computes.
* `lowerFlat_computed`: the statements of `evalFlat`.
* `lowerLoadHaltReason_emits`: the load of the halt reason reads the next one of the stream.
-/

namespace RapidArm.Clif

open RapidArm.Ir RapidArm.Jit RapidArm.Lib RapidArm.Backend RapidArm.Mmu

variable {W : Type} {host : FlatHost W} {halts : ℕ → BitVec 32} {ir : ExecIrBuilder}
  {types types' : List IntWidth} {s s' : ClifState W} {c d : ClifValue} {p : Address}

/-! ## Helpers -/

section Helpers

variable {α : Type} {m : ClifM α}

theorem Holds.address (h : Holds types s c ⟨.w64, p⟩) : (s.env c).address = some p := by
  rw [h.2]
  exact congrArg some (BitVec.setWidth_eq p)

theorem emits_offset32 {offset : ℕ} {Q : BitVec 32 → List IntWidth → ClifState W → Prop}
    (h : ∀ imm : BitVec 32, imm.signExtend 64 = BitVec.ofNat 64 offset → Q imm types s) :
    Emits host halts types s (offset32 offset) Q := by
  unfold offset32
  split_ifs with hlt
  · refine emits_pure (h _ ?_)
    have hmsb : (BitVec.ofNat 32 offset).msb = false := by
      rw [BitVec.msb_eq_false_iff_two_mul_lt, BitVec.toNat_ofNat]
      omega
    rw [BitVec.signExtend_eq_setWidth_of_msb_false hmsb]
    apply BitVec.eq_of_toNat_eq
    simp only [BitVec.toNat_setWidth, BitVec.toNat_ofNat]
    omega
  · exact emits_fail

theorem emits_hostMemoryFlags {canMove : Bool} {region : AliasRegion}
    {Q : MemFlags → List IntWidth → ClifState W → Prop}
    (h : ∀ flags : MemFlags, flags.region = region → Q flags types s) :
    Emits host halts types s (hostMemoryFlags canMove region) Q := by
  unfold hostMemoryFlags
  split_ifs
  · exact emits_fail
  · exact emits_pure (h _ rfl)

theorem emits_pointerRegion {basePtr : SSAValue}
    {Q : AliasRegion → List IntWidth → ClifState W → Prop}
    (h : ∀ region, Q region types s) : Emits host halts types s (pointerRegion ir basePtr) Q := by
  unfold pointerRegion
  split
  · exact emits_pure (h _)
  · exact emits_fail

theorem emits_useStackSlot {slot : StackSlot} {Q : StackSlot → List IntWidth → ClifState W → Prop}
    (h : Q slot types s) : Emits host halts types s (useStackSlot ir slot) Q := by
  unfold useStackSlot
  split_ifs
  · exact emits_pure h
  · exact emits_fail

/-- An emitter of one value, and what uses it. -/
theorem Emits.of_one {β : Type} {world : W} {reads : ℕ} {x : Word} {m : ClifM ClifValue}
    {f : ClifValue → ClifM β} {Q : β → List IntWidth → ClifState W → Prop}
    (hm : Emits host halts types s m (One world reads x))
    (hf : ∀ v types' s', Extends types s types' s' → s'.world = world → s'.reads = reads →
      Holds types' s' v x → Emits host halts types' s' (f v) Q) :
    Emits host halts types s (m >>= f) Q :=
  Emits.bind (hm.mono fun v types' s' hext ⟨hworld, hreads, hv⟩ _ =>
    hf v types' s' hext hworld hreads hv)

end Helpers

/-! ## Addresses -/

theorem emits_uextend {width : IntWidth} {offset : BitVec width.bits}
    (hd : Holds types s d ⟨width, offset⟩) :
    Emits host halts types s
      (if width.bits < IntWidth.w64.bits then emit1 (.uextend .w64 d) .w64 else return d)
      (One s.world s.reads ⟨.w64, offset.setWidth 64⟩) := by
  split_ifs with hlt
  · refine emits_emit1 ?_ rfl
    obtain ⟨-, hd⟩ := hd
    simp only [ClifInst.eval, ClifInst.compute]
    generalize s.env d = y at hd
    subst hd
    rw [if_pos hlt]
    rfl
  · refine emits_pure ⟨rfl, rfl, ?_⟩
    have hwidth : width = .w64 := by cases width <;> revert hlt <;> decide
    subst hwidth
    exact (congrArg (fun bits : Address => Holds types s d ⟨.w64, bits⟩)
      (BitVec.setWidth_eq offset)).mpr hd

theorem emits_scale {elemSize : ℕ} {offset : Address} (hd : Holds types s d ⟨.w64, offset⟩) :
    Emits host halts types s
      (if elemSize = 1 then return d
        else if elemSize < 2 ^ 63 then binaryImm .imul d (BitVec.ofNat 64 elemSize)
        else fail .elemSizeTooLarge)
      (One s.world s.reads ⟨.w64, offset * BitVec.ofNat 64 elemSize⟩) := by
  split_ifs with hone hlt
  · subst hone
    refine emits_pure ⟨rfl, rfl, ?_⟩
    rw [BitVec.mul_one]
    exact hd
  · exact emits_binaryImm hd (congrArg (fun imm => some (offset * imm)) (BitVec.setWidth_eq _))
  · exact emits_fail

/-- The offset is extended and scaled, and then added. -/
theorem ptrAdd_emits {elemSize : ℕ} {width : IntWidth} {offset : BitVec width.bits}
    (hc : Holds types s c ⟨.w64, p⟩) (hd : Holds types s d ⟨width, offset⟩) :
    Emits host halts types s (ptrAdd c d elemSize)
      (One s.world s.reads ⟨.w64, p + offset.setWidth 64 * BitVec.ofNat 64 elemSize⟩) := by
  refine Emits.bind (emits_assertValueTy hc fun _ _ => ?_)
  refine Emits.bind (emits_valueType hd fun _ => ?_)
  refine Emits.of_one (emits_uextend hd) fun v types₁ s₁ hext₁ hw₁ hr₁ hv => ?_
  refine Emits.of_one (emits_scale hv) fun u types₂ s₂ hext₂ hw₂ hr₂ hu => ?_
  rw [← hw₁, ← hr₁, ← hw₂, ← hr₂]
  exact emits_binary ((hc.extends hext₁).extends hext₂) hu
    (@Word.binary_arith .add .w64 p (offset.setWidth 64 * BitVec.ofNat 64 elemSize))

theorem ptrByteAdd_emits {width : IntWidth} {offset : BitVec width.bits}
    (hc : Holds types s c ⟨.w64, p⟩) (hd : Holds types s d ⟨width, offset⟩) :
    Emits host halts types s (ptrByteAdd c d)
      (One s.world s.reads ⟨.w64, p + offset.setWidth 64⟩) := by
  rw [← BitVec.mul_one (offset.setWidth 64)]
  exact ptrAdd_emits hc hd

/-! ## Accesses -/

theorem eval_load {ty : IntWidth} {flags : MemFlags} {imm : BitVec 32} {value : BitVec ty.bits}
    (hc : Holds types s c ⟨.w64, p⟩)
    (hload : host.load ty (p + imm.signExtend 64) s.world = some value) :
    ClifInst.eval host halts s (.load ty flags c imm) = some ([⟨ty, value⟩], s.world, s.reads) := by
  simp only [ClifInst.eval, hc.address]
  simp [hload]

theorem eval_store {x : Word} {flags : MemFlags} {imm : BitVec 32} {world : W}
    (hc : Holds types s c ⟨.w64, p⟩) (hd : Holds types s d x)
    (hstore : host.store x.width (p + imm.signExtend 64) x.bits s.world = some world) :
    ClifInst.eval host halts s (.store flags d c imm) = some ([], world, s.reads) := by
  obtain ⟨-, rfl⟩ := hd
  simp only [ClifInst.eval, hc.address]
  simp [hstore]

theorem lowerHostLoad_emits {ty : LoadType} {region : AliasRegion} {offset : ℕ} {canMove : Bool}
    {value : BitVec (loadTyToClifTy ty).bits} (hc : Holds types s c ⟨.w64, p⟩)
    (hload : host.load (loadTyToClifTy ty) (p + BitVec.ofNat 64 offset) s.world = some value) :
    Emits host halts types s (lowerHostLoad ty c region offset canMove)
      (One s.world s.reads ⟨_, value⟩) := by
  refine Emits.bind (emits_offset32 fun imm himm _ => ?_)
  refine Emits.bind (emits_hostMemoryFlags fun flags _ _ => ?_)
  exact emits_emit1 (eval_load hc (himm ▸ hload)) rfl

theorem lowerHostStore_emits {x : Word} {region : AliasRegion} {offset : ℕ}
    {canMove : Bool} {world : W} (hc : Holds types s c ⟨.w64, p⟩) (hd : Holds types s d x)
    (hstore : host.store x.width (p + BitVec.ofNat 64 offset) x.bits s.world = some world) :
    Emits host halts types s (do
      lowerHostStore c region offset d canMove
      return []) (Many world s.reads []) := by
  refine Emits.bind (Emits.bind (emits_offset32 fun imm himm _ => ?_))
  refine Emits.bind (emits_hostMemoryFlags fun flags _ _ => ?_)
  refine Emits.bind (emits_emit (eval_store hc hd (himm ▸ hstore)) rfl
    fun s' _ hworld hreads _ _ => ?_)
  exact emits_pure fun _ => emits_pure ⟨hworld, hreads, List.Forall₂.nil⟩

theorem eval_atomicLoad {ty : IntWidth} {flags : MemFlags} {value : BitVec ty.bits}
    (hc : Holds types s c ⟨.w64, p⟩) (hregion : flags.region ≠ .haltReason)
    (hload : host.atomicLoad ty p s.world = some value) :
    ClifInst.eval host halts s (.atomicLoad ty flags c) =
      some ([⟨ty, value⟩], s.world, s.reads) := by
  simp only [ClifInst.eval, hc.address]
  simp [hregion, hload]

theorem eval_atomicStore {x : Word} {flags : MemFlags} {world : W} (hc : Holds types s c ⟨.w64, p⟩)
    (hd : Holds types s d x) (hstore : host.atomicStore x.width p x.bits s.world = some world) :
    ClifInst.eval host halts s (.atomicStore flags d c) = some ([], world, s.reads) := by
  obtain ⟨-, rfl⟩ := hd
  simp only [ClifInst.eval, hc.address]
  simp [hstore]

theorem eval_or {flags : MemFlags} {bits old : BitVec 8} {world : W}
    (hc : Holds types s c ⟨.w64, p⟩) (hd : Holds types s d ⟨.w8, bits⟩)
    (hor : host.fetchOr p bits s.world = some (old, world)) :
    ClifInst.eval host halts s (.atomicRmw .w8 flags .or c d) =
      some ([⟨.w8, old⟩], world, s.reads) := by
  obtain ⟨-, hd⟩ := hd
  simp only [ClifInst.eval, hc.address]
  generalize s.env d = y at hd
  subst hd
  have hor' : host.fetchOr p (bits.setWidth 8) s.world = some (old, world) :=
    (BitVec.setWidth_eq bits).symm ▸ hor
  simp only [true_and, if_true, Option.bind_eq_bind, Option.bind_some]
  exact Option.bind_eq_some_iff.2 ⟨(old, world), hor', rfl⟩

theorem eval_xchg {flags : MemFlags} {bits : BitVec 32} (hregion : flags.region = .haltReason)
    (hc : Holds types s c ⟨.w64, host.haltReasonPtr⟩) (hd : Holds types s d ⟨.w32, bits⟩) :
    ClifInst.eval host halts s (.atomicRmw .w32 flags .xchg c d) =
      some ([⟨.w32, (host.swapHaltReason bits s.world).1⟩], (host.swapHaltReason bits s.world).2,
        s.reads) := by
  obtain ⟨-, hd⟩ := hd
  simp only [ClifInst.eval, hc.address]
  generalize s.env d = y at hd
  subst hd
  have hbits : (bits.setWidth 32 : BitVec 32) = bits := BitVec.setWidth_eq bits
  refine (if_pos ⟨hregion, rfl, trivial, rfl⟩).trans ?_
  exact congrArg (fun b : BitVec 32 => some
    ([(⟨.w32, (host.swapHaltReason b s.world).1⟩ : Word)], (host.swapHaltReason b s.world).2,
      s.reads)) hbits

/-! ## Calls -/

theorem toWord_width {v : Val Address} {ty : TypeFull} (h : HasType v ty) :
    (toWord v).width = irTyToClifTy ty := by
  cases v with
  | int width value =>
    obtain rfl := hasType_int.1 h
    rfl
  | bool value =>
    obtain rfl := hasType_bool.1 h
    rfl
  | ptr p =>
    obtain ⟨region, rfl⟩ := hasType_ptr.1 h
    rfl

theorem toWord_toVal {x : Word} {ty : TypeFull} {v : Val Address} (h : x.toVal ty = some v) :
    toWord v = x := by
  obtain ⟨width, bits⟩ := x
  cases ty with
  | int width =>
    obtain ⟨-, h⟩ := Option.ite_none_right_eq_some.1 h
    obtain rfl := Option.some.inj h
    rfl
  | bool => cases h
  | hostPtr region =>
    obtain ⟨hwidth, h⟩ := Option.ite_none_right_eq_some.1 h
    obtain rfl := Option.some.inj h
    subst hwidth
    exact congrArg (Word.mk .w64) (BitVec.setWidth_eq bits)

/-- The results of a call are the words of its values, with the types of the signature. -/
theorem callResults_words {ret : Option TypeFull} {results : List Word} {vals : List (Val Address)}
    (h : callResults ret results = some vals) :
    List.Forall₂ (Represents false) vals results ∧
      results.map Word.width = (ret.map irTyToClifTy).toList := by
  unfold callResults at h
  split at h
  · obtain rfl := Option.some.inj h
    exact ⟨List.Forall₂.nil, rfl⟩
  · obtain ⟨v, hv, rfl⟩ := Option.map_eq_some_iff.1 h
    have hword := toWord_toVal hv
    have hwidth := toWord_width (Word.toVal_hasType hv)
    refine ⟨List.Forall₂.cons (hword ▸ represents_word v) List.Forall₂.nil, ?_⟩
    rw [hword] at hwidth
    simp [hwidth]
  · cases h

theorem HoldAll.map_env {ops : List ClifValue} {args : List (Val Address)}
    (h : HoldAll types s ops args) :
    ops.map s.env = args.map toWord := by
  induction h with
  | nil => rfl
  | cons hv _ ih => rw [List.map_cons, List.map_cons, hv.2, ih]

theorem HoldAll.extends {ops : List ClifValue} {args : List (Val Address)}
    (h : HoldAll types s ops args)
    (he : Extends types s types' s') : HoldAll types' s' ops args :=
  List.Forall₂.imp (fun _ _ hv => hv.extends he) h

theorem map_width_of_hasType {args : List (Val Address)} {tys : List TypeFull}
    (h : List.Forall₂ HasType args tys) :
    (args.map toWord).map Word.width = tys.map irTyToClifTy := by
  induction h with
  | nil => rfl
  | cons hv _ ih => rw [List.map_cons, List.map_cons, List.map_cons, toWord_width hv, ih]

/-- A callback is called through the address of its code. -/
theorem lowerHostCallback_computed {func : HostCallback} {signature : CallbackSignature}
    {names : List SSAValue} {ops : List ClifValue} {args vals : List (Val Address)}
    {results : List Word} {world : W} (hargs : HoldAll types s ops args)
    (htys : List.Forall₂ HasType args signature.args)
    (hcall : host.call func (args.map toWord) s.world = some (results, world))
    (hvals : callResults signature.ret results = some vals) :
    Computed host halts ir types s (.hostCallback func signature names) ops vals world := by
  obtain ⟨hwords, hwidths⟩ := callResults_words hvals
  refine ⟨results, hwords, ?_⟩
  refine Emits.of_one (emits_emit1 rfl rfl) fun fnPtr types₁ s₁ hext₁ hw₁ hr₁ hptr => ?_
  have hcode : (host.codeAddr func).setWidth IntWidth.w64.bits = host.codeAddr func :=
    BitVec.setWidth_eq _
  rw [hcode] at hptr
  have hops := (hargs.extends hext₁).map_env
  have hparams : ((args.map toWord).map Word.width) = (fnSignature signature).params :=
    map_width_of_hasType htys
  have heval : ClifInst.eval host halts s₁ (.callIndirect (fnSignature signature) fnPtr ops) =
      some (results, world, s.reads) := by
    refine Option.bind_eq_some_iff.2 ⟨host.codeAddr func, hptr.address, ?_⟩
    refine Option.bind_eq_some_iff.2 ⟨func, host.codeAt_codeAddr func, ?_⟩
    rw [hops, if_pos hparams, hw₁]
    refine Option.bind_eq_some_iff.2 ⟨(results, world), hcall, ?_⟩
    rw [← hr₁]
    exact if_pos hwidths
  exact emits_many heval hwidths.symm

/-! ## Statements -/

/-- The operands in the order in which `lower_rvalue` uses them. -/
def useOrder {α : Type} : StmtKind → List α → List α
  | .storeHost .., [base, value] => [value, base]
  | .vmStoreRaw .., [page, offset, value] => [value, page, offset]
  | _, args => args

theorem map_rvalueUses {α : Type} (rvalue : StmtKind) (f : SSAValue → α)
    (hload : rvalue ≠ .loadHaltReason) (htake : rvalue ≠ .takeHaltReason) :
    (FunctionLowering.rvalueUses rvalue).map f = useOrder rvalue (rvalue.operands.map f) := by
  cases rvalue <;> first | rfl | contradiction

theorem lowerFlat_computed {rvalue : StmtKind} {ops : List ClifValue}
    {args vals : List (Val Address)} {world : W} (htake : rvalue ≠ .takeHaltReason)
    (hargs : HoldAll types s ops (useOrder rvalue args))
    (heval : evalFlat host rvalue args s.world = some (vals, world)) :
    Computed host halts ir types s rvalue ops vals world := by
  unfold evalFlat at heval
  split at heval
  -- loads and stores of the host
  case h_1 width _ offset canMove base =>
    obtain ⟨c, rfl, hc⟩ := HoldAll.one hargs
    obtain ⟨value, hvalue, heq⟩ := Option.map_eq_some_iff.1 heval
    obtain ⟨rfl, rfl⟩ := Prod.mk.inj heq
    refine ⟨[⟨width, value⟩], List.Forall₂.cons (represents_word _) List.Forall₂.nil, ?_⟩
    exact Emits.bind (emits_pointerRegion fun region _ => (lowerHostLoad_emits hc hvalue).singleton)
  case h_2 _ _ offset canMove base =>
    obtain ⟨c, rfl, hc⟩ := HoldAll.one hargs
    obtain ⟨value, hvalue, heq⟩ := Option.map_eq_some_iff.1 heval
    obtain ⟨rfl, rfl⟩ := Prod.mk.inj heq
    refine ⟨[⟨.w64, value⟩], List.Forall₂.cons (represents_word _) List.Forall₂.nil, ?_⟩
    exact Emits.bind (emits_pointerRegion fun region _ => (lowerHostLoad_emits hc hvalue).singleton)
  case h_3 _ offset _ canMove base width value =>
    obtain ⟨d, c, rfl, hd, hc⟩ := HoldAll.two hargs
    obtain ⟨w', hstore, heq⟩ := Option.map_eq_some_iff.1 heval
    obtain ⟨rfl, rfl⟩ := Prod.mk.inj heq
    refine ⟨[], List.Forall₂.nil, ?_⟩
    exact Emits.bind (emits_pointerRegion fun region _ => lowerHostStore_emits hc hd hstore)
  case h_4 _ offset _ canMove base q =>
    obtain ⟨d, c, rfl, hd, hc⟩ := HoldAll.two hargs
    obtain ⟨w', hstore, heq⟩ := Option.map_eq_some_iff.1 heval
    obtain ⟨rfl, rfl⟩ := Prod.mk.inj heq
    refine ⟨[], List.Forall₂.nil, ?_⟩
    exact Emits.bind (emits_pointerRegion fun region _ => lowerHostStore_emits hc hd hstore)
  -- pointers
  case h_5 slot =>
    obtain rfl := HoldAll.nil hargs
    obtain ⟨rfl, rfl⟩ := Prod.mk.inj (Option.some.inj heval)
    refine ⟨[⟨.w64, host.stackAddr slot⟩],
      List.Forall₂.cons (represents_word _) List.Forall₂.nil, ?_⟩
    refine Emits.bind (emits_useStackSlot fun _ => ?_)
    exact (emits_emit1 (x := ⟨.w64, host.stackAddr slot⟩) rfl rfl).singleton
  case h_6 _ _ elemSize base width offset =>
    obtain ⟨c, d, rfl, hc, hd⟩ := HoldAll.two hargs
    obtain ⟨rfl, rfl⟩ := Prod.mk.inj (Option.some.inj heval)
    exact Computed.one rfl rfl (ptrAdd_emits hc hd)
  case h_7 a b =>
    obtain ⟨c, d, rfl, hc, hd⟩ := HoldAll.two hargs
    obtain ⟨rfl, rfl⟩ := Prod.mk.inj (Option.some.inj heval)
    refine ⟨[⟨.w8, clifBool (a == b)⟩], List.Forall₂.cons (represents_word _) List.Forall₂.nil, ?_⟩
    refine Emits.bind (emits_assertValueTy hc fun _ _ => ?_)
    refine Emits.bind (emits_assertValueTy hd fun _ _ => ?_)
    exact (emits_icmp hc hd).singleton
  case h_8 _ tagBits q =>
    obtain ⟨c, rfl, hc⟩ := HoldAll.one hargs
    obtain ⟨rfl, rfl⟩ := Prod.mk.inj (Option.some.inj heval)
    refine ⟨[⟨.w64, q &&& tagBits.setWidth 64⟩], List.Forall₂.cons ⟨rfl, rfl⟩ List.Forall₂.nil, ?_⟩
    refine (emits_binaryImm hc ?_).singleton
    exact congrArg (fun imm => some (q &&& imm)) (BitVec.setWidth_eq _)
  case h_9 _ tagBits q =>
    obtain ⟨c, rfl, hc⟩ := HoldAll.one hargs
    obtain ⟨rfl, rfl⟩ := Prod.mk.inj (Option.some.inj heval)
    refine Computed.one rfl rfl (emits_binaryImm hc ?_)
    exact congrArg (fun imm => some (q &&& imm)) (BitVec.setWidth_eq _)
  case h_10 func signature names =>
    obtain ⟨htys, heval⟩ := Option.ite_none_right_eq_some.1 heval
    obtain ⟨⟨results, w'⟩, hcall, h⟩ := Option.bind_eq_some_iff.1 heval
    obtain ⟨vals', hvals, h⟩ := Option.bind_eq_some_iff.1 h
    obtain ⟨rfl, rfl⟩ := Prod.mk.inj (Option.some.inj h)
    exact lowerHostCallback_computed hargs htys hcall hvals
  -- accesses to guest memory
  case h_11 _ _ width seqCst page width' offset =>
    obtain ⟨c, d, rfl, hc, hd⟩ := HoldAll.two hargs
    obtain ⟨value, hload, heq⟩ := Option.map_eq_some_iff.1 heval
    obtain ⟨rfl, rfl⟩ := Prod.mk.inj heq
    refine ⟨[⟨width, value⟩], List.Forall₂.cons (represents_word _) List.Forall₂.nil, ?_⟩
    refine Emits.of_one (ptrByteAdd_emits hc hd) fun ptr types₁ s₁ _ hw₁ hr₁ hptr => ?_
    rw [← hw₁, ← hr₁]
    exact (emits_emit1 (eval_atomicLoad hptr (by decide) (hw₁ ▸ hload)) rfl).singleton
  case h_12 _ _ _ seqCst page width' offset width value =>
    obtain ⟨e, c, d, rfl, he, hc, hd⟩ := HoldAll.three hargs
    obtain ⟨w', hstore, heq⟩ := Option.map_eq_some_iff.1 heval
    obtain ⟨rfl, rfl⟩ := Prod.mk.inj heq
    refine ⟨[], List.Forall₂.nil, ?_⟩
    refine Emits.of_one (ptrByteAdd_emits hc hd) fun ptr types₁ s₁ hext₁ hw₁ hr₁ hptr => ?_
    rw [← hr₁]
    exact emits_many (eval_atomicStore hptr (he.extends hext₁) (hw₁ ▸ hstore)) rfl
  case h_13 => exact absurd rfl htake
  case h_14 _ q =>
    obtain ⟨c, rfl, hc⟩ := HoldAll.one hargs
    obtain ⟨⟨old, w'⟩, hor, heq⟩ := Option.map_eq_some_iff.1 heval
    obtain ⟨rfl, rfl⟩ := Prod.mk.inj heq
    refine ⟨[], List.Forall₂.nil, ?_⟩
    refine Emits.of_one (emits_iconst _) fun flagVal types₁ s₁ hext₁ hw₁ hr₁ hflag => ?_
    refine Emits.bind (emits_hostMemoryFlags fun flags _ _ => ?_)
    rw [← hr₁]
    refine Emits.of_one (emits_emit1 (eval_or (hc.extends hext₁) hflag (hw₁ ▸ hor)) rfl)
      fun _ _ _ _ hw₂ hr₂ _ => ?_
    exact emits_pure ⟨hw₂, hr₂, List.Forall₂.nil⟩
  case h_15 =>
    obtain rfl := HoldAll.nil hargs
    obtain ⟨rfl, rfl⟩ := Prod.mk.inj (Option.some.inj heval)
    exact ⟨[], List.Forall₂.nil, emits_pure ⟨rfl, rfl, List.Forall₂.nil⟩⟩
  case h_16 => cases heval

/-- The halt reason is taken from its cell, which becomes zero. -/
theorem lowerTakeHaltReason_computed (hc : Holds types s c ⟨.w64, host.haltReasonPtr⟩) :
    Computed host halts ir types s .takeHaltReason [c] [.int .w32 (host.swapHaltReason 0 s.world).1]
      (host.swapHaltReason 0 s.world).2 := by
  refine ⟨[⟨.w32, (host.swapHaltReason 0 s.world).1⟩],
    List.Forall₂.cons (represents_word _) List.Forall₂.nil, ?_⟩
  refine Emits.of_one (emits_iconst _) fun zeroVal types₁ s₁ hext₁ hw₁ hr₁ hzero => ?_
  refine Emits.bind (emits_hostMemoryFlags fun flags hregion _ => ?_)
  rw [← hr₁, ← hw₁]
  exact (emits_emit1 (eval_xchg hregion (hc.extends hext₁) hzero) rfl).singleton

/-- The load of the halt reason reads the next one of the stream. -/
theorem lowerLoadHaltReason_emits (hc : Holds types s c ⟨.w64, host.haltReasonPtr⟩) :
    Emits host halts types s (lowerRvalue host.codeAddr ir .loadHaltReason [c])
      (Many s.world (s.reads + 1) [⟨.w32, halts s.reads⟩]) := by
  refine Emits.bind (emits_hostMemoryFlags fun flags hregion _ => ?_)
  refine (emits_emit1 (x := ⟨.w32, halts s.reads⟩) ?_ rfl).singleton
  simp only [ClifInst.eval, hc.address]
  simp [hregion]

end RapidArm.Clif
