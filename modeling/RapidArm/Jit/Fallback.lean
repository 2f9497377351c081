import RapidArm.Jit.Halting
import RapidArm.Jit.TlbProbe

/-!
# The fallback of a guest memory access

The block that `emit_host_mem_fallback` makes (`jit-compiler-core/src/ir/mod.rs`, lines 2253–2310):
it calls the host function, returns the halt reason of a memory trap if the status is a fault, and
for a load reads the value back from the scratch slot.

Results:
* `computes_loadCode`, `halts_loadCode`, `computes_storeCode`, `halts_storeCode`: what the block
  does, for both statuses.
* `fallback_load`, `fallback_store`: where in the builder that code is.
-/

namespace RapidArm.Jit

open RapidArm.Ir RapidArm.Lib RapidArm.Backend RapidArm.Mmu ExecIrBuilder

/-! ## Calls of the host -/

section Calls

variable {L : Layout} {backend : JitBackend}
  {other : StmtKind → List (Val HostPtr) → HostState → Option (List (Val HostPtr) × HostState)}
  {B : Set Block} {K : List (HostFact L backend other)} {s s' : HostState}

/-- The arguments of a compiled function that point to the MMU and to the execution context. -/
def ioMMUArg : HostFact L backend other := IsPtr Arg.ioMMU.asSSAValue .readOnly .ioMMU

def contextArg : HostFact L backend other :=
  IsPtr Arg.execContext.asSSAValue .execContext .execContext

/-- The types of the arguments are checked against the signature. -/
theorem checkArgs_ok {args : List (HostFact L backend other)} (hargs : ∀ f ∈ args, f ∈ K)
    {signature : CallbackSignature} (hsig : args.map Fact.ty = signature.args) {b : ExecIrBuilder}
    (hK : Typed K b) : checkArgs signature (args.map Fact.value) b = .ok ((), b) := by
  have htypes : (args.map Fact.value).mapM (fun arg => arenaGet b.ssaValues arg) =
      .ok (args.map Fact.ty) := by
    clear hsig
    induction args with
    | nil => rfl
    | cons f args ih =>
      rw [List.map_cons, List.mapM_cons]
      refine bind_eq_ok.2 ⟨f.ty, arenaGet_eq_ok.2 (hK f (hargs f List.mem_cons_self)), ?_⟩
      exact bind_eq_ok.2 ⟨_, ih fun g hg => hargs g (List.mem_cons_of_mem _ hg), rfl⟩
  exact bind_eq_ok.2 ⟨_, htypes, bind_eq_ok.2 ⟨(), require_eq_ok.2 hsig, rfl⟩⟩

theorem appends_checkArgs (signature : CallbackSignature) (args : List SSAValue) :
    Appends B (checkArgs signature args) := by
  refine Appends.read fun {b a b'} h => ?_
  obtain ⟨types, -, h⟩ := bind_eq_ok.1 h
  obtain ⟨-, -, h⟩ := bind_eq_ok.1 h
  exact (Prod.mk.inj (Except.ok.inj h)).2.symm

/-- A call that returns a status. -/
theorem computes_callHost {func : HostCallback} {signature : CallbackSignature}
    {args : List (HostFact L backend other)} (hargs : ∀ f ∈ args, f ∈ K)
    (hsig : args.map Fact.ty = signature.args) (hret : signature.ret = some (.int .w8)) {ok : Bool}
    (hcall : evalHost L (.hostCallback func signature (args.map Fact.value)) (args.map Fact.val) s =
      some (some ([IoMmuStatus.toVal ok], s'))) :
    Computes B K s (callHost func signature (args.map Fact.value))
      (fun v => [⟨v, .int .w8, IoMmuStatus.toVal ok⟩]) s' := by
  refine Computes.read_bind (fun hK => checkArgs_ok hargs hsig hK) ?_
  refine Computes.emit1 args hargs rfl (by nofun) (fun b _ => ?_) (eval_of_host rfl hcall)
  show Except.ok signature.ret.toList = _
  rw [hret]
  rfl

/-- The status of a call decides whether the run goes on. -/
theorem computes_hostCall {func : HostCallback × CallbackSignature} {width : IntWidth}
    {vaddr arg : SSAValue}
    (hcall : Computes B K s (callHost func.1 func.2 [Arg.ioMMU.asSSAValue, Arg.tlb.asSSAValue,
      Arg.execContext.asSSAValue, vaddr, arg]) (fun v =>
        [⟨v, .int .w8, IoMmuStatus.toVal true⟩]) s') :
    Computes B K s (emitHostCall func width vaddr arg) (fun _ => []) s' := by
  refine hcall.bind fun status => ?_
  refine (makesHalt_haltBlock (K := []) (s := s') _).computes_bind (by simp) fun fail => ?_
  refine (computes_assert (Set.mem_insert _ _) List.mem_cons_self (by nofun) rfl).bind fun _ => ?_
  exact Computes.pure fun f hf => by cases hf

theorem halts_hostCall {func : HostCallback × CallbackSignature} {width : IntWidth}
    {vaddr arg : SSAValue}
    (hcall : Computes B K s (callHost func.1 func.2 [Arg.ioMMU.asSSAValue, Arg.tlb.asSSAValue,
      Arg.execContext.asSSAValue, vaddr, arg]) (fun v =>
        [⟨v, .int .w8, IoMmuStatus.toVal false⟩]) s') :
    Halts B K s (emitHostCall func width vaddr arg) (memoryTrap width.bytes) s' := by
  refine hcall.bind_halts fun status => ?_
  refine (makesHalt_haltBlock (K := []) (s := s') _).halts_bind (by simp) fun fail => ?_
  refine (leaves_assert (Set.mem_insert _ _) List.mem_cons_self rfl).bind fun _ => ?_
  exact Appends.pure _

theorem appends_hostCall (func : HostCallback × CallbackSignature) (width : IntWidth)
    (vaddr arg : SSAValue) :
    Appends B (emitHostCall func width vaddr arg) := by
  refine Appends.bind (Appends.bind (appends_checkArgs _ _) fun _ => appends_emit1 _) fun status =>
    ?_
  refine Makes.appends_bind (makes_haltBlock _) fun fail => ?_
  exact Appends.bind (appends_assert _ _ (Set.mem_insert _ _)) fun _ => Appends.pure _

/-! ## The two kinds of access -/

/-- The code of the fallback of a load, with the scratch slot `slot`. -/
def loadCode (slot : StackSlot) (width : IntWidth) (vaddr : SSAValue) : BuilderM SSAValue := do
  let stackPtr ← useStackSlot slot
  emitHostCall (loadCallback width false) width vaddr stackPtr
  emit1RetStmt (.loadHost (.int width) stackPtr 0 false)

theorem appends_loadCode (slot : StackSlot) (width : IntWidth) (vaddr : SSAValue) :
    Appends B (loadCode slot width vaddr) :=
  Appends.bind (appends_emit1 _) fun _ => Appends.bind (appends_hostCall _ _ _ _) fun _ =>
    appends_emit1 _

/-- The code of the fallback of a store. -/
def storeCode (value : SSAValue) (width : IntWidth) (vaddr : SSAValue) : BuilderM Unit :=
  emitHostCall (storeCallback width false) width vaddr value

variable {v : SSAValue} {vaddr : BitVec 64} {width : IntWidth}

/-- What the code of a fallback is run with. -/
structure HostArgs (K : List (HostFact L backend other)) (v : SSAValue)
    (vaddr : BitVec 64) : Prop where
  ioMMU : ioMMUArg ∈ K
  tlb : tlbArg ∈ K
  context : contextArg ∈ K
  address : IsInt v .w64 vaddr ∈ K

theorem HostArgs.mono (h : HostArgs K v vaddr) {K' : List (HostFact L backend other)}
    (hsub : ∀ f ∈ K, f ∈ K') :
    HostArgs K' v vaddr :=
  ⟨hsub _ h.ioMMU, hsub _ h.tlb, hsub _ h.context, hsub _ h.address⟩

theorem HostArgs.mem (h : HostArgs K v vaddr) {f : HostFact L backend other} (hf : f ∈ K) :
    ∀ g ∈ [ioMMUArg, tlbArg, contextArg, IsInt v .w64 vaddr, f], g ∈ K := by
  intro g hg
  simp only [List.mem_cons, List.not_mem_nil, or_false] at hg
  rcases hg with rfl | rfl | rfl | rfl | rfl
  · exact h.ioMMU
  · exact h.tlb
  · exact h.context
  · exact h.address
  · exact hf

theorem computes_useStackSlot (slot : StackSlot) :
    Computes B K s (useStackSlot slot) (fun p => [IsPtr p .scratchSpace (.stackSlot slot)]) s :=
  Computes.emit1 [] (fun f hf => by cases hf) rfl (by nofun) (fun _ _ => rfl) (eval_of_host rfl rfl)

theorem computes_loadCallback (h : HostArgs K v vaddr) {stackPtr : SSAValue} {slot : StackSlot}
    (hp : IsPtr stackPtr .scratchSpace (.stackSlot slot) ∈ K) {ok : Bool}
    (hrun : loadFallback width vaddr slot s = some (ok, s')) :
    Computes B K s (callHost (loadCallback width false).1 (loadCallback width false).2
      [Arg.ioMMU.asSSAValue, Arg.tlb.asSSAValue, Arg.execContext.asSSAValue, v, stackPtr])
      (fun r => [⟨r, .int .w8, IoMmuStatus.toVal ok⟩]) s' := by
  refine computes_callHost (h.mem hp) rfl rfl ?_
  show some ((loadFallback width vaddr slot s).map fun r => ([IoMmuStatus.toVal r.1], r.2)) = _
  rw [hrun]
  rfl

theorem computes_storeCallback (h : HostArgs K v vaddr) {value : SSAValue} {x : BitVec width.bits}
    (hx : IsInt value width x ∈ K) {ok : Bool} (hrun : storeFallback vaddr x s = some (ok, s')) :
    Computes B K s (callHost (storeCallback width false).1 (storeCallback width false).2
      [Arg.ioMMU.asSSAValue, Arg.tlb.asSSAValue, Arg.execContext.asSSAValue, v, value])
      (fun r => [⟨r, .int .w8, IoMmuStatus.toVal ok⟩]) s' := by
  refine computes_callHost (h.mem hx) rfl rfl ?_
  show some ((if width = width then storeFallback vaddr x s else none).map
    fun r => ([IoMmuStatus.toVal r.1], r.2)) = _
  rw [if_pos rfl, hrun]
  rfl

/-- A load that succeeds yields what the callback stored to the scratch slot. -/
theorem computes_loadCode (h : HostArgs K v vaddr) {slot : StackSlot} {x : BitVec width.bits}
    (hrun : loadFallback width vaddr slot s = some (true, s'))
    (hx : s'.stack slot = some (.int width x)) :
    Computes B K s (loadCode slot width v) (fun r => [IsInt r width x]) s' := by
  refine (computes_useStackSlot slot).bind fun stackPtr => ?_
  have hargs :=
    h.mono fun f hf => List.mem_append_right [IsPtr stackPtr .scratchSpace (.stackSlot slot)] hf
  refine (computes_hostCall (computes_loadCallback hargs List.mem_cons_self hrun)).bind fun _ => ?_
  refine computes_loadHost (List.mem_append_right _ List.mem_cons_self) ?_
  simp [loadHost, hx]

theorem halts_loadCode (h : HostArgs K v vaddr) {slot : StackSlot}
    (hrun : loadFallback width vaddr slot s = some (false, s')) :
    Halts B K s (loadCode slot width v) (memoryTrap width.bytes) s' := by
  refine (computes_useStackSlot slot).bind_halts fun stackPtr => ?_
  have hargs :=
    h.mono fun f hf => List.mem_append_right [IsPtr stackPtr .scratchSpace (.stackSlot slot)] hf
  exact (halts_hostCall (computes_loadCallback hargs List.mem_cons_self hrun)).bind fun _ =>
    appends_emit1 _

theorem computes_storeCode (h : HostArgs K v vaddr) {value : SSAValue} {x : BitVec width.bits}
    (hx : IsInt value width x ∈ K) (hrun : storeFallback vaddr x s = some (true, s')) :
    Computes B K s (storeCode value width v) (fun _ => []) s' :=
  computes_hostCall (computes_storeCallback h hx hrun)

theorem halts_storeCode (h : HostArgs K v vaddr) {value : SSAValue} {x : BitVec width.bits}
    (hx : IsInt value width x ∈ K) (hrun : storeFallback vaddr x s = some (false, s')) :
    Halts B K s (storeCode value width v) (memoryTrap width.bytes) s' :=
  halts_hostCall (computes_storeCallback h hx hrun)

end Calls

/-! ## The block of the fallback -/

/-- In `b'` the code that `m` emits has blocks of its own: it begins at `block` and goes on past the
    end of `last`, which is open. -/
structure OwnBlock {α : Type} (m : BuilderM α) (a : α) (b b' : ExecIrBuilder)
    (block last : Block) : Prop where
  emitted : Emitted ∅ b b'
  current : b'.currentBlock = b.currentBlock
  ne_entry : block ≠ Block.ENTRYPOINT
  params : HasParams b' block []
  isNew : b.blocks.length ≤ last
  code : ∃ b₀ b₁, b.ssaValues <+: b₀.ssaValues ∧ b₀.currentBlock = block ∧ OpenBlock b₀ block 0 ∧
    m b₀ = .ok (a, b₁) ∧ b₁.currentBlock = last ∧ IsOpen b₁ ∧
      b' = { b₁ with currentBlock := b.currentBlock }

section Place

variable {α : Type} {m : BuilderM α} {a : α} {b b' : ExecIrBuilder} {block last : Block}

/-- Code that is emitted to a new block. -/
theorem OwnBlock.of_create {b₀ b₁ b₂ : ExecIrBuilder} (hcreate : createBlock b = .ok (block, b₀))
    (hcold : Emitted ∅ { b₀ with currentBlock := block } b₁) (hcur : b₁.currentBlock = block)
    (hm : Appends ∅ m) (hrun : m b₁ = .ok (a, b₂)) (hopen : IsOpen b) :
    OwnBlock m a b { b₂ with currentBlock := b.currentBlock } block b₂.currentBlock := by
  obtain ⟨he, rfl, hnew, hparams, -, -⟩ := createBlock_spec ∅ hcreate
  have hopen₁ : OpenBlock b₁ b.blocks.length 0 := hcold.openBlock hnew (Set.notMem_empty _)
  have hemits := hm hrun ⟨0, by rw [hcur]; exact hopen₁⟩ fun _ hmem => hmem.elim
  have hcold' : Emitted ∅ b₀ b₁ := hcold.of_scope
  have he₁ : Emitted ∅ b b₁ := he.trans hcold' fun _ hx _ => hx
  have hemitted : Emitted ∅ b b₂ := by
    refine he₁.trans hemits.emitted ?_
    rintro x rfl hlt
    rw [hcur] at hlt
    exact absurd hlt (Nat.lt_irrefl _)
  obtain ⟨n, hcurrent⟩ := hopen
  refine ⟨hemitted.trans (.of_eq rfl rfl rfl) fun _ hx _ => hx, rfl,
    Nat.ne_of_gt (Nat.lt_of_le_of_lt (Nat.zero_le _) hcurrent.lt),
    hemits.emitted.hasParams (hcold'.hasParams hparams), ?_,
    b₁, b₂, he₁.ssaValues, hcur, hopen₁, hrun, rfl, hemits.isOpen, rfl⟩
  rcases hemits.current with heq | hge
  · exact Nat.le_of_eq (heq.trans hcur).symm
  · exact he₁.length.trans hge

theorem OwnBlock.isOpen (h : OwnBlock m a b b' block last) : ∃ n, OpenBlock b' last n := by
  obtain ⟨b₀, b₁, -, -, -, -, hlast, hopen, heq⟩ := h.code
  rw [heq]
  rw [← hlast]
  exact hopen

variable {M : Machine} {K : List (Fact M)} {w w' : M.World} {backend : JitBackend}
  {halts : ℕ → BitVec 32} {F : ExecIrBuilder} {c : Config M}

/-- Where a run that jumped to the block begins. -/
theorem OwnBlock.begin (h : OwnBlock m a b b' block last) (hblock : c.block = block)
    (hpc : c.pc = 0) :
    ∃ b₀ b₁, m b₀ = .ok (a, b₁) ∧ At b₀ c ∧ (∀ {f : Fact M}, f.Holds b c → f.Holds b₀ c) ∧
      b₁.currentBlock = last ∧ b' = { b₁ with currentBlock := b.currentBlock } := by
  obtain ⟨b₀, b₁, hvals, hcur, hopen, hm, hlast, -, heq⟩ := h.code
  refine ⟨b₀, b₁, hm, ⟨hblock.trans hcur.symm, ?_⟩, fun hf => ?_, hlast, heq⟩
  · rw [hcur, hpc]
    exact hopen
  · exact ⟨getElem?_of_isPrefix hvals hf.1, hf.2⟩

variable (halts) in
/-- The run gets past the end of the block. -/
theorem OwnBlock.computes (h : OwnBlock m a b b' block last) {P : α → List (Fact M)}
    (hm : Computes ∅ K w m P w') (hF : Emitted Set.univ b' F) (hblock : c.block = block)
    (hpc : c.pc = 0) (hK : Knows K b c) (hw : c.world = w) :
    ∃ c', Reaches M backend halts F c c' ∧ c'.block = last ∧ OpenBlock b' last c'.pc ∧
      Knows (P a) b' c' ∧ (∀ {f : Fact M}, f.Holds b c → f.Holds b' c') ∧ c'.world = w' := by
  obtain ⟨b₀, b₁, hrun, hat, hkeep, rfl, rfl⟩ := h.begin hblock hpc
  obtain ⟨c', hfollow, hknow, hworld⟩ := hm.runs hrun (fun _ hmem => hmem.elim) backend halts F
    hF.of_scope hat (fun f hf => hkeep (hK f hf)) hw
  exact ⟨c', hfollow.reaches, hfollow.at'.1, hfollow.at'.2, hknow,
    fun hf => hfollow.facts (hkeep hf), hworld⟩

/-- The run returns. -/
theorem OwnBlock.returns (h : OwnBlock m a b b' block last) {code : BitVec 32}
    (hm : Halts ∅ K w m code w') (hF : Emitted Set.univ b' F) (hblock : c.block = block)
    (hpc : c.pc = 0) (hK : Knows K b c) (hw : c.world = w) :
    HaltsWith backend halts F c code w' := by
  obtain ⟨b₀, b₁, hrun, hat, hkeep, -, rfl⟩ := h.begin hblock hpc
  exact hm.runs hrun (fun _ hmem => hmem.elim) backend halts F hF.of_scope hat
    (fun f hf => hkeep (hK f hf)) hw

/-! ### `emit_host_mem_fallback` -/

/-- The scratch slot is used, after it was created if need be. -/
theorem getScratchSpacePtr_ok {p : SSAValue} (h : getScratchSpacePtr b = .ok (p, b')) :
    ∃ slot b₀, Emitted ∅ b b₀ ∧ b₀.currentBlock = b.currentBlock ∧
      useStackSlot slot b₀ = .ok (p, b') := by
  unfold getScratchSpacePtr at h
  obtain ⟨b₁, b₂, hget, h⟩ := emit_bind_ok.1 h
  obtain ⟨rfl, rfl⟩ := Prod.mk.inj (Except.ok.inj hget)
  cases hslot : b.scratchSpace with
  | some slot =>
    rw [hslot] at h
    exact ⟨slot, b, Emitted.refl b, rfl, h⟩
  | none =>
    rw [hslot] at h
    obtain ⟨slot, b₁, hcreate, h⟩ := emit_bind_ok.1 h
    obtain ⟨_, b₂, hmodify, h⟩ := emit_bind_ok.1 h
    obtain ⟨-, rfl⟩ := Prod.mk.inj (Except.ok.inj hmodify)
    obtain ⟨-, -, hb₁⟩ := bind_eq_ok.1 hcreate
    obtain ⟨-, rfl⟩ := Prod.mk.inj (Except.ok.inj hb₁)
    exact ⟨slot, { b with stackSlots := b.stackSlots ++ [⟨8, 8⟩], scratchSpace := some slot },
      .of_eq rfl rfl rfl, rfl, h⟩

theorem fallback_load {width width' : IntWidth} {v : SSAValue} {fallback : FallbackAccess}
    (hopen : IsOpen b) (h : emitHostMemFallback (.load width') width v b = .ok (fallback, b')) :
    ∃ slot value, fallback.value = some value ∧
      OwnBlock (loadCode slot width v) value b b' fallback.block fallback.okBlock := by
  obtain ⟨block, b₀, hcreate, hscope⟩ := emit_bind_ok.1 h
  obtain ⟨b₁, hall, rfl⟩ := blockScope_ok.1 hscope
  obtain ⟨value, b₂, hbody, hrest⟩ := emit_bind_ok.1 hall
  obtain ⟨b₃, b₃', hget, hpure⟩ := emit_bind_ok.1 hrest
  obtain ⟨rfl, rfl⟩ := Prod.mk.inj (Except.ok.inj hget)
  obtain ⟨rfl, rfl⟩ := emit_pure_ok.1 hpure
  obtain ⟨_, b₄, hcold, hbody₁⟩ := emit_bind_ok.1 hbody
  obtain ⟨stackPtr, b₅, hscratch, hbody₂⟩ := emit_bind_ok.1 hbody₁
  obtain ⟨_, b₆, hcall, hbody₃⟩ := emit_bind_ok.1 hbody₂
  obtain ⟨r, b₇, hload, hbody₄⟩ := emit_bind_ok.1 hbody₃
  obtain ⟨rfl, rfl⟩ := emit_pure_ok.1 hbody₄
  obtain ⟨hcoldE, hcoldCur, -⟩ := markBlockBold_spec ∅ hcold
  obtain ⟨slot, b₈, hslotE, hslotCur, hslot⟩ := getScratchSpacePtr_ok hscratch
  have hcode : loadCode slot width v b₈ = .ok (r, _) :=
    emit_bind_ok.2 ⟨stackPtr, b₅, hslot, emit_bind_ok.2 ⟨(), b₆, hcall, hload⟩⟩
  obtain ⟨-, -, -, -, hcur, -⟩ := createBlock_spec ∅ hcreate
  refine ⟨slot, r, rfl, ?_⟩
  have hown := OwnBlock.of_create hcreate (hcoldE.trans hslotE fun _ hx _ => hx)
    (hslotCur.trans hcoldCur) (appends_loadCode slot width v) hcode hopen
  rw [← hcur] at hown
  exact hown

theorem fallback_store {width : IntWidth} {v value : SSAValue} {fallback : FallbackAccess}
    (hopen : IsOpen b) (h : emitHostMemFallback (.store value) width v b = .ok (fallback, b')) :
    fallback.value = none ∧
      OwnBlock (storeCode value width v) () b b' fallback.block fallback.okBlock := by
  obtain ⟨block, b₀, hcreate, hscope⟩ := emit_bind_ok.1 h
  obtain ⟨b₁, hall, rfl⟩ := blockScope_ok.1 hscope
  obtain ⟨r, b₂, hbody, hrest⟩ := emit_bind_ok.1 hall
  obtain ⟨b₃, b₃', hget, hpure⟩ := emit_bind_ok.1 hrest
  obtain ⟨rfl, rfl⟩ := Prod.mk.inj (Except.ok.inj hget)
  obtain ⟨rfl, rfl⟩ := emit_pure_ok.1 hpure
  obtain ⟨_, b₄, hcold, hbody₁⟩ := emit_bind_ok.1 hbody
  obtain ⟨_, b₅, hcall, hbody₂⟩ := emit_bind_ok.1 hbody₁
  obtain ⟨rfl, rfl⟩ := emit_pure_ok.1 hbody₂
  obtain ⟨hcoldE, hcoldCur, -⟩ := markBlockBold_spec ∅ hcold
  obtain ⟨-, -, -, -, hcur, -⟩ := createBlock_spec ∅ hcreate
  refine ⟨rfl, ?_⟩
  have hown := OwnBlock.of_create hcreate hcoldE hcoldCur
    (appends_hostCall (storeCallback width false) width v value) hcall hopen
  rw [← hcur] at hown
  exact hown

end Place

end RapidArm.Jit
