import RapidArm.Jit.Fallback

/-!
# The inline access

What `vm_access` emits between the probe of the TLB and the access itself
(`jit-compiler-core/src/ir/mod.rs`, lines 2386–2482): the test of the alignment, the test of the
permission with the block that records a fault, and the raw load or store.

Results:
* `computes_inline`, `halts_inline`, `leaves_inline`: the access is done inline on a hit that is
  aligned and allowed, it traps on one that is not allowed, and else goes on in the fallback.
-/

namespace RapidArm.Jit

open RapidArm.Ir RapidArm.Lib RapidArm.Backend RapidArm.Mmu RapidArm.Exec ExecIrBuilder

section Statements

variable {L : Layout} {backend : JitBackend}
  {other : StmtKind → List (Val HostPtr) → HostState → Option (List (Val HostPtr) × HostState)}
  {B : Set Block} {K : List (HostFact L backend other)} {s : HostState} {v : SSAValue}
  {vaddr : BitVec 64} {ptr : SSAValue} {region : AliasRegion} {page : HostPage} {tag : BitVec 8}

/-! ## Alignment -/

/-- The bits below the alignment are the remainder. -/
theorem alignmentBits_eq (width : IntWidth) (vaddr : BitVec 64) :
    (vaddr &&& BitVec.ofNat 64 (width.bytes - 1) == 0) = decide
    (vaddr.toNat % width.bytes = 0) := by
  have hmask : ∃ k, (BitVec.ofNat 64 (width.bytes - 1)).toNat = 2 ^ k - 1 ∧
      width.bytes = 2 ^ k := by
    cases width with
    | w8 => exact ⟨0, rfl, rfl⟩
    | w16 => exact ⟨1, rfl, rfl⟩
    | w32 => exact ⟨2, rfl, rfl⟩
    | w64 => exact ⟨3, rfl, rfl⟩
  obtain ⟨k, hmask, hbytes⟩ := hmask
  rw [Bool.eq_iff_iff, beq_iff_eq, decide_eq_true_eq, ← BitVec.toNat_inj, BitVec.toNat_and, hmask,
    Nat.and_two_pow_sub_one_eq_mod, hbytes]
  rfl

theorem computes_alignment {width : IntWidth} {fallback : Block} (hv : IsInt v .w64 vaddr ∈ K)
    (haligned : vaddr.toNat % width.bytes = 0) :
    Computes {fallback} K s (emitAlignmentCheck width v fallback) (fun _ => []) s := by
  have hbits : (vaddr &&& BitVec.ofNat 64 (width.bytes - 1) == 0) = true := by
    rw [alignmentBits_eq]
    exact decide_eq_true haligned
  unfold emitAlignmentCheck
  split_ifs
  · exact Computes.pure (P := fun _ => []) fun f hf => by cases hf
  · refine (computes_bitandImm hv (BitVec.setWidth_eq _)).bind fun bits => ?_
    refine (computes_icmpImm List.mem_cons_self (BitVec.setWidth_eq 0)).bind fun isAligned => ?_
    refine (computes_assertBool (Set.mem_singleton _) List.mem_cons_self hbits).bind fun _ => ?_
    exact Computes.pure fun f hf => by cases hf

theorem leaves_alignment {width : IntWidth} {fallback : Block} (hv : IsInt v .w64 vaddr ∈ K)
    (hunaligned : vaddr.toNat % width.bytes ≠ 0) :
    Leaves {fallback} K s (emitAlignmentCheck width v fallback) fallback s := by
  have hbits : (vaddr &&& BitVec.ofNat 64 (width.bytes - 1) == 0) ≠ true := by
    rw [alignmentBits_eq]
    exact fun h => hunaligned (of_decide_eq_true h)
  unfold emitAlignmentCheck
  rw [if_neg (by rintro rfl; exact hunaligned (Nat.mod_one _))]
  refine (computes_bitandImm hv (BitVec.setWidth_eq _)).bind_leaves fun bits => ?_
  refine (computes_icmpImm List.mem_cons_self (BitVec.setWidth_eq 0)).bind_leaves fun isAligned =>
    ?_
  refine (leaves_assertBool (Set.mem_singleton _) List.mem_cons_self hbits).bind fun _ => ?_
  exact Appends.pure _

theorem appends_icmpImm (cmp : IntCmp) (l : SSAValue) (c : IConst) :
    Appends B (icmpImm cmp l c) := by
  refine Appends.bind (appends_assertInt l) fun width => ?_
  exact Appends.bind (appends_check _ _) fun _ => appends_emit1 _

theorem appends_alignment {width : IntWidth} {fallback : Block} (v : SSAValue) :
    Appends {fallback} (emitAlignmentCheck width v fallback) := by
  unfold emitAlignmentCheck
  split_ifs
  · exact Appends.pure _
  · refine Appends.bind (appends_bitandImm _ _) fun bits => ?_
    refine Appends.bind (appends_icmpImm _ _ _) fun isAligned => ?_
    exact Appends.bind (appends_assert _ _ (Set.mem_singleton _)) fun _ => Appends.pure _

/-! ## Tagged pointers -/

theorem computes_hasTag {bits : BitVec 8} (hp : IsPtr ptr region (.page page tag) ∈ K) :
    Computes B K s (hasTag ptr bits) (fun r => [IsBool r (tag &&& bits != 0)]) s :=
  Computes.assertHostPtr_bind hp (Computes.emit1 [IsPtr ptr region (.page page tag)]
    (List.forall_mem_singleton.2 hp) rfl (by nofun) (fun _ _ => rfl) (eval_of_host rfl rfl))

theorem computes_untag {bits : BitVec 8} (hp : IsPtr ptr region (.page page tag) ∈ K) :
    Computes B K s (untagPtr ptr bits) (fun r =>
      [IsPtr r region (.page page (tag &&& ~~~ bits))]) s := by
  refine Computes.assertHostPtr_bind hp (Computes.emit1 [IsPtr ptr region (.page page tag)]
    (List.forall_mem_singleton.2 hp) rfl (by nofun) ?_ (eval_of_host rfl rfl))
  exact fun b hK => bind_eq_ok.2 ⟨.hostPtr region, arenaGet_eq_ok.2 (hK _ hp), rfl⟩

theorem appends_assertHostPtr (ptr : SSAValue) : Appends B (assertHostPtr ptr) :=
  Appends.read fun h => assertHostPtr_ok h

theorem appends_hasTag (ptr : SSAValue) (bits : BitVec 8) : Appends B (hasTag ptr bits) :=
  Appends.bind (appends_assertHostPtr ptr) fun _ => appends_emit1 _

theorem appends_untag (ptr : SSAValue) (bits : BitVec 8) : Appends B (untagPtr ptr bits) :=
  Appends.bind (appends_assertHostPtr ptr) fun _ => appends_emit1 _

/-- The tag of a pointer is the flags of the page, so that a tag test is a test of flags. -/
theorem hasTag_eq (flags other : MemFlags) :
    (flags.setWidth 8 &&& other.setWidth 8 != 0) = flags.containsAny other := by
  have hzero : (flags &&& other).setWidth 8 = 0 ↔ flags &&& other = 0 := by
    rw [← BitVec.toNat_inj, ← BitVec.toNat_inj, BitVec.toNat_setWidth_of_le (by decide)]
    rfl
  rw [← BitVec.setWidth_and]
  unfold MemFlags.containsAny
  rw [Bool.eq_iff_iff, bne_iff_ne, bne_iff_ne]
  exact not_congr hzero

/-- Every flag is one of `MemFlags::ALL`. -/
theorem untag_eq (flags : MemFlags) : flags.setWidth 8 &&& ~~~ ALL_FLAGS.setWidth 8 = 0 := by
  revert flags
  decide

/-! ## The block that records a fault -/

theorem computes_u8 (value : BitVec 8) :
    Computes B K s (iconst (.u8 value)) (fun r => [IsInt r .w8 value]) s :=
  computes_iconst (BitVec.setWidth_setWidth_of_le value (by decide))

theorem computes_storeCtx {offset : ℕ} {value : SSAValue} {ty : TypeFull} {x : Val HostPtr}
    {s' : HostState} (hctx : contextArg ∈ K) (hv : ⟨value, ty, x⟩ ∈ K)
    (hstore : storeHost L s .execContext offset x = some s') :
    Computes B K s (storeCtx offset value) (fun _ => []) s' :=
  computes_storeHost hctx hv hstore

theorem storeHost_vaddr (vaddr : BitVec 64) :
    storeHost L s .execContext L.faultVaddr (.int .w64 vaddr) =
    some { s with currentMemFault := { s.currentMemFault with vaddr } } :=
  if_pos rfl

theorem storeHost_memOp (memOp : MemOp) :
    storeHost L s .execContext L.faultMemOp (.int .w8 (memOpToU8 memOp)) =
      some { s with currentMemFault := { s.currentMemFault with memOp } } := by
  refine (if_pos rfl).trans ?_
  cases memOp <;> rfl

theorem storeHost_trap : storeHost L s .execContext L.faultWasRealMemoryTrap (.int .w8 1) =
    some { s with currentMemFault := { s.currentMemFault with wasRealMemoryTrap := true } } := by
  have hne : L.faultWasRealMemoryTrap ≠ L.faultMemOp := by
    have hnodup := L.fault_nodup
    simp only [List.nodup_cons, List.mem_cons, List.not_mem_nil, or_false, not_or] at hnodup
    exact Ne.symm hnodup.2.1
  exact (if_neg hne).trans (if_pos ⟨rfl, by decide⟩)

/-- The state after the stores of the trap block. -/
def trapState (memOp : MemOp) (vaddr : BitVec 64) (s : HostState) : HostState :=
  { s with currentMemFault := s.currentMemFault.recordInline memOp vaddr }

theorem makes_trapBlock (access : VmAccessKind) (width : IntWidth) (v : SSAValue) :
    Makes (emitReturnTrapBlock L access width v) := by
  refine makes_block (Closes.of_bind (appends_void _) fun _ => ?_)
  refine Closes.of_bind (appends_emit1 _) fun memOpVal =>
    Closes.of_bind (appends_void _) fun _ => ?_
  refine Closes.of_bind (appends_emit1 _) fun trueVal => Closes.of_bind (appends_void _) fun _ => ?_
  exact Closes.of_bind (appends_emit1 _) fun trapValue => closes_returnCode trapValue

theorem makesHalt_trapBlock {access : VmAccessKind} {width : IntWidth} (hctx : contextArg ∈ K)
    (hv : IsInt v .w64 vaddr ∈ K) : MakesHalt K s (emitReturnTrapBlock L access width v)
      (memoryTrap width.bytes) (trapState access.memOp vaddr s) := by
  refine makesHalt_block ?_
  refine (computes_storeCtx hctx hv (storeHost_vaddr vaddr)).bind_finishes (appends_void _) fun _ =>
    ?_
  refine (computes_u8 _).bind_finishes (appends_emit1 _) fun memOpVal => ?_
  refine (computes_storeCtx (List.mem_append_right _ hctx) List.mem_cons_self
    (storeHost_memOp access.memOp)).bind_finishes (appends_void _) fun _ => ?_
  refine (computes_u8 1).bind_finishes (appends_emit1 _) fun trueVal => ?_
  refine (computes_storeCtx (by simp [hctx]) List.mem_cons_self storeHost_trap).bind_finishes
    (appends_void _) fun _ => ?_
  refine (computes_u32 (memoryTrap width.bytes)).bind_finishes (appends_emit1 _) fun trapValue => ?_
  exact finishes_returnCode List.mem_cons_self

/-! ## The raw access -/

theorem computes_vmLoadRaw {p o : SSAValue} {offset : BitVec 64} {width : IntWidth} {seqCst : Bool}
    (hp : IsPtr p region (.page page 0) ∈ K) (ho : IsInt o .w64 offset ∈ K)
    (hin : offset.toNat + width.bytes ≤ PAGE_SIZE) :
    Computes B K s (emit1RetStmt (.vmLoadRaw p o width seqCst))
      (fun r => [IsInt r width (loadLeAt width (s.heap.mem page) offset.toNat)]) s := by
  refine Computes.emit1 [IsPtr p region (.page page 0),
    IsInt o .w64 offset] (forall_mem_pair hp ho) rfl
    (by nofun) (fun _ _ => rfl) (eval_of_host rfl ?_)
  exact congrArg some (if_pos ⟨rfl, hin⟩)

theorem computes_vmStoreRaw {p o value : SSAValue} {offset : BitVec 64} {width : IntWidth}
    {x : BitVec width.bits} {seqCst : Bool} (hp : IsPtr p region (.page page 0) ∈ K)
    (ho : IsInt o .w64 offset ∈ K) (hx : IsInt value width x ∈ K)
    (hin : offset.toNat + width.bytes ≤ PAGE_SIZE) :
    Computes B K s (emitVoidStmt (.vmStoreRaw p o value seqCst)) (fun _ => [])
      { s with heap := storePage s.heap page offset.toNat (toLeBytes x) } := by
  refine Computes.void [IsPtr p region (.page page 0), IsInt o .w64 offset, IsInt value width x]
    (List.forall_mem_cons.2 ⟨hp, forall_mem_pair ho hx⟩) rfl (by nofun) (fun _ _ =>
      rfl) (eval_of_host rfl ?_)
  exact congrArg some (if_pos ⟨rfl, hin⟩)

/-- Marking a page dirty through the entry of the TLB. -/
theorem computes_setDirty {p : SSAValue} {id : PageId}
    (hp : IsPtr p .pageFlags (.pageFlags id) ∈ K) :
    Computes B K s (emitVoidStmt (.setPageDirtyFlag p)) (fun _ => [])
      { s with heap := s.heap.applyOne (.markDirty id) } :=
  Computes.void [IsPtr p .pageFlags (.pageFlags id)] (List.forall_mem_singleton.2 hp) rfl (by nofun)
    (fun _ _ => rfl) (eval_of_host rfl rfl)

theorem loadTlbEntry_flags (entry : Option TlbEntry) :
    loadTlbEntry L entry (.hostPtr .pageFlags) L.mutPageFlags =
      some (.ptr (mutPageFlagsPtr entry)) := by
  unfold loadTlbEntry
  rw [if_neg (by rintro ⟨-, h⟩; cases h), if_neg (by rintro ⟨-, h⟩; cases h),
    if_neg (by rintro ⟨-, h⟩; cases h), if_pos ⟨rfl, rfl⟩]

end Statements

/-! ## Up to the access -/

/-- The test of the permission: the pointer to the page, without its tag. -/
def permissionCode (L : Layout) (access : VmAccessKind) (width : IntWidth)
    (vaddr taggedPagePtr : SSAValue) :
    BuilderM SSAValue := do
  let opAllowed ← hasTag taggedPagePtr (access.requiredPerms.setWidth 8)
  let returnTrapBlock ← emitReturnTrapBlock L access width vaddr
  let _ ← assertOrJmpTo opAllowed true returnTrapBlock
  untagPtr taggedPagePtr (ALL_FLAGS.setWidth 8)

/-- What `vm_access` emits up to the raw access: the pointer to the entry, the tagged pointer to the
    page, the offset in it, and the pointer to the page. -/
def inlineCode (L : Layout) (access : VmAccessKind) (width : IntWidth) (vaddr : SSAValue)
    (fallback : Block) :
    BuilderM (SSAValue × SSAValue × SSAValue × SSAValue) := do
  let (tlbEntryPtr, taggedPagePtr, pageOffset) ← emitTlbLookup L vaddr fallback
  emitAlignmentCheck width vaddr fallback
  let alignedPagePtr ← permissionCode L access width vaddr taggedPagePtr
  return (tlbEntryPtr, taggedPagePtr, pageOffset, alignedPagePtr)

section Inline

variable {L : Layout} {backend : JitBackend}
  {other : StmtKind → List (Val HostPtr) → HostState → Option (List (Val HostPtr) × HostState)}
  {B : Set Block} {K : List (HostFact L backend other)} {s : HostState} {v ptr : SSAValue}
  {vaddr : BitVec 64} {ident : Token} {access : VmAccessKind} {width : IntWidth} {fallback : Block}
  {entry : TlbEntry} {page : Page}

/-- Whether the page grants the permission that is tested. -/
def VmAccessKind.grants (access : VmAccessKind) (page : Page) : Bool :=
  page.flags.containsAny (MemFlags.fromProt access.requiredPerms)

/-- The tagged pointer to a page. -/
def IsPage (v : SSAValue) (page : Page) : HostFact L backend other :=
  IsPtr v .virtualMemory (.page page.ptr (page.flags.setWidth 8))

theorem permission_eq (access : VmAccessKind) (page : Page) :
    (page.flags.setWidth 8 &&& access.requiredPerms.setWidth 8 != 0) = access.grants page := by
  have hwidth : access.requiredPerms.setWidth 8 =
      (MemFlags.fromProt access.requiredPerms).setWidth 8 :=
    (BitVec.setWidth_setWidth (by decide)).symm
  rw [hwidth]
  exact hasTag_eq page.flags _

theorem computes_untagAll (hp : IsPage ptr page ∈ K) :
    Computes B K s (untagPtr ptr (ALL_FLAGS.setWidth 8))
      (fun r => [IsPtr r .virtualMemory (.page page.ptr 0)]) s := by
  rw [← untag_eq page.flags]
  exact computes_untag hp

theorem computes_permission (hp : IsPage ptr page ∈ K) (hctx : contextArg ∈ K)
    (hv : IsInt v .w64 vaddr ∈ K) (hallowed : access.grants page = true) :
    Computes B K s (permissionCode L access width v ptr)
      (fun r => [IsPtr r .virtualMemory (.page page.ptr 0)]) s := by
  refine (computes_hasTag hp).bind fun opAllowed => ?_
  refine (makesHalt_trapBlock (s := s) hctx hv).computes_bind (fun f hf =>
    List.mem_cons_of_mem _ hf) fun block => ?_
  refine (computes_assertBool (Set.mem_insert _ _) List.mem_cons_self
    ((permission_eq access page).trans hallowed)).bind fun _ => ?_
  exact computes_untagAll (List.mem_cons_of_mem _ hp)

theorem halts_permission (hp : IsPage ptr page ∈ K) (hctx : contextArg ∈ K)
    (hv : IsInt v .w64 vaddr ∈ K) (hdenied : access.grants page = false) :
    Halts B K s (permissionCode L access width v ptr) (memoryTrap width.bytes)
      (trapState access.memOp vaddr s) := by
  refine (computes_hasTag hp).bind_halts fun opAllowed => ?_
  refine (makesHalt_trapBlock hctx hv).halts_bind (fun f hf => List.mem_cons_of_mem _ hf)
    fun block => ?_
  have hbool : (page.flags.setWidth 8 &&& access.requiredPerms.setWidth 8 != 0) ≠ true := by
    rw [permission_eq, hdenied]
    exact Bool.false_ne_true
  refine (leaves_assertBool (Set.mem_insert _ _) List.mem_cons_self hbool).bind fun _ => ?_
  exact appends_untag _ _

theorem appends_permission (ptr : SSAValue) : Appends B (permissionCode L access width v ptr) := by
  refine Appends.bind (appends_hasTag _ _) fun opAllowed => ?_
  refine Makes.appends_bind (makes_trapBlock access width v) fun block => ?_
  exact Appends.bind (appends_assert _ _ (Set.mem_insert _ _)) fun _ => appends_untag _ _

/-- The facts of the probe after a hit. -/
def hitFacts (vaddr : BitVec 64) (page : Page) (r : SSAValue × SSAValue × SSAValue × SSAValue) :
    List (HostFact L backend other) :=
  [IsPtr r.1 .tlb (.tlbEntry (probeIndex vaddr)), IsPage r.2.1 page,
    IsInt r.2.2.1 .w64 (vaddr &&& PAGE_OFFSET_MASK),
      IsPtr r.2.2.2 .virtualMemory (.page page.ptr 0)]

section HitFacts

variable {r : SSAValue × SSAValue × SSAValue × SSAValue}

theorem hitFacts_entry : IsPtr r.1 .tlb (.tlbEntry (probeIndex vaddr)) ∈
    (hitFacts vaddr page r : List (HostFact L backend other)) :=
  List.mem_cons_self

theorem hitFacts_page :
    IsPage r.2.1 page ∈ (hitFacts vaddr page r : List (HostFact L backend other)) :=
  List.mem_cons_of_mem _ List.mem_cons_self

theorem hitFacts_offset : IsInt r.2.2.1 .w64 (vaddr &&& PAGE_OFFSET_MASK) ∈
    (hitFacts vaddr page r : List (HostFact L backend other)) :=
  List.mem_cons_of_mem _ (List.mem_cons_of_mem _ List.mem_cons_self)

theorem hitFacts_ptr : IsPtr r.2.2.2 .virtualMemory (.page page.ptr 0) ∈
    (hitFacts vaddr page r : List (HostFact L backend other)) :=
  List.mem_cons_of_mem _ (List.mem_cons_of_mem _ (List.mem_cons_of_mem _ List.mem_cons_self))

end HitFacts

/-- A hit that is aligned and allowed. -/
theorem computes_inline (hargs : HostArgs K v vaddr) (hident : identArg ident ∈ K)
    (hhit : probeHit s.tlb ident vaddr = some entry) (haligned : vaddr.toNat % width.bytes = 0)
    (hallowed : access.grants entry.page = true) :
    Computes {fallback} K s (inlineCode L access width v fallback)
      (hitFacts vaddr entry.page) s := by
  refine (computes_probe hargs.tlb hident hargs.address hhit).bind ?_
  rintro ⟨tlbEntryPtr, taggedPagePtr, pageOffset⟩
  refine (computes_alignment (List.mem_append_right _ hargs.address) haligned).bind fun _ => ?_
  refine (computes_permission (show IsPage taggedPagePtr entry.page ∈ _ from
    List.mem_cons_of_mem _ List.mem_cons_self)
    (List.mem_cons_of_mem _ (List.mem_cons_of_mem _ (List.mem_cons_of_mem _ hargs.context)))
    (List.mem_cons_of_mem _ (List.mem_cons_of_mem _ (List.mem_cons_of_mem _ hargs.address)))
      hallowed).bind fun alignedPagePtr => ?_
  refine Computes.pure fun f hf => ?_
  simp only [hitFacts, List.mem_cons, List.not_mem_nil, or_false] at hf
  rcases hf with rfl | rfl | rfl | rfl
  · exact List.mem_cons_of_mem _ List.mem_cons_self
  · exact List.mem_cons_of_mem _ (List.mem_cons_of_mem _ List.mem_cons_self)
  · exact List.mem_cons_of_mem
      _ (List.mem_cons_of_mem _ (List.mem_cons_of_mem _ List.mem_cons_self))
  · exact List.mem_cons_self

/-- A hit that is aligned and denied. -/
theorem halts_inline (hargs : HostArgs K v vaddr) (hident : identArg ident ∈ K)
    (hhit : probeHit s.tlb ident vaddr = some entry) (haligned : vaddr.toNat % width.bytes = 0)
    (hdenied : access.grants entry.page = false) :
    Halts {fallback} K s (inlineCode L access width v fallback) (memoryTrap width.bytes)
      (trapState access.memOp vaddr s) := by
  refine (computes_probe hargs.tlb hident hargs.address hhit).bind_halts ?_
  rintro ⟨tlbEntryPtr, taggedPagePtr, pageOffset⟩
  refine (computes_alignment (List.mem_append_right _ hargs.address) haligned).bind_halts fun _ =>
    ?_
  refine (halts_permission (show IsPage taggedPagePtr entry.page ∈ _ from
    List.mem_cons_of_mem _ List.mem_cons_self)
    (List.mem_cons_of_mem _ (List.mem_cons_of_mem _ (List.mem_cons_of_mem _ hargs.context)))
    (List.mem_cons_of_mem _ (List.mem_cons_of_mem _ (List.mem_cons_of_mem _ hargs.address)))
      hdenied).bind fun alignedPagePtr => ?_
  exact Appends.pure _

/-- No hit, or one that is not aligned. -/
theorem leaves_inline (hargs : HostArgs K v vaddr) (hident : identArg ident ∈ K)
    (hmiss : probeHit s.tlb ident vaddr = none ∨ vaddr.toNat % width.bytes ≠ 0) :
    Leaves {fallback} K s (inlineCode L access width v fallback) fallback s := by
  cases hhit : probeHit s.tlb ident vaddr with
  | none =>
    refine (leaves_probe hargs.tlb hident hargs.address hhit).bind ?_
    rintro ⟨tlbEntryPtr, taggedPagePtr, pageOffset⟩
    refine Appends.bind (appends_alignment v) fun _ => ?_
    exact Appends.bind (appends_permission _) fun _ => Appends.pure _
  | some entry =>
    have hunaligned : vaddr.toNat % width.bytes ≠ 0 := by
      rcases hmiss with hnone | hunaligned
      · rw [hhit] at hnone
        cases hnone
      · exact hunaligned
    refine (computes_probe hargs.tlb hident hargs.address hhit).bind_leaves ?_
    rintro ⟨tlbEntryPtr, taggedPagePtr, pageOffset⟩
    refine (leaves_alignment (List.mem_append_right _ hargs.address) hunaligned).bind fun _ => ?_
    exact Appends.bind (appends_permission _) fun _ => Appends.pure _

end Inline

end RapidArm.Jit
