import RapidArm.Jit.Join
import RapidArm.Mmu.Hit

/-!
# The inline access and the callbacks

What the code of `vm_access` (`jit-compiler-core/src/ir/mod.rs`, lines 2316–2539) does against the
host function that its fallback calls (`ffi_support.rs`, lines 17–79). Both read the same TLB, so
the entries need not agree with the table.

Results:
* `loadFallback_hit`, `storeFallback_hit`: what the host function does on a hit.
* `vmAccess_agrees`: the code has the outcome of the host function.
-/

namespace RapidArm.Jit

open RapidArm.Ir RapidArm.Lib RapidArm.Backend RapidArm.Mmu RapidArm.Exec ExecIrBuilder

/-! ## The host functions -/

section Callbacks

variable {s s' : HostState} {vaddr : BitVec 64} {width : IntWidth} {page : Page}
  {slot out : StackSlot} {stored : BitVec width.bits}

/-- The hosts differ at most in their scratch slots. -/
def SameHost (s s' : HostState) : Prop := { s with stack := s'.stack } = s'

/-- The page numbers of a TLB are those of pages. -/
def PagesExist (tlb : Tlb) : Prop :=
  ∀ i entry, tlb i = some entry → entry.virtualPageNumber ≤ PageNumber.MAX

/-- A hit of the probe is a hit of the lookup. -/
theorem hit_of_probeHit {mmu : IoMMU} {tlb : Tlb} {entry : TlbEntry} (hpages : PagesExist tlb)
    (h : probeHit tlb mmu.identifier vaddr = some entry) :
    tlb.hit (PageNumber.fromVaddr vaddr) mmu.identifier = some entry.page := by
  obtain ⟨hentry, hident, hpage⟩ := probeHit_eq_some.1 h
  have hmax : entry.virtualPageNumber < 2 ^ 64 :=
    Nat.lt_of_le_of_lt (hpages _ _ hentry) (by rw [MAX_eq]; decide)
  have hnumber : entry.virtualPageNumber = (vaddr.sshiftRight 12).toNat := by
    have heq := congrArg BitVec.toNat hpage
    rw [BitVec.toNat_ofNat, Nat.mod_eq_of_lt hmax] at heq
    exact heq.symm
  have hindex : probeIndex vaddr = (vaddr.sshiftRight 12).toNat % TLB_SIZE := by
    have hmask : TLB_MASK.toNat = 2 ^ 10 - 1 := by decide
    rw [probeIndex, BitVec.toNat_and, hmask, Nat.and_two_pow_sub_one_eq_mod]
    rfl
  refine hit_of_inlineHit hpages ?_
  unfold inlineHit
  dsimp only
  rw [← hindex, hentry]
  exact if_pos ⟨hident, hnumber⟩

/-- A slot that was only used by its calls records every fault. -/
theorem recordFault_total {pending : List (Fault Unit)} (hslot : SlotInv s.currentMemFault pending)
    (memOp : MemOp) (error : MemoryFault) : ∃ s', recordFault s memOp error = some s' := by
  have hset : ∀ reason, ∃ r, s.currentMemFault.setFault memOp error.vaddr reason = some r := by
    intro reason
    cases reason with
    | generalProtection => exact ⟨_, rfl⟩
    | memoryBus e =>
      have hdrop := (hslot.protection memOp error.vaddr).dropBusError
      refine ⟨_, Option.bind_eq_some_iff.2 ⟨_, hdrop, rfl⟩⟩
  unfold recordFault
  cases error.reason with
  | generalProtection =>
    obtain ⟨r, hr⟩ := hset .generalProtection
    exact ⟨_, Option.map_eq_some_iff.2 ⟨r, hr, rfl⟩⟩
  | memoryBus =>
    obtain ⟨r, hr⟩ := hset (.memoryBus ())
    exact ⟨_, Option.map_eq_some_iff.2 ⟨r, hr, rfl⟩⟩

theorem loadFallback_hit
    (hhit : s.tlb.hit (PageNumber.fromVaddr vaddr) s.mmu.identifier = some page)
    (haligned : vaddr.toNat % width.bytes = 0) :
    loadFallback width vaddr out s = some (if page.flags.containsAny MemFlags.READ then
      (true, { s with
        stack := Function.update s.stack out
          (some (.int width (loadLeAt width (s.heap.mem page.ptr) (pageOffset vaddr)))) })
      else (false, trapState .load vaddr s)) := by
  unfold loadFallback
  rw [scalarLoad_hit hhit haligned]
  cases page.flags.containsAny MemFlags.READ <;> rfl

theorem storeFallback_hit
    (hhit : s.tlb.hit (PageNumber.fromVaddr vaddr) s.mmu.identifier = some page)
    (haligned : vaddr.toNat % width.bytes = 0) :
    storeFallback vaddr stored s = some (if page.flags.containsAny MemFlags.WRITE then
      (true, dirtyState page
        { s with heap := storePage s.heap page.ptr (pageOffset vaddr) (toLeBytes stored) })
      else (false, trapState .store vaddr s)) := by
  have hheap :
      s.heap.apply (writeBytes page (pageOffset vaddr) (toLeBytes stored) ++ page.setDirty) =
      (storePage s.heap page.ptr (pageOffset vaddr) (toLeBytes stored)).apply page.setDirty := by
    unfold storePage writeBytes Heap.apply
    rw [List.foldl_append, List.foldl_map, List.foldl_map]
    rfl
  unfold storeFallback
  rw [scalarStore_hit hhit haligned]
  unfold dirtyState
  rw [← hheap]
  cases page.flags.containsAny MemFlags.WRITE <;> rfl

variable (width vaddr out) in
theorem loadFallback_total {pending : List (Fault Unit)}
    (hslot : SlotInv s.currentMemFault pending) :
    ∃ ok s', loadFallback width vaddr out s = some (ok, s') := by
  obtain ⟨tlb, hrun | ⟨f, hrun⟩⟩ := run_cached (faults_scalarLoad s.heap s.mmu width vaddr) s.tlb
  · obtain ⟨value, hrun⟩ := hrun
    unfold loadFallback
    rw [hrun]
    exact ⟨true, _, rfl⟩
  · obtain ⟨s', hs'⟩ := recordFault_total (s := { s with tlb }) hslot .load f
    unfold loadFallback
    rw [hrun]
    exact ⟨false, s', Option.map_eq_some_iff.2 ⟨s', hs', rfl⟩⟩

variable (vaddr stored) in
theorem storeFallback_total {pending : List (Fault Unit)}
    (hslot : SlotInv s.currentMemFault pending) :
    ∃ ok s', storeFallback vaddr stored s = some (ok, s') := by
  obtain ⟨tlb, hrun | ⟨f, hrun⟩⟩ := run_cached (faults_scalarStore s.heap s.mmu vaddr stored) s.tlb
  · obtain ⟨effects, hrun⟩ := hrun
    unfold storeFallback
    rw [hrun]
    exact ⟨true, _, rfl⟩
  · obtain ⟨s', hs'⟩ := recordFault_total (s := { s with tlb }) hslot .store f
    unfold storeFallback
    rw [hrun]
    exact ⟨false, s', Option.map_eq_some_iff.2 ⟨s', hs', rfl⟩⟩

/-- The callback stores the value to the slot it is given, and does nothing else with the slot. -/
theorem loadFallback_slot {ok : Bool} (h : loadFallback width vaddr out s = some (ok, s'))
    (slot : StackSlot) :
    ∃ s'', loadFallback width vaddr slot s = some (ok, s'') ∧ SameHost s'' s' ∧
      (ok = true → ∃ x, s'.stack out = some (.int width x) ∧
        s''.stack slot = some (.int width x)) := by
  unfold loadFallback at h ⊢
  split at h
  · rename_i value tlb hrun
    obtain ⟨rfl, rfl⟩ := Prod.mk.inj (Option.some.inj h)
    exact ⟨_, rfl, rfl, fun _ => ⟨value, Function.update_self _ _ _, Function.update_self _ _ _⟩⟩
  · rename_i error tlb hrun
    obtain ⟨r, hr, heq⟩ := Option.map_eq_some_iff.1 h
    obtain ⟨rfl, rfl⟩ := Prod.mk.inj heq
    refine ⟨r, Option.map_eq_some_iff.2 ⟨r, hr, rfl⟩, rfl, nofun⟩
  · cases h

end Callbacks

/-! ## The parts of the code -/

section Parts

variable {L : Layout} {b b' : ExecIrBuilder} {v value : SSAValue} {width : IntWidth} {acqRel : Bool}
  {r : Option SSAValue}

theorem assertI64_ok {u : Unit} (h : assertI64 v b = .ok (u, b')) :
    b' = b ∧ b.ssaValues[v]? = some (.int .w64) := by
  obtain ⟨w, b₁, hassert, hcheck⟩ := emit_bind_ok.1 h
  obtain ⟨rfl, hty⟩ := assertInt_ok hassert
  obtain ⟨rfl, rfl⟩ := check_ok hcheck
  exact ⟨rfl, hty⟩

/-- The code of an access up to the raw access: the fallback in a block of its own, and what is
    emitted in the current block. -/
structure AccessCode (L : Layout) (access : VmAccessKind) (width : IntWidth) (v : SSAValue)
    (fallback : FallbackAccess) (q : SSAValue × SSAValue × SSAValue × SSAValue)
    (b b₁ b₂ : ExecIrBuilder) : Prop where
  ty : b.ssaValues[v]? = some (.int .w64)
  made : emitHostMemFallback access width v b = .ok (fallback, b₁)
  inline : inlineCode L access width v fallback.block b₁ = .ok (q, b₂)

/-- What the source emits up to the raw access is `inlineCode`. -/
theorem inlineCode_ok {access : VmAccessKind} {block trap : Block} {t p o ap allowed : SSAValue}
    {b₁ b₂ b₃ b₄ b₅ : ExecIrBuilder} {x : Block}
    (hlookup : emitTlbLookup L v block b = .ok ((t, p, o), b₁))
    (halign : emitAlignmentCheck width v block b₁ = .ok ((), b₂))
    (htag : hasTag p (access.requiredPerms.setWidth 8) b₂ = .ok (allowed, b₃))
    (htrap : emitReturnTrapBlock L access width v b₃ = .ok (trap, b₄))
    (htest : assertOrJmpTo allowed true trap b₄ = .ok (x, b₅))
    (huntag : untagPtr p (ALL_FLAGS.setWidth 8) b₅ = .ok (ap, b')) :
    inlineCode L access width v block b = .ok ((t, p, o, ap), b') := by
  have hpermission : permissionCode L access width v p b₂ = .ok (ap, b') :=
    emit_bind_ok.2 ⟨allowed, b₃, htag,
      emit_bind_ok.2 ⟨trap, b₄, htrap, emit_bind_ok.2 ⟨x, b₅, htest, huntag⟩⟩⟩
  exact emit_bind_ok.2 ⟨(t, p, o), b₁, hlookup, emit_bind_ok.2 ⟨(), b₂, halign,
    emit_bind_ok.2 ⟨ap, b', hpermission, rfl⟩⟩⟩

theorem vmAccess_load_ok (h : vmAccess L v (.load width) acqRel b = .ok (r, b')) :
    ∃ fallback q b₁ b₂, AccessCode L (.load width) width v fallback q b b₁ b₂ ∧
      ∀ retFallback, fallback.value = some retFallback → ∃ retNormal b₃ param,
        emit1RetStmt (.vmLoadRaw q.2.2.2 q.2.2.1 width acqRel) b₂ = .ok (retNormal, b₃) ∧
          emitMerge width retNormal retFallback fallback.okBlock b₃ = .ok (param, b') ∧
            r = some param := by
  obtain ⟨_, b₀, hassert, h₁⟩ := emit_bind_ok.1 h
  obtain ⟨hb₀, hty⟩ := assertI64_ok hassert
  obtain ⟨w', b₀', hwidth, h₂⟩ := emit_bind_ok.1 h₁
  obtain ⟨rfl, rfl⟩ := emit_pure_ok.1 hwidth
  obtain ⟨fallback, b₁, hmade, h₃⟩ := emit_bind_ok.1 h₂
  obtain ⟨⟨t, p, o⟩, b₂, hlookup, h₄⟩ := emit_bind_ok.1 h₃
  obtain ⟨_, b₃, halign, h₅⟩ := emit_bind_ok.1 h₄
  obtain ⟨allowed, b₄, htag, h₆⟩ := emit_bind_ok.1 h₅
  obtain ⟨trap, b₅, htrap, h₇⟩ := emit_bind_ok.1 h₆
  obtain ⟨_, b₆, htest, h₈⟩ := emit_bind_ok.1 h₇
  obtain ⟨ap, b₇, huntag, h₉⟩ := emit_bind_ok.1 h₈
  rw [hb₀] at hmade
  refine ⟨fallback, (t, p, o, ap), b₁, b₇,
    ⟨hty, hmade, inlineCode_ok hlookup halign htag htrap htest huntag⟩,
      fun retFallback hvalue => ?_⟩
  simp only [hvalue] at h₉
  obtain ⟨retNormal, b₈, hraw, h₁₀⟩ := emit_bind_ok.1 h₉
  obtain ⟨param, b₉, hmerge, h₁₁⟩ := emit_bind_ok.1 h₁₀
  obtain ⟨rfl, rfl⟩ := emit_pure_ok.1 h₁₁
  exact ⟨retNormal, b₈, param, hraw, hmerge, rfl⟩

theorem vmAccess_store_ok (h : vmAccess L v (.store value) acqRel b = .ok (r, b'))
    (hvalue : b.ssaValues[value]? = some (.int width)) :
    ∃ fallback q b₁ b₂, AccessCode L (.store value) width v fallback q b b₁ b₂ ∧
      (fallback.value = none → ∃ b₃, emitVoidStmt (.vmStoreRaw q.2.2.2 q.2.2.1 value acqRel) b₂ =
        .ok ((), b₃) ∧
        emitDirtyCheck L q.2.1 q.1 fallback.okBlock b₃ = .ok ((), b') ∧ r = none) := by
  obtain ⟨_, b₀, hassert, h₁⟩ := emit_bind_ok.1 h
  obtain ⟨hb₀, hty⟩ := assertI64_ok hassert
  obtain ⟨w', b₀', hwidth, h₂⟩ := emit_bind_ok.1 h₁
  obtain ⟨rfl, hty'⟩ := assertInt_ok (show assertInt value b₀ = .ok (w', b₀') from hwidth)
  rw [hb₀] at hty'
  obtain rfl : width = w' := TypeFull.int.inj (Option.some.inj (hvalue.symm.trans hty'))
  obtain ⟨fallback, b₁, hmade, h₃⟩ := emit_bind_ok.1 h₂
  obtain ⟨⟨t, p, o⟩, b₂, hlookup, h₄⟩ := emit_bind_ok.1 h₃
  obtain ⟨_, b₃, halign, h₅⟩ := emit_bind_ok.1 h₄
  obtain ⟨allowed, b₄, htag, h₆⟩ := emit_bind_ok.1 h₅
  obtain ⟨trap, b₅, htrap, h₇⟩ := emit_bind_ok.1 h₆
  obtain ⟨_, b₆, htest, h₈⟩ := emit_bind_ok.1 h₇
  obtain ⟨ap, b₇, huntag, h₉⟩ := emit_bind_ok.1 h₈
  rw [hb₀] at hmade
  refine ⟨fallback, (t, p, o, ap), b₁, b₇,
    ⟨hty, hmade, inlineCode_ok hlookup halign htag htrap htest huntag⟩, fun hnone => ?_⟩
  simp only [hnone] at h₉
  obtain ⟨_, b₈, hraw, h₁₀⟩ := emit_bind_ok.1 h₉
  obtain ⟨_, b₉, hdirty, h₁₁⟩ := emit_bind_ok.1 h₁₀
  obtain ⟨rfl, rfl⟩ := emit_pure_ok.1 h₁₁
  exact ⟨b₈, hraw, hdirty, rfl⟩

end Parts

/-! ## The three ways -/

section Ways

variable {L : Layout} {backend : JitBackend}
  {other : StmtKind → List (Val HostPtr) → HostState → Option (List (Val HostPtr) × HostState)}
  {K : List (HostFact L backend other)} (halts : ℕ → BitVec 32) {F b b₁ b₂ : ExecIrBuilder}
  {v : SSAValue} {vaddr : BitVec 64} {ident : Token} {access : VmAccessKind} {width : IntWidth}
  {fallback : FallbackAccess} {q : SSAValue × SSAValue × SSAValue × SSAValue}
  {c : Config (hostMachine L backend other)} {entry : TlbEntry} {α : Type} {m : BuilderM α} {a : α}

/-- The run is at code that begins with the inline part of an access. -/
structure AtInline (L : Layout) (K : List (HostFact L backend other)) (access : VmAccessKind)
    (width : IntWidth) (v : SSAValue) (vaddr : BitVec 64) (ident : Token)
    (fallback : FallbackAccess) (q : SSAValue × SSAValue × SSAValue × SSAValue)
    (b₁ b₂ : ExecIrBuilder)
    (c : Config (hostMachine L backend other)) : Prop where
  inline : inlineCode L access width v fallback.block b₁ = .ok (q, b₂)
  exist : Exist {fallback.block} b₁
  place : At b₁ c
  knows : Knows K b₁ c
  args : HostArgs K v vaddr
  ident : identArg ident ∈ K

theorem AtInline.emits (h : AtInline L K access width v vaddr ident fallback q b₁ b₂ c) :
    Emits b₁ b₂ := by
  -- what is emitted does not depend on the host: here it misses
  have hcode : Leaves {fallback.block} K (HostState.new ⟨0, PageTable.new⟩)
      (inlineCode L access width v fallback.block) fallback.block
        (HostState.new ⟨0, PageTable.new⟩) :=
    leaves_inline h.args h.ident (.inl rfl)
  exact hcode.emits h.inline ⟨_, h.place.2⟩ h.exist h.knows.typed

theorem AtInline.granted (h : AtInline L K access width v vaddr ident fallback q b₁ b₂ c)
    (hF : Emitted Set.univ b₂ F)
    (hhit : probeHit c.world.tlb ident vaddr = some entry)
    (haligned : vaddr.toNat % width.bytes = 0) (hallowed : access.grants entry.page = true) :
    ∃ c', Follows backend halts F b₁ c b₂ c' ∧ Knows (hitFacts vaddr entry.page q) b₂ c' ∧
      c'.world = c.world :=
  (computes_inline h.args h.ident hhit haligned hallowed).runs h.inline h.exist backend halts F hF
    h.place h.knows rfl

theorem AtInline.denied (h : AtInline L K access width v vaddr ident fallback q b₁ b₂ c)
    (hF : Emitted Set.univ b₂ F)
    (hhit : probeHit c.world.tlb ident vaddr = some entry)
    (haligned : vaddr.toNat % width.bytes = 0) (hdenied : access.grants entry.page = false) :
    HaltsWith backend halts F c (memoryTrap width.bytes) (trapState access.memOp vaddr c.world) :=
  (halts_inline h.args h.ident hhit haligned hdenied).runs h.inline h.exist backend halts F hF
    h.place h.knows rfl

theorem AtInline.leaves (h : AtInline L K access width v vaddr ident fallback q b₁ b₂ c)
    (hF : Emitted Set.univ b₂ F)
    (hmiss : probeHit c.world.tlb ident vaddr = none ∨ vaddr.toNat % width.bytes ≠ 0) :
    ∃ c', Jumps backend halts F b₁ c fallback.block c' ∧ c'.world = c.world :=
  (leaves_inline h.args h.ident hmiss).runs h.inline h.exist backend halts F hF h.place h.knows rfl

/-- The run is in the code of an access, with the fallback in a block of its own. -/
theorem AtInline.of_own (hown : OwnBlock m a b b₁ fallback.block fallback.okBlock)
    (hinline : inlineCode L access width v fallback.block b₁ = .ok (q, b₂))
    (hat : At b c) (hK : Knows K b c) (hargs : HostArgs K v vaddr) (hident : identArg ident ∈ K) :
    (∀ {f : HostFact L backend other}, f.Holds b c → f.Holds b₁ c) ∧
      AtInline L K access width v vaddr ident fallback q b₁ b₂ c := by
  have hfollow := @Follows.of_makes _ _ _ _ backend (fun _ => 0) b₁ hat hown.emitted hown.current
  refine ⟨hfollow.facts, hinline, ?_, hfollow.at', hfollow.knows hK, hargs, hident⟩
  rintro block rfl
  exact ⟨hown.ne_entry, hown.params⟩

/-- The end of the fallback is still open after the inline part, where it was. -/
theorem AtInline.okBlock (h : AtInline L K access width v vaddr ident fallback q b₁ b₂ c)
    (hat : At b c) (hown : OwnBlock m a b b₁ fallback.block fallback.okBlock) {b₃ : ExecIrBuilder}
    (he : Emits b₂ b₃) :
    ∃ k, OpenBlock b₁ fallback.okBlock k ∧ OpenBlock b₃ fallback.okBlock k ∧
      fallback.okBlock ≠ b₃.currentBlock := by
  obtain ⟨k, hopen⟩ := hown.isOpen
  have hemits := h.emits.trans he
  have hlt : b.currentBlock < b.blocks.length := hat.2.lt
  have hne : fallback.okBlock ≠ b₁.currentBlock := by
    rw [hown.current]
    exact Nat.ne_of_gt (Nat.lt_of_lt_of_le hlt hown.isNew)
  refine ⟨k, hopen, hemits.emitted.openBlock hopen hne, ?_⟩
  rcases hemits.current with heq | hge
  · rw [heq]
    exact hne
  · exact Nat.ne_of_lt (Nat.lt_of_lt_of_le hopen.lt hge)

end Ways

/-! ## Agreement -/

section Agreement

/-- The host function that the fallback of an access calls. A load stores its value to `out`. -/
def VmAccessKind.hostFunction (access : VmAccessKind) {width : IntWidth}
    (stored : BitVec width.bits)
    (vaddr : BitVec 64) (out : StackSlot) (s : HostState) : Option (Bool × HostState) :=
  match access with
  | .load _ => loadFallback width vaddr out s
  | .store _ => storeFallback vaddr stored s

/-- What an access yields after the host function. -/
def VmAccessKind.result (access : VmAccessKind) (out : StackSlot) (s : HostState) :
    Option (Val HostPtr) :=
  match access with
  | .load _ => s.stack out
  | .store _ => none

variable {L : Layout} {backend : JitBackend}
  {other : StmtKind → List (Val HostPtr) → HostState → Option (List (Val HostPtr) × HostState)}

/-- The run from `c` ends as the host function did: with its result at the end of the access, or
    with the halt reason of a memory trap. -/
def EndsAs (access : VmAccessKind) (width : IntWidth) (halts : ℕ → BitVec 32)
    (F b b' : ExecIrBuilder) (r : Option SSAValue) (c : Config (hostMachine L backend other))
    (out : StackSlot) :
    Bool × HostState → Prop
  | (true, s') => ∃ c', Follows backend halts F b c b' c' ∧ SameHost c'.world s' ∧
      r.map c'.env = access.result out s'
  | (false, s') => ∃ s'', HaltsWith backend halts F c (memoryTrap width.bytes) s'' ∧ SameHost s'' s'

/-- A run is at a place where an access of `vaddr` was emitted. -/
structure AccessSite (F b b' : ExecIrBuilder) (v : SSAValue) (access : VmAccessKind) (acqRel : Bool)
    (r : Option SSAValue) {width : IntWidth} (stored : BitVec width.bits) (vaddr : BitVec 64)
    (c : Config (hostMachine L backend other)) : Prop where
  built : Built b
  emit : vmAccess L v access acqRel b = .ok (r, b')
  final : Emitted Set.univ b' F
  place : At b c
  address : c.env v = Val.int .w64 vaddr
  operand : access = .load width ∨ ∃ value, access = .store value ∧
    b.ssaValues[value]? = some (.int width) ∧ c.env value = Val.int width stored
  ioMMU : c.env Arg.ioMMU.asSSAValue = Val.ptr .ioMMU
  ident : c.env Arg.ioMMUIdentifier.asSSAValue = Val.ptr (.ident c.world.mmu.identifier)
  tlb : c.env Arg.tlb.asSSAValue = Val.ptr .tlb
  context : c.env Arg.execContext.asSSAValue = Val.ptr .execContext

/-- What the code of an access is run with. -/
def accessFacts (v : SSAValue) (vaddr : BitVec 64) (ident : Token) :
    List (HostFact L backend other) :=
  [ioMMUArg, tlbArg, contextArg, identArg ident, IsInt v .w64 vaddr]

variable {K : List (HostFact L backend other)} (halts : ℕ → BitVec 32)
  {F b b' b₁ b₂ : ExecIrBuilder} {v value : SSAValue} {vaddr : BitVec 64} {access : VmAccessKind}
  {acqRel : Bool} {r : Option SSAValue} {width : IntWidth} {stored : BitVec width.bits}
  {out : StackSlot} {pending : List (Fault Unit)} {c : Config (hostMachine L backend other)}
  {ident : Token} {fallback : FallbackAccess} {q : SSAValue × SSAValue × SSAValue × SSAValue}

theorem hostArgs_accessFacts :
    HostArgs (accessFacts v vaddr ident : List (HostFact L backend other)) v vaddr :=
  ⟨by simp [accessFacts], by simp [accessFacts], by simp [accessFacts], by simp [accessFacts]⟩

theorem ident_mem :
    identArg ident ∈ (accessFacts v vaddr ident : List (HostFact L backend other)) := by
  simp [accessFacts]

theorem AccessSite.knows (h : AccessSite F b b' v access acqRel r stored vaddr c)
    (hty : b.ssaValues[v]? = some (.int .w64)) :
    Knows (accessFacts v vaddr c.world.mmu.identifier) b c := by
  intro f hf
  simp only [accessFacts, List.mem_cons, List.not_mem_nil, or_false] at hf
  rcases hf with rfl | rfl | rfl | rfl | rfl
  · exact ⟨arg_ty_of_built h.built .ioMMU, h.ioMMU⟩
  · exact ⟨arg_ty_of_built h.built .tlb, h.tlb⟩
  · exact ⟨arg_ty_of_built h.built .execContext, h.context⟩
  · exact ⟨arg_ty_of_built h.built .ioMMUIdentifier, h.ident⟩
  · exact ⟨hty, h.address⟩

theorem inside_of_aligned (haligned : vaddr.toNat % width.bytes = 0) :
    (vaddr &&& PAGE_OFFSET_MASK).toNat + width.bytes ≤ PAGE_SIZE := by
  rw [pageOffset_bits]
  have hcross : ¬ width.bytes > PAGE_SIZE - pageOffset vaddr := not_crosses_of_aligned haligned
  have hlt := pageOffset_lt vaddr
  omega

/-! ### Loads -/

/-- A load whose inline part is done, on a page that grants it. -/
theorem load_inline {retNormal retFallback param : SSAValue} {b₃ : ExecIrBuilder}
    {page : Page} {n k : ℕ} {c₂ : Config (hostMachine L backend other)}
    (hraw : emit1RetStmt (.vmLoadRaw q.2.2.2 q.2.2.1 width acqRel) b₂ = .ok (retNormal, b₃))
    (hmerged : Merged width retNormal retFallback param fallback.okBlock n k b₃ b')
    (hF : Emitted Set.univ b' F) (hopen : OpenBlock b₃ b₃.currentBlock n) (hat : At b₂ c₂)
    (hK : Knows (hitFacts vaddr page q) b₂ c₂) (haligned : vaddr.toNat % width.bytes = 0) :
    ∃ c', Follows backend halts F b₂ c₂ b' c' ∧ c'.world = c₂.world ∧
      c'.env param = Val.int width
        (loadLeAt width (c₂.world.heap.mem page.ptr) (pageOffset vaddr)) := by
  have hcode : Computes ∅ (hitFacts vaddr page q) c₂.world
      (emit1RetStmt (.vmLoadRaw q.2.2.2 q.2.2.1 width acqRel)) _ c₂.world :=
    computes_vmLoadRaw hitFacts_ptr hitFacts_offset (inside_of_aligned haligned)
  have hF₃ : Emitted Set.univ b₃ F := hmerged.emitted.trans hF fun _ _ _ => Set.mem_univ _
  obtain ⟨c₃, hfollow, hknow, hworld⟩ :=
    hcode.runs hraw (fun _ hmem => hmem.elim) backend halts F hF₃ hat hK rfl
  have hpc : c₃.pc = n := hfollow.at'.2.length_unique hopen
  obtain ⟨c', hfollow', hparam, hworld'⟩ := hmerged.reaches hF hmerged.normal hfollow.at'.1 hpc
  refine ⟨c', hfollow.trans hfollow', hworld'.trans hworld, hparam.trans ?_⟩
  have hval := (hknow _ List.mem_cons_self).2
  rw [pageOffset_bits] at hval
  exact hval

/-- A load in the block of the fallback ends as the host function did. -/
theorem load_fallback {slot : StackSlot} {x retNormal param : SSAValue}
    {b₃ : ExecIrBuilder} {n k : ℕ} {c₂ : Config (hostMachine L backend other)}
    (hown : OwnBlock (loadCode slot width v) x b b₁ fallback.block fallback.okBlock)
    (hmerged : Merged width retNormal x param fallback.okBlock n k b₃ b')
    (he : Emitted Set.univ b₁ b₃) (hF : Emitted Set.univ b' F)
    (hopen : OpenBlock b₁ fallback.okBlock k) (hblock : c₂.block = fallback.block) (hpc : c₂.pc = 0)
    (hK : Knows K b c₂) (hargs : HostArgs K v vaddr)
    (hslot : SlotInv c₂.world.currentMemFault pending) :
    ∃ result, loadFallback width vaddr out c₂.world = some result ∧
      EndsAs (.load width) width halts F b b' (some param) c₂ out result := by
  obtain ⟨ok, s', hrun⟩ := loadFallback_total vaddr width out hslot
  obtain ⟨s'', hrun', hsame, hvalue⟩ := loadFallback_slot hrun slot
  refine ⟨(ok, s'), hrun, ?_⟩
  have hF₃ : Emitted Set.univ b₃ F := hmerged.emitted.trans hF fun _ _ _ => Set.mem_univ _
  have hF₁ : Emitted Set.univ b₁ F := he.trans hF₃ fun _ _ _ => Set.mem_univ _
  cases ok with
  | false =>
    exact ⟨s'', hown.returns (halts_loadCode hargs hrun') hF₁ hblock hpc hK rfl, hsame⟩
  | true =>
    obtain ⟨y, hout, hstored⟩ := hvalue rfl
    obtain ⟨c₃, hreach, hblock₃, hopen₃, hknow, hkeep, hworld⟩ :=
      hown.computes halts (computes_loadCode hargs hrun' hstored) hF₁ hblock hpc hK rfl
    obtain ⟨c', hfollow, hparam, hworld'⟩ :=
      hmerged.reaches hF hmerged.fallback hblock₃ (hopen₃.length_unique hopen)
    refine ⟨c', ⟨hreach.trans hfollow.reaches, hfollow.at', fun hf => hfollow.facts ?_⟩, ?_, ?_⟩
    · have hf₁ := hkeep hf
      exact ⟨getElem?_of_isPrefix he.ssaValues hf₁.1, hf₁.2⟩
    · rw [hworld', hworld]
      exact hsame
    · show some (c'.env param) = s'.stack out
      rw [hparam, hout]
      exact congrArg some (hknow _ List.mem_cons_self).2

/-- A run that ends in this way after it got here. -/
theorem EndsAs.of_reaches {c₁ : Config (hostMachine L backend other)} {result : Bool × HostState}
    (hreach : Reaches (hostMachine L backend other) backend halts F c c₁)
    (hkeep : ∀ {f : HostFact L backend other}, f.Holds b c → f.Holds b₁ c₁)
    (h : EndsAs access width halts F b₁ b' r c₁ out result) :
    EndsAs access width halts F b b' r c out result := by
  obtain ⟨_ | _, s'⟩ := result
  · obtain ⟨s'', hhalts, hsame⟩ := h
    exact ⟨s'', HaltsWith.of_reaches hreach hhalts, hsame⟩
  · obtain ⟨c', hfollow, hsame, hresult⟩ := h
    exact ⟨c', ⟨hreach.trans hfollow.reaches, hfollow.at', fun hf => hfollow.facts (hkeep hf)⟩,
      hsame, hresult⟩

theorem load_agrees (h : AccessSite F b b' v (.load width) acqRel r stored vaddr c)
    (hpages : PagesExist c.world.tlb) (hslot : SlotInv c.world.currentMemFault pending) :
    ∃ result, loadFallback width vaddr out c.world = some result ∧
      EndsAs (.load width) width halts F b b' r c out result := by
  obtain ⟨fallback, q, b₁, b₂, hcode, hend⟩ := vmAccess_load_ok h.emit
  obtain ⟨slot, x, hx, hown⟩ := fallback_load ⟨_, h.place.2⟩ hcode.made
  obtain ⟨retNormal, b₃, param, hraw, hmerge, rfl⟩ := hend x hx
  have hK := h.knows hcode.ty
  obtain ⟨hkeep, hinline⟩ :=
    AtInline.of_own hown hcode.inline h.place hK hostArgs_accessFacts ident_mem
  have hemits := Emits.stmt1 hraw hinline.emits.isOpen
  obtain ⟨k, hok, hok₃, hne⟩ := hinline.okBlock h.place hown hemits
  obtain ⟨n, hopen₃⟩ := hemits.isOpen
  have hmerged := emitMerge_spec hmerge hopen₃ hok₃ hne
  have hF₂ := hemits.final (hmerged.emitted.trans h.final fun _ _ _ => Set.mem_univ _)
  by_cases hmiss : probeHit c.world.tlb c.world.mmu.identifier vaddr = none ∨
    vaddr.toNat % width.bytes ≠ 0
  · obtain ⟨c₂, hjump, hworld⟩ := hinline.leaves halts hF₂ hmiss
    have hkeep₂ : ∀ {f : HostFact L backend other}, f.Holds b c → f.Holds b c₂ :=
      fun hf => ⟨hf.1, hjump.values (hkeep hf)⟩
    have hemits₃ := (hinline.emits.trans hemits).emitted.mono (Set.subset_univ _)
    obtain ⟨result, hrun, hends⟩ := load_fallback halts hown hmerged hemits₃ h.final hok hjump.block
      hjump.pc (fun f hf => hkeep₂ (hK f hf)) hostArgs_accessFacts (hworld ▸ hslot)
    rw [hworld] at hrun
    exact ⟨result, hrun, hends.of_reaches halts hjump.reaches hkeep₂⟩
  · rw [not_or, not_not] at hmiss
    obtain ⟨hsome, haligned⟩ := hmiss
    obtain ⟨entry, hhit⟩ := Option.ne_none_iff_exists'.1 hsome
    refine ⟨_, loadFallback_hit (hit_of_probeHit hpages hhit) haligned, ?_⟩
    cases hgrants : entry.page.flags.containsAny MemFlags.READ with
    | false => exact ⟨_, hinline.denied halts hF₂ hhit haligned hgrants, rfl⟩
    | true =>
      obtain ⟨c₂, hfollow₂, hknow, hworld⟩ := hinline.granted halts hF₂ hhit haligned hgrants
      obtain ⟨c', hfollow₃, hworld', hvalue⟩ :=
        load_inline halts hraw hmerged h.final hopen₃ hfollow₂.at' hknow haligned
      have hfollow := hfollow₂.trans hfollow₃
      refine ⟨c', ⟨hfollow.reaches, hfollow.at', fun hf => hfollow.facts (hkeep hf)⟩, ?_, ?_⟩
      · rw [hworld', hworld]
        rfl
      · refine (congrArg some hvalue).trans ?_
        rw [hworld]
        exact (Function.update_self out (some (Val.int width _)) c.world.stack).symm

/-! ### Stores -/

/-- What the code of a store is run with. -/
def storeFacts (value : SSAValue) (stored : BitVec width.bits) (v : SSAValue) (vaddr : BitVec 64)
    (ident : Token) :
    List (HostFact L backend other) :=
  IsInt value width stored :: accessFacts v vaddr ident

theorem hostArgs_storeFacts :
    HostArgs (storeFacts value stored v vaddr ident : List (HostFact L backend other)) v vaddr :=
  hostArgs_accessFacts.mono fun _ hf => List.mem_cons_of_mem _ hf

variable {must : SSAValue} {check : Block} {b₃ d₁ d₂ d₃ d₄ : ExecIrBuilder} {k : ℕ}

/-- A store whose inline part is done, on a page that grants it. -/
theorem store_inline {entry : TlbEntry} {c₂ : Config (hostMachine L backend other)}
    (hraw : emitVoidStmt (.vmStoreRaw q.2.2.2 q.2.2.1 value acqRel) b₂ = .ok ((), b₃))
    (hchecked : DirtyChecked L q.2.1 q.1 fallback.okBlock k must check b₃ d₁ d₂ d₃ d₄ b')
    (hF : Emitted Set.univ b' F) (hat : At b₂ c₂) (hK : Knows (hitFacts vaddr entry.page q) b₂ c₂)
    (hvalue : Fact.Holds (IsInt value width stored) b₂ c₂)
    (haligned : vaddr.toNat % width.bytes = 0)
    (hentry : c₂.world.tlb (probeIndex vaddr) = some entry) :
    ∃ c', Follows backend halts F b₂ c₂ b' c' ∧ c'.world = dirtyState entry.page { c₂.world with
      heap := storePage c₂.world.heap entry.page.ptr (pageOffset vaddr) (toLeBytes stored) } := by
  have hcode : Computes ∅ (IsInt value width stored :: hitFacts vaddr entry.page q) c₂.world
      (emitVoidStmt (.vmStoreRaw q.2.2.2 q.2.2.1 value acqRel)) _ _ :=
    computes_vmStoreRaw (List.mem_cons_of_mem _ hitFacts_ptr)
      (List.mem_cons_of_mem _ hitFacts_offset)
      List.mem_cons_self (inside_of_aligned haligned)
  have hK₂ : Knows (IsInt value width stored :: hitFacts vaddr entry.page q) b₂ c₂ := by
    intro f hf
    rcases List.mem_cons.1 hf with rfl | hf
    · exact hvalue
    · exact hK f hf
  have hF₃ : Emitted Set.univ b₃ F := hchecked.emitted.trans hF fun _ _ _ => Set.mem_univ _
  obtain ⟨c₃, hfollow, -, hworld⟩ :=
    hcode.runs hraw (fun _ hmem => hmem.elim) backend halts F hF₃ hat hK₂ rfl
  have hentry₃ : c₃.world.tlb (probeIndex vaddr) = some entry := by
    rw [hworld]
    exact hentry
  obtain ⟨c', hfollow', hworld'⟩ := hchecked.inline halts hF hfollow.at'
    (fun f hf => hfollow.facts (hK f hf)) hitFacts_page hitFacts_entry hentry₃
  refine ⟨c', hfollow.trans hfollow', hworld'.trans ?_⟩
  rw [hworld, pageOffset_bits]

/-- A store in the block of the fallback ends as the host function did. -/
theorem store_fallback {c₂ : Config (hostMachine L backend other)}
    (hown : OwnBlock (storeCode value width v) () b b₁ fallback.block fallback.okBlock)
    (hchecked : DirtyChecked L q.2.1 q.1 fallback.okBlock k must check b₃ d₁ d₂ d₃ d₄ b')
    (he : Emitted Set.univ b₁ b₃) (hF : Emitted Set.univ b' F)
    (hopen : OpenBlock b₁ fallback.okBlock k) (hblock : c₂.block = fallback.block) (hpc : c₂.pc = 0)
    (hK : Knows K b c₂) (hargs : HostArgs K v vaddr) (hvalue : IsInt value width stored ∈ K)
    (hslot : SlotInv c₂.world.currentMemFault pending) :
    ∃ result, storeFallback vaddr stored c₂.world = some result ∧
      EndsAs (.store value) width halts F b b' none c₂ out result := by
  obtain ⟨ok, s', hrun⟩ := storeFallback_total vaddr stored hslot
  refine ⟨(ok, s'), hrun, ?_⟩
  have hF₃ : Emitted Set.univ b₃ F := hchecked.emitted.trans hF fun _ _ _ => Set.mem_univ _
  have hF₁ : Emitted Set.univ b₁ F := he.trans hF₃ fun _ _ _ => Set.mem_univ _
  cases ok with
  | false => exact ⟨s', hown.returns (halts_storeCode hargs hvalue hrun) hF₁ hblock hpc hK rfl, rfl⟩
  | true =>
    obtain ⟨c₃, hreach, hblock₃, hopen₃, -, hkeep, hworld⟩ :=
      hown.computes halts (computes_storeCode hargs hvalue hrun) hF₁ hblock hpc hK rfl
    obtain ⟨c', hfollow, hworld'⟩ :=
      hchecked.fallback_reaches halts hF hblock₃ (hopen₃.length_unique hopen)
    refine ⟨c', ⟨hreach.trans hfollow.reaches, hfollow.at', fun hf => hfollow.facts ?_⟩, ?_, rfl⟩
    · have hf₁ := hkeep hf
      exact ⟨getElem?_of_isPrefix he.ssaValues hf₁.1, hf₁.2⟩
    · rw [hworld', hworld]
      rfl

theorem store_agrees (h : AccessSite F b b' v (.store value) acqRel r stored vaddr c)
    (hty : b.ssaValues[value]? = some (.int width)) (hvalue : c.env value = Val.int width stored)
    (hpages : PagesExist c.world.tlb) (hslot : SlotInv c.world.currentMemFault pending) :
    ∃ result, storeFallback vaddr stored c.world = some result ∧
      EndsAs (.store value) width halts F b b' r c out result := by
  obtain ⟨fallback, q, b₁, b₂, hcode, hend⟩ := vmAccess_store_ok h.emit hty
  obtain ⟨hnone, hown⟩ := fallback_store ⟨_, h.place.2⟩ hcode.made
  obtain ⟨b₃, hraw, hdirty, rfl⟩ := hend hnone
  have hK : Knows (storeFacts value stored v vaddr c.world.mmu.identifier) b c := by
    intro f hf
    rcases List.mem_cons.1 hf with rfl | hf
    · exact ⟨hty, hvalue⟩
    · exact h.knows hcode.ty f hf
  obtain ⟨hkeep, hinline⟩ :=
    AtInline.of_own hown hcode.inline h.place hK hostArgs_storeFacts
      (List.mem_cons_of_mem _ ident_mem)
  have hemits := Emits.void hraw hinline.emits.isOpen
  obtain ⟨k, hok, hok₃, hne⟩ := hinline.okBlock h.place hown hemits
  obtain ⟨must, check, d₁, d₂, d₃, d₄, hchecked⟩ :=
    emitDirtyCheck_spec hdirty hemits.isOpen hok₃ hne
  have hF₂ := hemits.final (hchecked.emitted.trans h.final fun _ _ _ => Set.mem_univ _)
  by_cases hmiss : probeHit c.world.tlb c.world.mmu.identifier vaddr = none ∨
    vaddr.toNat % width.bytes ≠ 0
  · obtain ⟨c₂, hjump, hworld⟩ := hinline.leaves halts hF₂ hmiss
    have hkeep₂ : ∀ {f : HostFact L backend other}, f.Holds b c → f.Holds b c₂ :=
      fun hf => ⟨hf.1, hjump.values (hkeep hf)⟩
    have hemits₃ := (hinline.emits.trans hemits).emitted.mono (Set.subset_univ _)
    obtain ⟨result, hrun, hends⟩ :=
      store_fallback halts hown hchecked hemits₃ h.final hok hjump.block
      hjump.pc (fun f hf => hkeep₂ (hK f hf)) hostArgs_storeFacts List.mem_cons_self
        (hworld ▸ hslot)
    rw [hworld] at hrun
    exact ⟨result, hrun, hends.of_reaches halts hjump.reaches hkeep₂⟩
  · rw [not_or, not_not] at hmiss
    obtain ⟨hsome, haligned⟩ := hmiss
    obtain ⟨entry, hhit⟩ := Option.ne_none_iff_exists'.1 hsome
    refine ⟨_, storeFallback_hit (hit_of_probeHit hpages hhit) haligned, ?_⟩
    cases hgrants : entry.page.flags.containsAny MemFlags.WRITE with
    | false => exact ⟨_, hinline.denied halts hF₂ hhit haligned hgrants, rfl⟩
    | true =>
      obtain ⟨c₂, hfollow₂, hknow, hworld⟩ := hinline.granted halts hF₂ hhit haligned hgrants
      have hentry : c₂.world.tlb (probeIndex vaddr) = some entry := by
        rw [hworld]
        exact (probeHit_eq_some.1 hhit).1
      obtain ⟨c', hfollow₃, hworld'⟩ := store_inline halts hraw hchecked h.final hfollow₂.at' hknow
        (hfollow₂.facts (hkeep ⟨hty, hvalue⟩)) haligned hentry
      have hfollow := hfollow₂.trans hfollow₃
      refine ⟨c', ⟨hfollow.reaches, hfollow.at', fun hf => hfollow.facts (hkeep hf)⟩, ?_, rfl⟩
      rw [hworld', hworld]
      rfl

/-- The code of an access ends as the host function of its fallback does: with the value it loads,
    the memory, the dirty flags, the TLB and the fault that it leaves, and with the halt reason of a
    memory trap exactly where it fails. -/
theorem vmAccess_agrees (h : AccessSite F b b' v access acqRel r stored vaddr c)
    (hpages : PagesExist c.world.tlb) (hslot : SlotInv c.world.currentMemFault pending) :
    ∃ result, access.hostFunction stored vaddr out c.world = some result ∧
      EndsAs access width halts F b b' r c out result := by
  rcases h.operand with rfl | ⟨value, rfl, hty, hvalue⟩
  · exact load_agrees halts h hpages hslot
  · exact store_agrees halts h hty hvalue hpages hslot

end Agreement

/-! ### A store -/

/-- A host whose TLB holds the first page, which can be read and written. -/
def readWriteHost : HostState :=
  { HostState.new ⟨0, PageTable.new⟩ with
    tlb := Tlb.new.updateEntry 0 0 ⟨.alloc 0, MemFlags.READ ||| MemFlags.WRITE, 0⟩ }

/-- A run that stands past two constants, at a store of 7 to the address 8. -/
def storeConfig (L : Layout) (backend : JitBackend)
    (other : StmtKind → List (Val HostPtr) → HostState → Option (List (Val HostPtr) × HostState)) :
    Config (hostMachine L backend other) where
  block := Block.ENTRYPOINT
  pc := 2
  env v := if v = 7 then Val.int .w32 7 else if v = 6 then Val.int .w64 8
    else if v = Arg.ioMMU.asSSAValue then Val.ptr .ioMMU
    else if v = Arg.tlb.asSSAValue then Val.ptr .tlb
    else if v = Arg.execContext.asSSAValue then Val.ptr .execContext else Val.ptr (.ident 0)
  world := readWriteHost
  reads := 0

theorem emit_store :
    ∃ b', vmAccess Layout.inOrder 6 (.store 7) false (twoConstants (.u64 8) (.u32 7)) =
    .ok (none, b') := by
  have hrun :
      (vmAccess Layout.inOrder 6 (.store 7) false (twoConstants (.u64 8) (.u32 7))).toOption.map
      Prod.fst = some none := by
    decide +kernel
  obtain ⟨⟨r, b'⟩, hok, rfl⟩ := Option.map_eq_some_iff.1 hrun
  cases hemit : vmAccess Layout.inOrder 6 (.store 7) false (twoConstants (.u64 8) (.u32 7)) with
  | ok result =>
    rw [hemit] at hok
    exact ⟨b', congrArg Except.ok (Option.some.inj hok)⟩
  | error e =>
    rw [hemit] at hok
    cases hok

theorem pagesExist_readWriteHost : PagesExist readWriteHost.tlb := by
  intro i entry hentry
  have hupdate : Function.update Tlb.new (Tlb.index 0)
      (some ⟨0, 0, ⟨.alloc 0, MemFlags.READ ||| MemFlags.WRITE, 0⟩⟩) i = some entry := hentry
  by_cases hi : i = Tlb.index 0
  · rw [hi, Function.update_self] at hupdate
    obtain rfl := Option.some.inj hupdate
    exact Nat.zero_le _
  · rw [Function.update_of_ne hi] at hupdate
    cases hupdate

theorem vmAccess_agrees_store : ∃ b', ∃ result,
    storeFallback (8 : BitVec 64) (show BitVec IntWidth.w32.bits from 7) readWriteHost =
      some result ∧
      EndsAs (.store 7) .w32 (fun _ => 0) b' (twoConstants (.u64 8) (.u32 7)) b' none
        (storeConfig Layout.inOrder .gcc fun _ _ _ => none) 0 result := by
  obtain ⟨b', hemit⟩ := emit_store
  have hsite : AccessSite b' (twoConstants (.u64 8) (.u32 7)) b' 6 (.store 7) false none
      (show BitVec IntWidth.w32.bits from
        7) 8 (storeConfig Layout.inOrder .gcc fun _ _ _ => none) :=
    { built := built_twoConstants _ _
      emit := hemit
      final := Emitted.refl b'
      place := ⟨rfl, _, rfl, rfl, rfl⟩
      address := rfl
      operand := .inr ⟨7, rfl, rfl, rfl⟩
      ioMMU := rfl
      ident := rfl
      tlb := rfl
      context := rfl }
  exact ⟨b', vmAccess_agrees (fun _ => 0) hsite pagesExist_readWriteHost slotInv_new⟩

end RapidArm.Jit
