import RapidArm.Jit.Shifts
import RapidArm.Jit.VmAccess
import RapidArm.Mmu.Fill

/-!
# The inline probe of the TLB

The probe that `vm_access` emits (`jit-compiler-core/src/ir/mod.rs`, lines 2328–2384) against
`Tlb::lookup` (`emu-abi/src/memory.rs`, lines 674–713). The probe takes the page number from the
address by a shift that extends the sign, `PageNumber::from_vaddr` by one that does not.

Results:
* `computes_probe`, `leaves_probe`: when the emitted code hits, and when it jumps to the fallback.
* `probe_is_lookup_iff`: the probe is the lookup exactly at the addresses below `2 ^ 63`.
-/

namespace RapidArm.Jit

open RapidArm.Ir RapidArm.Lib RapidArm.Backend RapidArm.Mmu ExecIrBuilder

/-! ## The entry that is probed -/

/-- The page number that the probe computes. -/
def probePageNumber (vaddr : BitVec 64) : BitVec 64 := vaddr.sshiftRight 12

/-- The index of the entry that is probed. -/
def probeIndex (vaddr : BitVec 64) : ℕ := (probePageNumber vaddr &&& TLB_MASK).toNat

/-- The entry on which the probe hits: it is of this MMU, and holds this page number. -/
def probeHit (tlb : Tlb) (ident : Token) (vaddr : BitVec 64) : Option TlbEntry :=
  match tlb (probeIndex vaddr) with
  | some entry =>
    if entry.ioMmuIdent = ident ∧
      probePageNumber vaddr = BitVec.ofNat 64 entry.virtualPageNumber then
      some entry
    else none
  | none => none

theorem probeIndex_lt (vaddr : BitVec 64) : probeIndex vaddr < TLB_SIZE := by
  have hle : (probePageNumber vaddr &&& TLB_MASK).toNat ≤ TLB_MASK.toNat := by
    rw [BitVec.toNat_and]
    exact Nat.and_le_right
  exact Nat.lt_of_le_of_lt hle (by decide)

theorem probeHit_eq_some {tlb : Tlb} {ident : Token} {vaddr : BitVec 64} {entry : TlbEntry} :
    probeHit tlb ident vaddr = some entry ↔ tlb (probeIndex vaddr) = some entry ∧
      entry.ioMmuIdent = ident ∧
        probePageNumber vaddr = BitVec.ofNat 64 entry.virtualPageNumber := by
  unfold probeHit
  cases tlb (probeIndex vaddr) with
  | none => simp
  | some e =>
    simp only [Option.some.injEq]
    constructor
    · intro h
      split_ifs at h with hmatch
      obtain rfl := Option.some.inj h
      exact ⟨rfl, hmatch⟩
    · rintro ⟨rfl, hmatch⟩
      exact if_pos hmatch

/-! ## The emitted code -/

section Code

variable {L : Layout} {backend : JitBackend}
  {other : StmtKind → List (Val HostPtr) → HostState → Option (List (Val HostPtr) × HostState)}
  {K : List (HostFact L backend other)} {s : HostState} {v : SSAValue} {fallback : Block}
  {vaddr : BitVec 64} {ident : Token}

/-- The arguments of a compiled function that point to the TLB and to the identifier of the MMU. -/
def tlbArg : HostFact L backend other := IsPtr Arg.tlb.asSSAValue .tlb .tlb

def identArg (ident : Token) : HostFact L backend other :=
  IsPtr Arg.ioMMUIdentifier.asSSAValue .readOnly (.ident ident)

theorem loadTlbEntry_ident (entry : Option TlbEntry) :
    loadTlbEntry L entry (.hostPtr .readOnly) L.ioMmuIdent = some (.ptr (identPtr entry)) :=
  if_pos ⟨rfl, rfl⟩

theorem loadTlbEntry_pageNumber (entry : Option TlbEntry) :
    loadTlbEntry L entry (.int .w64) L.virtualPageNumber =
      some (.int .w64 (pageNumberBits entry)) := by
  unfold loadTlbEntry
  rw [if_neg (by rintro ⟨-, h⟩; cases h), if_pos ⟨rfl, rfl⟩]

theorem loadTlbEntry_page (entry : Option TlbEntry) :
    loadTlbEntry L entry (.hostPtr .virtualMemory) L.taggedPagePtr =
      some (.ptr (taggedPagePtr entry)) := by
  unfold loadTlbEntry
  rw [if_neg (by rintro ⟨-, h⟩; cases h), if_neg (by rintro ⟨-, h⟩; cases h), if_pos ⟨rfl, rfl⟩]

/-- A load from the entry that is probed. -/
theorem computes_loadTlbEntry {ptr : SSAValue} {ty : LoadType} {offset : ℕ} {x : Val HostPtr}
    {B : Set Block} (hp : IsPtr ptr .tlb (.tlbEntry (probeIndex vaddr)) ∈ K)
    (hload : loadTlbEntry L (s.tlb (probeIndex vaddr)) ty offset = some x) :
    Computes B K s (emit1RetStmt (.loadHost ty ptr offset true)) (fun r =>
      [⟨r, ty.toTypeFull, x⟩]) s :=
  computes_loadHost hp ((if_pos (probeIndex_lt vaddr)).trans hload)

theorem computes_entryPtr {B : Set Block} (htlb : tlbArg ∈ K) (hv : IsInt v .w64 vaddr ∈ K) :
    Computes B K s (emitTlbEntryPtr L v)
      (fun r => [IsInt r.1 .w64 (probePageNumber vaddr),
        IsPtr r.2 .tlb (.tlbEntry (probeIndex vaddr))])
      s := by
  refine Computes.bind (P := fun n => [IsInt n .w64 (probePageNumber vaddr)])
    (show Computes B K s (shiftExactImm .signExtendShr v PAGE_SHIFT) _ s from
      computes_exactImm hv (by decide))
    fun pageNumber => ?_
  refine Computes.bind (P := fun i => [IsInt i .w64 (probePageNumber vaddr &&& TLB_MASK)])
    (computes_bitandImm List.mem_cons_self (BitVec.setWidth_eq _)) fun tlbIndex => ?_
  refine (computes_tlbEntryPtr (i := probePageNumber vaddr &&& TLB_MASK)
    (List.mem_cons_of_mem _ (List.mem_cons_of_mem _ htlb)) List.mem_cons_self).bind
      fun tlbEntryPtr => ?_
  exact Computes.pure (by simp [probeIndex])

theorem computes_ioMmuMatches {B : Set Block} {ptr : SSAValue} (hident : identArg ident ∈ K)
    (hp : IsPtr ptr .tlb (.tlbEntry (probeIndex vaddr)) ∈ K) :
    Computes B K s (emitIoMmuMatches L ptr)
      (fun r => [IsBool r (decide (identPtr (s.tlb (probeIndex vaddr)) = .ident ident))]) s := by
  refine Computes.bind (P := fun n => [IsPtr n .readOnly (identPtr (s.tlb (probeIndex vaddr)))])
    (computes_loadTlbEntry hp (loadTlbEntry_ident _)) fun ioMmuIdent => ?_
  exact computes_ptrEq List.mem_cons_self (List.mem_cons_of_mem _ hident)

theorem computes_pageNumberMatches {B : Set Block} {n ptr : SSAValue}
    (hn : IsInt n .w64 (probePageNumber vaddr) ∈ K)
    (hp : IsPtr ptr .tlb (.tlbEntry (probeIndex vaddr)) ∈ K) :
    Computes B K s (emitPageNumberMatches L n ptr)
      (fun r =>
        [IsBool r (probePageNumber vaddr == pageNumberBits (s.tlb (probeIndex vaddr)))]) s := by
  refine Computes.bind (P := fun m => [IsInt m .w64 (pageNumberBits (s.tlb (probeIndex vaddr)))])
    (computes_loadTlbEntry hp (loadTlbEntry_pageNumber _)) fun pageNumberFound => ?_
  exact computes_icmp (List.mem_cons_of_mem _ hn) List.mem_cons_self

/-- On a hit the code gets to its end with the entry, its page and the offset in the page. -/
theorem computes_probe (htlb : tlbArg ∈ K) (hident : identArg ident ∈ K)
    (hv : IsInt v .w64 vaddr ∈ K) {entry : TlbEntry}
    (hhit : probeHit s.tlb ident vaddr = some entry) :
    Computes {fallback} K s (emitTlbLookup L v fallback)
      (fun r => [IsPtr r.1 .tlb (.tlbEntry (probeIndex vaddr)),
        IsPtr r.2.1 .virtualMemory (taggedPagePtr (some entry)),
        IsInt r.2.2 .w64 (vaddr &&& PAGE_OFFSET_MASK)]) s := by
  obtain ⟨hentry, hidentEq, hpage⟩ := probeHit_eq_some.1 hhit
  have hmatches : decide (identPtr (s.tlb (probeIndex vaddr)) = .ident ident) = true := by
    rw [hentry]
    exact decide_eq_true (congrArg HostPtr.ident hidentEq)
  have hfound : (probePageNumber vaddr == pageNumberBits (s.tlb (probeIndex vaddr))) = true := by
    rw [hentry]
    exact beq_iff_eq.2 hpage
  refine (computes_entryPtr htlb hv).bind ?_
  rintro ⟨n, ptr⟩
  have hn : IsInt n .w64 (probePageNumber vaddr) ∈
      [IsInt n .w64 (probePageNumber vaddr), IsPtr ptr .tlb (.tlbEntry (probeIndex vaddr))] ++ K :=
    List.mem_cons_self
  have hptr : IsPtr ptr .tlb (.tlbEntry (probeIndex vaddr)) ∈
      [IsInt n .w64 (probePageNumber vaddr), IsPtr ptr .tlb (.tlbEntry (probeIndex vaddr))] ++ K :=
    List.mem_cons_of_mem _ List.mem_cons_self
  refine (computes_ioMmuMatches (List.mem_append_right _ hident) hptr).bind fun ioMmuMatches => ?_
  refine (computes_assertBool (Set.mem_singleton _) List.mem_cons_self hmatches).bind fun _ => ?_
  refine (computes_pageNumberMatches (List.mem_cons_of_mem _ hn) (List.mem_cons_of_mem _ hptr)).bind
    fun pageNumberMatches => ?_
  refine (computes_assertBool (Set.mem_singleton _) List.mem_cons_self hfound).bind fun _ => ?_
  refine Computes.bind (P := fun t => [IsPtr t .virtualMemory (taggedPagePtr (some entry))])
    (computes_loadTlbEntry (List.mem_cons_of_mem _ (List.mem_cons_of_mem _ hptr))
      (by rw [hentry]; exact loadTlbEntry_page _)) fun t => ?_
  refine Computes.bind (P := fun o => [IsInt o .w64 (vaddr &&& PAGE_OFFSET_MASK)])
    (computes_bitandImm (by simp [hv]) (BitVec.setWidth_eq _)) fun pageOffset => ?_
  exact Computes.pure (by simp)

theorem appends_pageNumberMatches {B : Set Block} (n ptr : SSAValue) :
    Appends B (emitPageNumberMatches L n ptr) :=
  Appends.bind (appends_emit1 _) fun _ => appends_icmp _ _ _

/-- On a miss the code jumps to the fallback. -/
theorem leaves_probe (htlb : tlbArg ∈ K) (hident : identArg ident ∈ K)
    (hv : IsInt v .w64 vaddr ∈ K) (hmiss : probeHit s.tlb ident vaddr = none) :
    Leaves {fallback} K s (emitTlbLookup L v fallback) fallback s := by
  refine (computes_entryPtr htlb hv).bind_leaves ?_
  rintro ⟨n, ptr⟩
  have hn : IsInt n .w64 (probePageNumber vaddr) ∈
      [IsInt n .w64 (probePageNumber vaddr), IsPtr ptr .tlb (.tlbEntry (probeIndex vaddr))] ++ K :=
    List.mem_cons_self
  have hptr : IsPtr ptr .tlb (.tlbEntry (probeIndex vaddr)) ∈
      [IsInt n .w64 (probePageNumber vaddr), IsPtr ptr .tlb (.tlbEntry (probeIndex vaddr))] ++ K :=
    List.mem_cons_of_mem _ List.mem_cons_self
  refine (computes_ioMmuMatches (List.mem_append_right _ hident) hptr).bind_leaves
    fun ioMmuMatches => ?_
  by_cases hmatches : identPtr (s.tlb (probeIndex vaddr)) = .ident ident
  · have hfound : (probePageNumber vaddr == pageNumberBits (s.tlb (probeIndex vaddr))) ≠ true := by
      intro hpage
      rcases hentry : s.tlb (probeIndex vaddr) with _ | entry
      · rw [hentry] at hmatches
        cases hmatches
      · rw [hentry] at hmatches hpage
        have hhit := probeHit_eq_some.2 ⟨hentry, HostPtr.ident.inj hmatches, beq_iff_eq.1 hpage⟩
        rw [hmiss] at hhit
        cases hhit
    refine (computes_assertBool (Set.mem_singleton _) List.mem_cons_self
      (decide_eq_true hmatches)).bind_leaves fun _ => ?_
    refine (computes_pageNumberMatches (List.mem_cons_of_mem _ hn)
      (List.mem_cons_of_mem _ hptr)).bind_leaves fun pageNumberMatches => ?_
    refine (leaves_assertBool (Set.mem_singleton _) List.mem_cons_self hfound).bind fun _ => ?_
    refine Appends.bind (appends_emit1 _) fun t => ?_
    exact Appends.bind (appends_bitandImm _ _) fun o => Appends.pure _
  · have hfalse : decide (identPtr (s.tlb (probeIndex vaddr)) = .ident ident) ≠ true :=
      fun h => hmatches (of_decide_eq_true h)
    refine (leaves_assertBool (Set.mem_singleton _) List.mem_cons_self hfalse).bind fun _ => ?_
    refine Appends.bind (appends_pageNumberMatches n ptr) fun pageNumberMatches => ?_
    refine Appends.bind (appends_assert _ _ (Set.mem_singleton _)) fun _ => ?_
    refine Appends.bind (appends_emit1 _) fun t => ?_
    exact Appends.bind (appends_bitandImm _ _) fun o => Appends.pure _

end Code

/-! ## The lookup -/

/-- The page numbers of a TLB are `u64`s. -/
def PageNumbersFit (tlb : Tlb) : Prop :=
  ∀ i entry, tlb i = some entry → entry.virtualPageNumber < 2 ^ 64

theorem fromVaddr_lt (vaddr : BitVec 64) : PageNumber.fromVaddr vaddr < 2 ^ 64 :=
  Nat.lt_of_le_of_lt (Nat.div_le_self _ _) vaddr.isLt

theorem probePageNumber_of_low {vaddr : BitVec 64} (h : vaddr.toNat < 2 ^ 63) :
    (probePageNumber vaddr).toNat = PageNumber.fromVaddr vaddr := by
  have hmsb : vaddr.msb = false := by
    rw [BitVec.msb_eq_decide]
    exact decide_eq_false (by omega)
  rw [probePageNumber, BitVec.sshiftRight_eq_of_msb_false hmsb, BitVec.toNat_ushiftRight,
    Nat.shiftRight_eq_div_pow]
  rfl

/-- At the upper half of the addresses the number is none that a page has. -/
theorem probePageNumber_of_high {vaddr : BitVec 64} (h : 2 ^ 63 ≤ vaddr.toNat) :
    (probePageNumber vaddr).toNat ≠ PageNumber.fromVaddr vaddr := by
  have hmsb : vaddr.msb = true := by
    rw [BitVec.msb_eq_decide]
    exact decide_eq_true (by omega)
  have hlt := vaddr.isLt
  rw [probePageNumber, BitVec.sshiftRight_eq_of_msb_true hmsb, BitVec.toNat_not,
    BitVec.toNat_ushiftRight, BitVec.toNat_not, Nat.shiftRight_eq_div_pow]
  show 2 ^ 64 - 1 - (2 ^ 64 - 1 - vaddr.toNat) / 2 ^ 12 ≠ vaddr.toNat / 4096
  omega

theorem probeIndex_of_low {vaddr : BitVec 64} (h : vaddr.toNat < 2 ^ 63) :
    probeIndex vaddr = Tlb.index (PageNumber.fromVaddr vaddr) := by
  have hmask : TLB_MASK.toNat = 2 ^ 10 - 1 := by decide
  rw [probeIndex, BitVec.toNat_and, hmask, Nat.and_two_pow_sub_one_eq_mod, probePageNumber_of_low h]
  rfl

theorem pageOffset_bits (vaddr : BitVec 64) :
    (vaddr &&& PAGE_OFFSET_MASK).toNat = pageOffset vaddr := by
  have hmask : PAGE_OFFSET_MASK.toNat = 2 ^ 12 - 1 := by decide
  rw [BitVec.toNat_and, hmask, Nat.and_two_pow_sub_one_eq_mod]
  rfl

/-- Below `2 ^ 63` the probe hits where the lookup does. -/
theorem probeHit_of_low {vaddr : BitVec 64} (h : vaddr.toNat < 2 ^ 63) {tlb : Tlb}
    (hfit : PageNumbersFit tlb) (ident : Token) :
    (probeHit tlb ident vaddr).map TlbEntry.page = tlb.hit (PageNumber.fromVaddr vaddr) ident := by
  unfold probeHit Tlb.hit
  rw [probeIndex_of_low h]
  rcases hentry : tlb (Tlb.index (PageNumber.fromVaddr vaddr)) with _ | entry
  · rfl
  · have hpage : probePageNumber vaddr = BitVec.ofNat 64 entry.virtualPageNumber ↔
        entry.virtualPageNumber = PageNumber.fromVaddr vaddr := by
      rw [← BitVec.toNat_inj, probePageNumber_of_low h, BitVec.toNat_ofNat,
        Nat.mod_eq_of_lt (hfit _ _ hentry)]
      exact eq_comm
    simp only [hpage]
    split_ifs <;> rfl

/-- A callback that reports success has filled the entry of its address. -/
theorem loadFallback_fills {vaddr : BitVec 64} {width : IntWidth} {out : StackSlot}
    {s s' : HostState} (hrun : loadFallback width vaddr out s = some (true, s')) :
    ∃ page, s'.tlb.hit (PageNumber.fromVaddr vaddr) s'.mmu.identifier = some page := by
  have hfill : ∀ a, (scalarLoad s.heap s.mmu width vaddr (some s.tlb)).1 = .ok a →
      Filled s.mmu (PageNumber.fromVaddr vaddr)
        (scalarLoad s.heap s.mmu width vaddr (some s.tlb)).2 :=
    scalarLoad_fills width (some s.tlb) ⟨_, rfl⟩
  unfold loadFallback at hrun
  split at hrun
  · rename_i value tlb hload
    rw [hload] at hfill
    obtain ⟨tlb', page, heq, hhit⟩ := hfill value rfl
    obtain rfl := Option.some.inj heq
    obtain ⟨-, rfl⟩ := Prod.mk.inj (Option.some.inj hrun)
    exact ⟨page, hhit⟩
  · obtain ⟨r, -, hr⟩ := Option.map_eq_some_iff.1 hrun
    cases hr
  · cases hrun

theorem storeFallback_fills {vaddr : BitVec 64} {width : IntWidth} {value : BitVec width.bits}
    {s s' : HostState} (hrun : storeFallback vaddr value s = some (true, s')) :
    ∃ page, s'.tlb.hit (PageNumber.fromVaddr vaddr) s'.mmu.identifier = some page := by
  have hfill : ∀ a, (scalarStore s.heap s.mmu vaddr value (some s.tlb)).1 = .ok a →
      Filled s.mmu (PageNumber.fromVaddr vaddr)
        (scalarStore s.heap s.mmu vaddr value (some s.tlb)).2 :=
    scalarStore_fills value (some s.tlb) ⟨_, rfl⟩
  unfold storeFallback at hrun
  split at hrun
  · rename_i effects tlb hstore
    rw [hstore] at hfill
    obtain ⟨tlb', page, heq, hhit⟩ := hfill effects rfl
    obtain rfl := Option.some.inj heq
    obtain ⟨-, rfl⟩ := Prod.mk.inj (Option.some.inj hrun)
    exact ⟨page, hhit⟩
  · obtain ⟨r, -, hr⟩ := Option.map_eq_some_iff.1 hrun
    cases hr
  · cases hrun

/-! ## The probe is the lookup -/

section Probe

variable {L : Layout} {backend : JitBackend}
  {other : StmtKind → List (Val HostPtr) → HostState → Option (List (Val HostPtr) × HostState)}

/-- A run is at a place where the probe of `vaddr` was emitted. -/
structure ProbeSite (F : ExecIrBuilder) (b b' : ExecIrBuilder) (v : SSAValue) (fallback : Block)
    (r : SSAValue × SSAValue × SSAValue) (vaddr : BitVec 64)
   
    (c : Config (hostMachine L backend other)) : Prop where
  built : Built b
  fallback_ne : fallback ≠ Block.ENTRYPOINT
  fallback_params : HasParams b fallback []
  ty : b.ssaValues[v]? = some (.int .w64)
  emit : emitTlbLookup L v fallback b = .ok (r, b')
  final : Emitted Set.univ b' F
  at_probe : At b c
  value : c.env v = Val.int .w64 vaddr
  tlb : c.env Arg.tlb.asSSAValue = Val.ptr .tlb
  ident : c.env Arg.ioMMUIdentifier.asSSAValue = Val.ptr (.ident c.world.mmu.identifier)

/-- The probe hits with the page: its pointer and flags, the offset in it, and the entry that holds
    the pointer to its mutable flags. -/
def ProbeHits (halts : ℕ → BitVec 32) (F : ExecIrBuilder) (b b' : ExecIrBuilder)
    (r : SSAValue × SSAValue × SSAValue) (vaddr : BitVec 64)
    (c : Config (hostMachine L backend other))
    (page : Page) : Prop :=
  ∃ c', Follows backend halts F b c b' c' ∧ c'.world = c.world ∧
    c'.env r.2.1 = Val.ptr (.page page.ptr (page.flags.setWidth 8)) ∧
    c'.env r.2.2 = Val.int .w64 (BitVec.ofNat 64 (pageOffset vaddr)) ∧
    ∃ i entry, c'.env r.1 = Val.ptr (.tlbEntry i) ∧ c.world.tlb i = some entry ∧ entry.page = page

/-- The probe misses: the run goes on in the fallback. -/
def ProbeMisses (halts : ℕ → BitVec 32) (F : ExecIrBuilder) (b : ExecIrBuilder) (fallback : Block)
    (c : Config (hostMachine L backend other)) : Prop :=
  ∃ c', Jumps backend halts F b c fallback c' ∧ c'.world = c.world

variable (halts : ℕ → BitVec 32) {F b b' : ExecIrBuilder} {v : SSAValue} {fallback : Block}
  {r : SSAValue × SSAValue × SSAValue} {vaddr : BitVec 64}
  {c : Config (hostMachine L backend other)}

/-- What the code of the probe is run with. -/
def probeFacts (v : SSAValue) (vaddr : BitVec 64) (ident : Token) :
    List (HostFact L backend other) :=
  [tlbArg, identArg ident, IsInt v .w64 vaddr]

theorem ProbeSite.exist (h : ProbeSite F b b' v fallback r vaddr c) : Exist {fallback} b := by
  intro block hblock
  obtain rfl := Set.mem_singleton_iff.1 hblock
  exact ⟨h.fallback_ne, h.fallback_params⟩

theorem ProbeSite.knows (h : ProbeSite F b b' v fallback r vaddr c) :
    Knows (probeFacts v vaddr c.world.mmu.identifier) b c := by
  intro f hf
  simp only [probeFacts, List.mem_cons, List.not_mem_nil, or_false] at hf
  rcases hf with rfl | rfl | rfl
  · exact ⟨arg_ty_of_built h.built .tlb, h.tlb⟩
  · exact ⟨arg_ty_of_built h.built .ioMMUIdentifier, h.ident⟩
  · exact ⟨h.ty, h.value⟩

theorem ProbeSite.hits (h : ProbeSite F b b' v fallback r vaddr c) {entry : TlbEntry}
    (hhit : probeHit c.world.tlb c.world.mmu.identifier vaddr = some entry) :
    ProbeHits halts F b b' r vaddr c entry.page := by
  have hcode : Computes {fallback} (probeFacts v vaddr c.world.mmu.identifier) c.world
      (emitTlbLookup L v fallback) _ c.world :=
    computes_probe (by simp [probeFacts]) (by simp [probeFacts]) (by simp [probeFacts]) hhit
  obtain ⟨c', hfollow, hknow, hworld⟩ :=
    hcode.runs h.emit h.exist backend halts F h.final h.at_probe h.knows rfl
  have hpage := (hknow _ (List.mem_cons_of_mem _ List.mem_cons_self)).2
  have hoffset := (hknow _ (List.mem_cons_of_mem _ (List.mem_cons_of_mem _ List.mem_cons_self))).2
  have hentry := (hknow _ List.mem_cons_self).2
  refine ⟨c', hfollow, hworld, hpage, ?_, _, entry, hentry, (probeHit_eq_some.1 hhit).1, rfl⟩
  rw [← pageOffset_bits, BitVec.ofNat_toNat, BitVec.setWidth_eq]
  exact hoffset

theorem ProbeSite.misses (h : ProbeSite F b b' v fallback r vaddr c)
    (hmiss : probeHit c.world.tlb c.world.mmu.identifier vaddr = none) :
    ProbeMisses halts F b fallback c := by
  have hcode : Leaves {fallback} (probeFacts v vaddr c.world.mmu.identifier) c.world
      (emitTlbLookup L v fallback) fallback c.world :=
    leaves_probe (by simp [probeFacts]) (by simp [probeFacts]) (by simp [probeFacts]) hmiss
  obtain ⟨c', hjump, hworld⟩ :=
    hcode.runs h.emit h.exist backend halts F h.final h.at_probe h.knows rfl
  exact ⟨c', hjump, hworld⟩

end Probe

/-- At `vaddr` the emitted probe is the lookup, with every TLB, identifier and place; and once a
    fallback access there has filled the entry, the next probe of the page hits. -/
structure ProbeIsLookup (L : Layout) (vaddr : BitVec 64) : Prop where
  agrees :
    ∀ {backend other} (halts) {F b b' v fallback r} {c : Config (hostMachine L backend other)},
    ProbeSite F b b' v fallback r vaddr c → PageNumbersFit c.world.tlb →
      match c.world.tlb.hit (PageNumber.fromVaddr vaddr) c.world.mmu.identifier with
      | some page => ProbeHits halts F b b' r vaddr c page
      | none => ProbeMisses halts F b fallback c
  refilled : ∀ {backend other} (halts) {F b b' v fallback r vaddr' s}
    {c : Config (hostMachine L backend other)},
    (∃ width out, loadFallback width vaddr out s = some (true, c.world)) ∨
      (∃ (width : IntWidth) (value : BitVec width.bits),
        storeFallback vaddr value s = some (true, c.world)) →
    PageNumber.fromVaddr vaddr' = PageNumber.fromVaddr vaddr →
    ProbeSite F b b' v fallback r vaddr' c → ∃ page, ProbeHits halts F b b' r vaddr' c page

/-- Below `2 ^ 63` a hit of the lookup is one of the probe. -/
theorem probeHit_of_hit {vaddr : BitVec 64} (h : vaddr.toNat < 2 ^ 63) {tlb : Tlb} {ident : Token}
    {page : Page} (hhit : tlb.hit (PageNumber.fromVaddr vaddr) ident = some page) :
    probeHit tlb ident vaddr = some ⟨ident, PageNumber.fromVaddr vaddr, page⟩ := by
  refine probeHit_eq_some.2 ⟨?_, rfl, ?_⟩
  · rw [probeIndex_of_low h]
    exact Tlb.hit_eq_some hhit
  · apply BitVec.eq_of_toNat_eq
    rw [probePageNumber_of_low h, BitVec.toNat_ofNat, Nat.mod_eq_of_lt (fromVaddr_lt vaddr)]

theorem probeIsLookup_of_low (L : Layout) {vaddr : BitVec 64} (h : vaddr.toNat < 2 ^ 63) :
    ProbeIsLookup L vaddr where
  agrees := by
    intro backend other halts F b b' v fallback r c hsite hfit
    have heq := probeHit_of_low h hfit c.world.mmu.identifier
    rw [← heq]
    rcases hhit : probeHit c.world.tlb c.world.mmu.identifier vaddr with _ | entry
    · exact hsite.misses halts hhit
    · exact hsite.hits halts hhit
  refilled := by
    intro backend other halts F b b' v fallback r vaddr' s c hrun hpage hsite
    have hfilled : ∃ page, c.world.tlb.hit (PageNumber.fromVaddr vaddr) c.world.mmu.identifier =
        some page := by
      rcases hrun with ⟨width, out, hrun⟩ | ⟨width, value, hrun⟩
      · exact loadFallback_fills hrun
      · exact storeFallback_fills hrun
    obtain ⟨page, hhit⟩ := hfilled
    have hlow : vaddr'.toNat < 2 ^ 63 := by
      have hdiv : vaddr'.toNat / 4096 = vaddr.toNat / 4096 := hpage
      omega
    rw [← hpage] at hhit
    exact ⟨_, hsite.hits halts (probeHit_of_hit hlow hhit)⟩

/-! ### The upper half of the addresses -/

section High

/-- A builder that has emitted a constant, the value 6, and created a block for the fallback. -/
def probeBuilder : ExecIrBuilder :=
  let b := ExecIrBuilder.withConfig ⟨512, by decide, by decide⟩
  match (do let _ ← iconst (.u64 0); createBlock : BuilderM Block) b with
  | .ok (_, b') => b'
  | .error _ => b

theorem built_probeBuilder : Built probeBuilder := by
  refine .call (.call (.withConfig ⟨512, by decide, by decide⟩)
    (.emitStmtFull 1 (.iconst (.u64 0)) ?_ (by nofun) (by nofun) rfl)) (.createBlock rfl)
  intro v hv
  cases hv

/-- The probe emitted there; its end and the fallback are empty blocks that return. -/
theorem emit_probeBuilder (L : Layout) : ∃ r b', emitTlbLookup L 6 1 probeBuilder = .ok (r, b') ∧
    b'.currentBlock = 3 ∧
    (∃ data, b'.blocks[1]? = some data ∧ data.stmts = [] ∧ data.terminator = .ret) ∧
    ∃ data, b'.blocks[3]? = some data ∧ data.terminator = .ret :=
  ⟨_, _, rfl, rfl, ⟨_, rfl, rfl, rfl⟩, ⟨_, rfl, rfl⟩⟩

/-- A host whose TLB holds the page of `vaddr`. -/
def filledHost (vaddr : BitVec 64) : HostState :=
  { HostState.new ⟨0, PageTable.new⟩ with
    tlb := Tlb.new.updateEntry (PageNumber.fromVaddr vaddr) 0 ⟨.alloc 0, 0, 0⟩ }

theorem filledHost_entry {vaddr : BitVec 64} {i : ℕ} {entry : TlbEntry}
    (hentry : (filledHost vaddr).tlb i = some entry) :
    entry.virtualPageNumber = PageNumber.fromVaddr vaddr := by
  have hupdate : Function.update Tlb.new (Tlb.index (PageNumber.fromVaddr vaddr))
      (some ⟨0, PageNumber.fromVaddr vaddr, ⟨.alloc 0, 0, 0⟩⟩) i = some entry := hentry
  by_cases hi : i = Tlb.index (PageNumber.fromVaddr vaddr)
  · rw [hi, Function.update_self] at hupdate
    obtain rfl := Option.some.inj hupdate
    rfl
  · rw [Function.update_of_ne hi] at hupdate
    cases hupdate

theorem pageNumbersFit_filledHost (vaddr : BitVec 64) : PageNumbersFit (filledHost vaddr).tlb := by
  intro i entry hentry
  rw [filledHost_entry hentry]
  exact fromVaddr_lt vaddr

theorem probeHit_filledHost {vaddr : BitVec 64} (h : 2 ^ 63 ≤ vaddr.toNat) :
    probeHit (filledHost vaddr).tlb 0 vaddr = none := by
  rcases hprobe : probeHit (filledHost vaddr).tlb 0 vaddr with _ | entry
  · rfl
  · obtain ⟨hentry, -, hpage⟩ := probeHit_eq_some.1 hprobe
    rw [filledHost_entry hentry] at hpage
    refine (probePageNumber_of_high h ?_).elim
    rw [hpage, BitVec.toNat_ofNat, Nat.mod_eq_of_lt (fromVaddr_lt vaddr)]

/-- A run that stands at the probe with the address `vaddr`. -/
def probeConfig (L : Layout) (backend : JitBackend)
    (other : StmtKind → List (Val HostPtr) → HostState → Option (List (Val HostPtr) × HostState))
    (vaddr : BitVec 64) : Config (hostMachine L backend other) where
  block := Block.ENTRYPOINT
  pc := 1
  env v := if v = 6 then Val.int .w64 vaddr else if v = 2 then Val.ptr .tlb else Val.ptr (.ident 0)
  world := filledHost vaddr
  reads := 0

/-- Two runs from one state are on one way. -/
theorem Reaches.total {M : Machine} {backend : JitBackend} {halts : ℕ → BitVec 32}
    {F : ExecIrBuilder} {c c₁ c₂ : Config M} (h₁ : Reaches M backend halts F c c₁)
    (h₂ : Reaches M backend halts F c c₂) :
    Reaches M backend halts F c₁ c₂ ∨ Reaches M backend halts F c₂ c₁ := by
  refine Relation.ReflTransGen.total_of_right_unique ?_ h₁ h₂
  rintro c d d' ⟨e, hstep⟩ ⟨e', hstep'⟩
  rw [hstep] at hstep'
  exact (Next.step.inj hstep').2

/-- A run goes nowhere from the end of a block that returns. -/
theorem Reaches.eq_of_ret {M : Machine} {backend : JitBackend} {halts : ℕ → BitVec 32}
    {F : ExecIrBuilder} {c c' : Config M} (h : Reaches M backend halts F c c') {data : BlockData}
    (hdata : F.blocks[c.block]? = some data) (hend : data.stmts.length ≤ c.pc)
    (hret : data.terminator = .ret) : c' = c := by
  rcases Relation.ReflTransGen.cases_head h with rfl | ⟨c₁, ⟨e, hstep⟩, -⟩
  · rfl
  · rw [next_of_end M hdata hend, hret] at hstep
    cases hstep

/-- From `2 ^ 63` on the probe misses a page that the TLB holds. -/
theorem not_probeIsLookup_of_high (L : Layout) {vaddr : BitVec 64} (h : 2 ^ 63 ≤ vaddr.toNat) :
    ¬ ProbeIsLookup L vaddr := by
  intro hprobe
  obtain ⟨r, b', hemit, hcur, ⟨fall, hfall, hempty, hfallRet⟩, ⟨last, hlast, hlastRet⟩⟩ :=
    emit_probeBuilder L
  let c := probeConfig L .gcc (fun _ _ _ => none) vaddr
  have hsite : ProbeSite b' probeBuilder b' 6 1 r vaddr c :=
    { built := built_probeBuilder
      fallback_ne := by decide
      fallback_params := ⟨_, rfl, rfl⟩
      ty := rfl
      emit := hemit
      final := Emitted.refl b'
      at_probe := ⟨rfl, _, rfl, rfl, rfl⟩
      value := rfl
      tlb := rfl
      ident := rfl }
  have hhit : c.world.tlb.hit (PageNumber.fromVaddr vaddr) c.world.mmu.identifier =
      some ⟨.alloc 0, 0, 0⟩ := hit_updateEntry _ _ _ _
  have hagrees := hprobe.agrees (fun _ => 0) hsite (pageNumbersFit_filledHost vaddr)
  rw [hhit] at hagrees
  obtain ⟨c₁, hfollow, -⟩ := hagrees
  obtain ⟨c₂, hjump, -⟩ := hsite.misses (fun _ => 0) (probeHit_filledHost h)
  have hblock₁ : c₁.block = 3 := hfollow.at'.1.trans hcur
  have hblock₂ : c₂.block = 1 := hjump.block
  have heq : c₁ = c₂ := by
    rcases hfollow.reaches.total hjump.reaches with hreach | hreach
    · obtain ⟨-, data, hdata, -, hlen⟩ := hfollow.at'
      rw [hcur, hlast] at hdata
      obtain rfl := Option.some.inj hdata
      rw [← hblock₁] at hlast
      exact (hreach.eq_of_ret hlast (Nat.le_of_eq hlen) hlastRet).symm
    · rw [← hblock₂] at hfall
      exact hreach.eq_of_ret hfall (by rw [hempty]; exact Nat.zero_le _) hfallRet
  rw [heq, hblock₂] at hblock₁
  cases hblock₁

end High

/-- The probe is the lookup exactly below `2 ^ 63`. -/
theorem probe_is_lookup_iff (L : Layout) (vaddr : BitVec 64) :
    ProbeIsLookup L vaddr ↔ vaddr.toNat < 2 ^ 63 := by
  constructor
  · intro h
    by_contra hlt
    exact not_probeIsLookup_of_high L (Nat.le_of_not_lt hlt) h
  · exact probeIsLookup_of_low L

/-- At `2 ^ 63` every access is slow: the entry that holds the page is never found. -/
theorem probe_misses_at_two_pow_63 : ¬ ProbeIsLookup Layout.inOrder 0x8000000000000000 :=
  not_probeIsLookup_of_high Layout.inOrder (by decide)

end RapidArm.Jit
