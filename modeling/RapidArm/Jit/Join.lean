import RapidArm.Jit.Fallback
import RapidArm.Jit.InlineAccess

/-!
# Where the fallback joins

The end of `vm_access` (`jit-compiler-core/src/ir/mod.rs`, lines 2460–2537): after a load the inline
access and the fallback jump to a block whose parameter is the loaded value, after a store to the
block that follows the test of the dirty flag.

Results:
* `merge_inline`, `merge_fallback`: both ways into the block after a load.
* `dirty_inline`, `dirty_fallback`: both ways into the block after a store.
-/

namespace RapidArm.Jit

open RapidArm.Ir RapidArm.Lib RapidArm.Backend RapidArm.Mmu ExecIrBuilder

/-! ## Loads -/

section Merge

variable {b b' : ExecIrBuilder} {width : IntWidth} {retNormal retFallback param : SSAValue}
  {okBlock : Block} {n k : ℕ}

/-- What `emit_merge` leaves: the block `b'.currentBlock` with the parameter `param`, where the
    current block of `b` and `okBlock` end. -/
structure Merged (width : IntWidth) (retNormal retFallback param : SSAValue) (okBlock : Block)
    (n k : ℕ) (b b' : ExecIrBuilder) : Prop where
  emitted : Emitted Set.univ b b'
  isOpen : OpenBlock b' b'.currentBlock 0
  params : HasParams b' b'.currentBlock [param]
  isNew : b.blocks.length ≤ b'.currentBlock
  fresh : b.ssaValues.length ≤ param
  ty : b'.ssaValues[param]? = some (.int width)
  normal : Ends b' b.currentBlock n (.br ⟨b'.currentBlock, [retNormal]⟩)
  fallback : Ends b' okBlock k (.br ⟨b'.currentBlock, [retFallback]⟩)

/-- A new block with one parameter, switched to. -/
theorem createMerge_spec {merge : Block} {b₁ b₂ b₃ : ExecIrBuilder} {ty : TypeFull}
    (hcreate : createBlock b = .ok (merge, b₁)) (hswitch : switchTo merge b₁ = .ok ((), b₂))
    (hparam : addBlockParameterAt merge ty b₂ = .ok (param, b₃)) :
    Emitted ∅ b b₃ ∧ merge = b.blocks.length ∧ b₃.currentBlock = merge ∧ OpenBlock b₃ merge 0 ∧
      HasParams b₃ merge [param] ∧ param = b.ssaValues.length ∧
        b₃.ssaValues = b.ssaValues ++ [ty] := by
  obtain ⟨rfl, rfl⟩ := Prod.mk.inj (Except.ok.inj hcreate)
  obtain ⟨-, rfl⟩ := Prod.mk.inj (Except.ok.inj hswitch)
  obtain ⟨data, hdata, hb₃⟩ := bind_eq_ok.1 hparam
  obtain ⟨rfl, rfl⟩ := Prod.mk.inj (Except.ok.inj hb₃)
  have hget : (b.blocks ++ [BlockData.empty])[b.blocks.length]? = some BlockData.empty :=
    List.getElem?_concat_length
  obtain rfl : BlockData.empty = data := Option.some.inj (hget.symm.trans (arenaGet_eq_ok.1 hdata))
  have hset :=
    List.getElem?_set_self (a := { BlockData.empty with parameters := [b.ssaValues.length] })
    (getElem?_eq_some_lt hget)
  refine ⟨⟨List.prefix_append _ _, List.prefix_refl _, by
    simp, fun block data hdata => ?_⟩, rfl, rfl,
    ⟨_, hset, rfl, rfl⟩, ⟨_, hset, rfl⟩, rfl, rfl⟩
  have hlt := getElem?_eq_some_lt hdata
  refine ⟨data, ?_, rfl, List.prefix_refl _, fun _ => ⟨rfl, rfl, rfl⟩⟩
  show ((b.blocks ++ [BlockData.empty]).set b.blocks.length _)[block]? = some data
  rw [List.getElem?_set_ne (Nat.ne_of_gt hlt), List.getElem?_append_left hlt]
  exact hdata

theorem emitMerge_spec (h : emitMerge width retNormal retFallback okBlock b = .ok (param, b'))
    (hopen : OpenBlock b b.currentBlock n) (hok : OpenBlock b okBlock k)
    (hne : okBlock ≠ b.currentBlock) :
    Merged width retNormal retFallback param okBlock n k b b' := by
  obtain ⟨b₀, b₀', hget, h⟩ := emit_bind_ok.1 h
  obtain ⟨rfl, rfl⟩ := Prod.mk.inj (Except.ok.inj hget)
  obtain ⟨merge, b₁, hcreate, h⟩ := emit_bind_ok.1 h
  obtain ⟨_, b₂, hswitch, h⟩ := emit_bind_ok.1 h
  obtain ⟨param, b₃, hparam, h⟩ := emit_bind_ok.1 h
  obtain ⟨_, b₄, hnormal, h⟩ := emit_bind_ok.1 h
  obtain ⟨_, b₅, hfallback, h⟩ := emit_bind_ok.1 h
  obtain ⟨rfl, rfl⟩ := emit_pure_ok.1 h
  obtain ⟨he, rfl, hcur, hnew, hparams, rfl, hvals⟩ := createMerge_spec hcreate hswitch hparam
  obtain ⟨he₄, hends₄, hcur₄, hvals₄⟩ :=
    terminateBlock_spec hnormal (by nofun) (he.openBlock hopen (Set.notMem_empty _))
  obtain ⟨he₅, hends₅, hcur₅, hvals₅⟩ :=
    terminateBlock_spec hfallback (by nofun)
      (he₄.openBlock (he.openBlock hok (Set.notMem_empty _)) hne)
  have hcurrent : b₅.currentBlock = b.blocks.length := (hcur₅.trans hcur₄).trans hcur
  refine ⟨?_, ?_, ?_, Nat.le_of_eq hcurrent.symm, Nat.le_refl _, ?_, ?_, ?_⟩
  · exact ((he.mono (Set.empty_subset _)).trans he₄ fun _ _ _ => Set.mem_univ _).trans he₅
      fun _ _ _ => Set.mem_univ _
  · rw [hcurrent]
    exact he₅.openBlock (he₄.openBlock hnew (Nat.ne_of_gt hopen.lt)) (Nat.ne_of_gt hok.lt)
  · rw [hcurrent]
    exact he₅.hasParams (he₄.hasParams hparams)
  · rw [hvals₅, hvals₄, hvals]
    exact List.getElem?_concat_length
  · rw [hcurrent]
    exact he₅.ends hends₄
  · rw [hcurrent]
    exact hends₅

variable {M : Machine} {backend : JitBackend} {halts : ℕ → BitVec 32} {F : ExecIrBuilder}
  {c : Config M}

/-- A run at one of the two ends gets to the new block, with its value in the parameter. -/
theorem Merged.reaches (h : Merged width retNormal retFallback param okBlock n k b b')
    (hF : Emitted Set.univ b' F) {block : Block} {m : ℕ} {arg : SSAValue}
    (hends : Ends b' block m (.br ⟨b'.currentBlock, [arg]⟩)) (hblock : c.block = block)
    (hpc : c.pc = m) :
    ∃ c', Follows backend halts F b c b' c' ∧ c'.env param = c.env arg ∧ c'.world = c.world := by
  have hendsF : Ends F c.block m (.br ⟨b'.currentBlock, [arg]⟩) := by
    rw [hblock]
    exact hF.ends hends
  refine ⟨_, ⟨reaches_br_one hendsF hpc (hF.hasParams h.params), ⟨rfl, h.isOpen⟩, ?_⟩,
    Function.update_self _ _ _, rfl⟩
  rintro f ⟨hty, hval⟩
  have hlt : f.value < param := Nat.lt_of_lt_of_le (getElem?_eq_some_lt hty) h.fresh
  refine ⟨getElem?_of_isPrefix h.emitted.ssaValues hty, ?_⟩
  exact (Function.update_of_ne (Nat.ne_of_lt hlt) _ _).trans hval

end Merge

/-! ## Stores -/

section Dirty

/-- The code of the block that marks the page as dirty, but for its end. -/
def markDirtyCode (L : Layout) (tlbEntryPtr : SSAValue) : BuilderM Unit := do
  let insnDirtyPtr ← emit1RetStmt (.loadHost (.hostPtr .pageFlags) tlbEntryPtr L.mutPageFlags true)
  emitVoidStmt (.setPageDirtyFlag insnDirtyPtr)

variable {L : Layout} {b b' : ExecIrBuilder} {taggedPagePtr tlbEntryPtr : SSAValue}
  {okBlock : Block} {n k : ℕ}

/-- How `emit_dirty_check` went on: the test of the tag in the current block, the code that is run
    where the test fails in the block `check`, and the block `b'.currentBlock` where they meet. -/
structure DirtyChecked (L : Layout) (taggedPagePtr tlbEntryPtr : SSAValue) (okBlock : Block) (k : ℕ)
    (must : SSAValue) (check : Block) (b b₁ b₂ b₃ b₄ b' : ExecIrBuilder) : Prop where
  tag : hasTag taggedPagePtr (MemFlags.MUST_DIRTY.setWidth 8) b = .ok (must, b₁)
  create : createBlock b₁ = .ok (check, b₂)
  test : assertOrJmpTo must false check b₂ = .ok (b'.currentBlock, b₃)
  body : markDirtyCode L tlbEntryPtr { b₃ with currentBlock := check } = .ok ((), b₄)
  emitted : Emitted Set.univ b b'
  checkOpen : OpenBlock b₃ check 0
  isOpen : OpenBlock b' b'.currentBlock 0
  params : HasParams b' b'.currentBlock []
  emitted₃ : Emitted Set.univ b₃ b'
  emitted₄ : Emitted Set.univ b₄ b'
  checked : ∃ m, OpenBlock b₄ check m ∧ b₄.currentBlock = check ∧
    Ends b' check m (.br ⟨b'.currentBlock, []⟩)
  fallback : Ends b' okBlock k (.br ⟨b'.currentBlock, []⟩)

theorem appends_markDirtyCode (B : Set Block) : Appends B (markDirtyCode L tlbEntryPtr) :=
  Appends.bind (appends_emit1 _) fun _ => appends_void _

/-- Both statements of the code stay in the block. -/
theorem markDirtyCode_current (h : markDirtyCode L tlbEntryPtr b = .ok ((), b'))
    (hopen : IsOpen b) :
    b'.currentBlock = b.currentBlock := by
  obtain ⟨p, b₁, hload, hvoid⟩ := emit_bind_ok.1 h
  obtain ⟨n, hopen⟩ := hopen
  obtain ⟨-, hopen₁, hcur₁, -⟩ := emitStmtFull_spec (emit1RetStmt_eq_ok hload) hopen
  rw [← hcur₁] at hopen₁
  obtain ⟨-, -, hcur₂, -⟩ := emitStmtFull_spec (emitVoidStmt_eq_ok hvoid) hopen₁
  exact hcur₂.trans hcur₁

theorem hasTag_current {ptr must : SSAValue} {bits : BitVec 8}
    (h : hasTag ptr bits b = .ok (must, b'))
    (hopen : IsOpen b) : Emitted {b.currentBlock} b b' ∧ b'.currentBlock = b.currentBlock := by
  obtain ⟨_, b₁, hassert, hemit⟩ := emit_bind_ok.1 h
  obtain rfl := assertHostPtr_ok hassert
  obtain ⟨n, hopen⟩ := hopen
  obtain ⟨he, -, hcur, -⟩ := emitStmtFull_spec (emit1RetStmt_eq_ok hemit) hopen
  exact ⟨he, hcur⟩

theorem OpenBlock.length_unique {block : Block} {m n : ℕ} (h : OpenBlock b block m)
    (h' : OpenBlock b block n) :
    m = n := by
  obtain ⟨data, hdata, -, hm⟩ := h
  obtain ⟨data', hdata', -, hn⟩ := h'
  obtain rfl := Option.some.inj (hdata.symm.trans hdata')
  exact hm.symm.trans hn

/-- The block that a test goes on in is new: the block before has ended. -/
theorem success_isNew {cond : SSAValue} {expected : Bool} {fail success : Block}
    (h : assertOrJmpTo cond expected fail b = .ok (success, b')) (hfail : HasParams b fail [])
    (hopen : OpenBlock b b.currentBlock n) : b.blocks.length ≤ success := by
  obtain ⟨he, hcur, hsuccess, -, -, hends⟩ := assertOrJmpTo_spec h hfail hopen
  rcases he.current with heq | hge
  · rw [← hcur, heq] at hsuccess
    obtain ⟨data, hdata, hterminated, -⟩ := hends
    obtain ⟨data', hdata', hnot, -⟩ := hsuccess
    obtain rfl := Option.some.inj (hdata.symm.trans hdata')
    rw [hterminated] at hnot
    cases hnot
  · rw [hcur] at hge
    exact hge

theorem emitDirtyCheck_spec
    (h : emitDirtyCheck L taggedPagePtr tlbEntryPtr okBlock b = .ok ((), b'))
    (hopen : IsOpen b) (hok : OpenBlock b okBlock k) (hne : okBlock ≠ b.currentBlock) :
    ∃ must check b₁ b₂ b₃ b₄,
      DirtyChecked L taggedPagePtr tlbEntryPtr okBlock k must check b b₁ b₂ b₃ b₄ b' := by
  obtain ⟨must, b₁, htag, h⟩ := emit_bind_ok.1 h
  obtain ⟨check, b₂, hcreate, h⟩ := emit_bind_ok.1 h
  obtain ⟨continuation, b₃, htest, h⟩ := emit_bind_ok.1 h
  obtain ⟨_, b₆, hscope, hfallback⟩ := emit_bind_ok.1 h
  obtain ⟨b₅, hbody, rfl⟩ := blockScope_ok.1 hscope
  obtain ⟨p, b₃', hload, hbody⟩ := emit_bind_ok.1 hbody
  obtain ⟨_, b₄, hvoid, hterm⟩ := emit_bind_ok.1 hbody
  have hcode : markDirtyCode L tlbEntryPtr { b₃ with currentBlock := check } = .ok ((), b₄) :=
    emit_bind_ok.2 ⟨p, b₃', hload, hvoid⟩
  obtain ⟨he₁, hcur₁⟩ := hasTag_current htag hopen
  obtain ⟨he₂, hcheck, hnew, hparams, hcur₂, -⟩ := createBlock_spec ∅ hcreate
  have hopen₁ : IsOpen b₁ := (appends_hasTag (B := ∅) _ _ htag hopen fun _ hmem => hmem.elim).isOpen
  obtain ⟨n, hopen₁⟩ := hopen₁
  have hopen₂ : OpenBlock b₂ b₂.currentBlock n := by
    rw [hcur₂]
    exact he₂.openBlock hopen₁ (Set.notMem_empty _)
  obtain ⟨he₃, hcur₃, hopen₃, hparams₃, -, -⟩ := assertOrJmpTo_spec htest hparams hopen₂
  have hcurrent : b₂.currentBlock = b.currentBlock := hcur₂.trans hcur₁
  have hcheckGe : b.blocks.length ≤ check := by
    rw [hcheck]
    exact he₁.length
  have hcheckNe : check ≠ b₂.currentBlock := by
    rw [hcheck, hcur₂]
    exact Nat.ne_of_gt hopen₁.lt
  have hcheckOpen : OpenBlock b₃ check 0 := he₃.emitted.openBlock hnew hcheckNe
  have hcontinuation : b₂.blocks.length ≤ continuation := success_isNew htest hparams hopen₂
  have hcheckLt : check < b₂.blocks.length := hnew.lt
  have hbodyOpen : IsOpen { b₃ with currentBlock := check } := ⟨0, hcheckOpen⟩
  have he₄ : Emitted {check} b₃ b₄ :=
    (appends_markDirtyCode ∅ hcode hbodyOpen fun _ hmem => hmem.elim).emitted.of_scope
  have hcur₄ : b₄.currentBlock = check := markDirtyCode_current hcode hbodyOpen
  obtain ⟨m, hopen₄⟩ : IsOpen b₄ :=
    (appends_markDirtyCode ∅ hcode hbodyOpen fun _ hmem => hmem.elim).isOpen
  obtain ⟨he₅, hends₅, -, -⟩ := terminateBlock_spec hterm (by nofun) hopen₄
  have he₅' : Emitted {check} b₄ { b₅ with currentBlock := b₃.currentBlock } := by
    rw [hcur₄] at he₅
    exact he₅.trans (.of_eq rfl rfl rfl) fun _ hx _ => hx
  have hokLt : okBlock < b.blocks.length := hok.lt
  have hok₃ : OpenBlock b₃ okBlock k := by
    refine he₃.emitted.openBlock (he₂.openBlock (he₁.openBlock hok hne) (Set.notMem_empty _)) ?_
    rw [hcurrent]
    exact hne
  have hokNe : okBlock ∉ ({check} : Set Block) :=
    Nat.ne_of_lt (Nat.lt_of_lt_of_le hokLt hcheckGe)
  have hok₆ := he₅'.openBlock (he₄.openBlock hok₃ hokNe) hokNe
  obtain ⟨he₇, hends₇, hcur₇, -⟩ := terminateBlock_spec hfallback (by nofun) hok₆
  obtain rfl : continuation = b'.currentBlock := hcur₃.symm.trans hcur₇.symm
  have hcontCheck : b'.currentBlock ∉ ({check} : Set Block) :=
    Nat.ne_of_gt (Nat.lt_of_lt_of_le hcheckLt hcontinuation)
  have hcontOk : b'.currentBlock ∉ ({okBlock} : Set Block) :=
    Nat.ne_of_gt (Nat.lt_of_lt_of_le (Nat.lt_of_lt_of_le hokLt (he₁.length.trans he₂.length))
      hcontinuation)
  have he₃₇ : Emitted Set.univ b₃ b' :=
    ((he₄.trans he₅' fun _ hx _ => hx).mono (Set.subset_univ _)).trans he₇ fun _ _ _ =>
      Set.mem_univ _
  refine ⟨must, check, b₁, b₂, b₃, b₄, htag, hcreate, htest, hcode, ?_, hcheckOpen, ?_, ?_, he₃₇,
    (he₅'.mono (Set.subset_univ _)).trans he₇ fun _ _ _ =>
      Set.mem_univ _, ⟨m, ?_, hcur₄, ?_⟩, hends₇⟩
  · have hfirst : Emitted Set.univ b b₂ :=
      (he₁.mono (Set.subset_univ _)).trans he₂ fun _ _ _ => Set.mem_univ _
    exact (hfirst.trans he₃.emitted fun _ _ _ => Set.mem_univ _).trans he₃₇ fun _ _ _ =>
      Set.mem_univ _
  · exact he₇.openBlock (he₅'.openBlock (he₄.openBlock hopen₃ hcontCheck) hcontCheck) hcontOk
  · exact he₇.hasParams (he₅'.hasParams (he₄.hasParams hparams₃))
  · rw [hcur₄] at hopen₄
    exact hopen₄
  · rw [hcur₄] at hends₅
    exact he₇.ends hends₅

/-! ### Runs -/

variable {backend : JitBackend}
  {other : StmtKind → List (Val HostPtr) → HostState → Option (List (Val HostPtr) × HostState)}
  {K : List (HostFact L backend other)} {halts : ℕ → BitVec 32} {F : ExecIrBuilder}
  {c : Config (hostMachine L backend other)} {must : SSAValue} {check : Block}
  {b₁ b₂ b₃ b₄ : ExecIrBuilder} {page : Page} {s : HostState} {vaddr : BitVec 64} {entry : TlbEntry}

theorem computes_markDirty (hp : IsPtr tlbEntryPtr .tlb (.tlbEntry (probeIndex vaddr)) ∈ K)
    (hentry : s.tlb (probeIndex vaddr) = some entry) :
    Computes ∅ K s (markDirtyCode L tlbEntryPtr) (fun _ => [])
      { s with heap := s.heap.applyOne (.markDirty entry.page.mutableFlags) } := by
  refine Computes.bind (P := fun p => [IsPtr p .pageFlags (.pageFlags entry.page.mutableFlags)])
    (computes_loadTlbEntry hp (by rw [hentry]; exact loadTlbEntry_flags _)) fun insnDirtyPtr => ?_
  exact computes_setDirty List.mem_cons_self

/-- The host after the test of the dirty flag. -/
def dirtyState (page : Page) (s : HostState) : HostState :=
  { s with heap := s.heap.apply page.setDirty }

variable (halts) in
/-- A run that gets to the test of the dirty flag. -/
theorem DirtyChecked.inline
    (h : DirtyChecked L taggedPagePtr tlbEntryPtr okBlock k must check b b₁ b₂ b₃ b₄ b')
    (hF : Emitted Set.univ b' F) (hat : At b c) (hK : Knows K b c)
    (hpage : IsPage taggedPagePtr entry.page ∈ K)
    (hptr : IsPtr tlbEntryPtr .tlb (.tlbEntry (probeIndex vaddr)) ∈ K)
    (hentry : c.world.tlb (probeIndex vaddr) = some entry) :
    ∃ c', Follows backend halts F b c b' c' ∧ c'.world = dirtyState entry.page c.world := by
  have hexist : ∀ {b}, Exist ∅ b := fun _ hmem => hmem.elim
  obtain ⟨he₂, -, -, hparams, hcur₂, -⟩ := createBlock_spec ∅ h.create
  have hF₃ : Emitted Set.univ b₃ F := h.emitted₃.trans hF fun _ _ _ => Set.mem_univ _
  obtain ⟨n, hopen₁⟩ := (appends_hasTag (B := ∅) _ _ h.tag ⟨_, hat.2⟩ hexist).isOpen
  have hopen₂ : OpenBlock b₂ b₂.currentBlock n := by
    rw [hcur₂]
    exact he₂.openBlock hopen₁ (Set.notMem_empty _)
  obtain ⟨he₃, hcur₃, hopen₃, -⟩ := assertOrJmpTo_spec h.test hparams hopen₂
  have hF₁ : Emitted Set.univ b₁ F :=
    (he₂.mono (Set.empty_subset _)).trans (he₃.final hF₃) fun _ _ _ => Set.mem_univ _
  -- the tag is tested
  obtain ⟨c₁, hfollow₁, hknow₁, hworld₁⟩ :=
    (computes_hasTag hpage).runs h.tag hexist backend halts F hF₁ hat hK rfl
  have hfollow₂ := @Follows.of_makes _ _ _ _ backend halts F hfollow₁.at' he₂ hcur₂
  have hfollow := hfollow₁.trans hfollow₂
  have hmust : c₁.env must = .bool (entry.page.flags.containsAny MemFlags.MUST_DIRTY) := by
    rw [← hasTag_eq]
    exact (hknow₁ _ List.mem_cons_self).2
  obtain ⟨hgo, hjump⟩ := assertOrJmpTo_runs h.test hparams hF₃ hfollow₂.at'
  cases hdirty : entry.page.flags.containsAny MemFlags.MUST_DIRTY with
  | false =>
    rw [hdirty] at hmust
    obtain ⟨c₂, hfollow₃, hworld₂⟩ := hgo (by rw [hmust]; rfl)
    refine ⟨c₂, hfollow.trans (hfollow₃.trans ⟨Relation.ReflTransGen.refl, ?_, fun hf => ?_⟩), ?_⟩
    · have hpc : c₂.pc = 0 := by
        have hat₃ := hfollow₃.at'.2
        rw [hcur₃] at hat₃
        exact hat₃.length_unique hopen₃
      refine ⟨hfollow₃.at'.1.trans hcur₃, ?_⟩
      rw [hpc]
      exact h.isOpen
    · exact ⟨getElem?_of_isPrefix h.emitted₃.ssaValues hf.1, hf.2⟩
    · rw [hworld₂, hworld₁]
      unfold dirtyState Page.setDirty
      rw [hdirty]
      rfl
  | true =>
    rw [hdirty] at hmust
    obtain ⟨c₂, hjump, hworld₂⟩ := hjump (by rw [hmust]; rfl)
    have hat₃ : At { b₃ with currentBlock := check } c₂ := hjump.at_open h.checkOpen rfl
    have hknow₃ : Knows K { b₃ with currentBlock := check } c₂ :=
      hjump.knows (hfollow.knows hK) he₃.emitted.ssaValues
    have hworld : c₂.world = c.world := hworld₂.trans hworld₁
    have hF₄ : Emitted Set.univ b₄ F := h.emitted₄.trans hF fun _ _ _ => Set.mem_univ _
    obtain ⟨c₃, hfollow₃, -, hworld₃⟩ :=
      (computes_markDirty hptr hentry).runs h.body hexist backend halts F hF₄ hat₃ hknow₃ hworld
    obtain ⟨m, hopen₄, hcur₄, hends⟩ := h.checked
    have hblock₃ : c₃.block = check := hfollow₃.at'.1.trans hcur₄
    have hpc₃ : c₃.pc = m := by
      have hat₄ := hfollow₃.at'.2
      rw [hcur₄] at hat₄
      exact hat₄.length_unique hopen₄
    have hendsF : Ends F c₃.block m (.br ⟨b'.currentBlock, []⟩) := by
      rw [hblock₃]
      exact hF.ends hends
    refine ⟨{ c₃ with block := b'.currentBlock, pc := 0 }, ⟨?_, ⟨rfl, h.isOpen⟩, fun hf => ?_⟩,
      hworld₃.trans ?_⟩
    · exact hfollow.reaches.trans (hjump.reaches.trans (hfollow₃.reaches.trans
        (reaches_br hendsF hpc₃ (hF.hasParams h.params))))
    · have hf₂ := hfollow.facts hf
      have hf₄ :=
        hfollow₃.facts ⟨getElem?_of_isPrefix he₃.emitted.ssaValues hf₂.1, hjump.values hf₂⟩
      exact ⟨getElem?_of_isPrefix h.emitted₄.ssaValues hf₄.1, hf₄.2⟩
    · unfold dirtyState Page.setDirty
      rw [hdirty]
      rfl

variable (halts) in
/-- A run that comes from the fallback. -/
theorem DirtyChecked.fallback_reaches
    (h : DirtyChecked L taggedPagePtr tlbEntryPtr okBlock k must check b b₁ b₂ b₃ b₄ b')
    (hF : Emitted Set.univ b' F) (hblock : c.block = okBlock) (hpc : c.pc = k) :
    ∃ c', Follows backend halts F b c b' c' ∧ c'.world = c.world := by
  have hends : Ends F c.block k (.br ⟨b'.currentBlock, []⟩) := by
    rw [hblock]
    exact hF.ends h.fallback
  refine ⟨_, ⟨reaches_br hends hpc (hF.hasParams h.params), ⟨rfl, h.isOpen⟩, fun hf => ?_⟩, rfl⟩
  exact ⟨getElem?_of_isPrefix h.emitted.ssaValues hf.1, hf.2⟩

end Dirty

end RapidArm.Jit
