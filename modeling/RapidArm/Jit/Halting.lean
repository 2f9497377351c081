import RapidArm.Jit.Flags

/-!
# Emitters of blocks of their own

`assert_or_jmp_to` jumps to a block that was made before, most often to one that returns a halt
reason (`make_halt_block`, `jit-compiler-core/src/ir/mod.rs`, lines 2101–2111). `Halts` is the
triple of code that returns, `Makes` says that an emitter makes a block and leaves the current one
as it is, and `MakesHalt` what the code of that block returns.

Results:
* `Computes.bind_halts`, `Halts.bind`, `MakesHalt.computes_bind`, `MakesHalt.halts_bind`: sequences
  of emitters.
* `makesHalt_block`: a new block with code that returns.
* `makesHalt_haltBlock`: `make_halt_block`.
-/

namespace RapidArm.Jit

open RapidArm.Ir RapidArm.Lib RapidArm.Backend ExecIrBuilder

/-! ## Emitters that end a block -/

/-- The emitter only appends to the current block. It may terminate it. -/
def Closes (m : BuilderM Unit) : Prop :=
  ∀ {b b'}, m b = .ok ((), b') → IsOpen b → Emitted {b.currentBlock} b b'

/-- The emitter makes a block without parameters, and leaves the current one as it is. -/
def Makes (m : BuilderM Block) : Prop :=
  ∀ {b block b'}, m b = .ok (block, b') → IsOpen b → Emitted ∅ b b' ∧
    b'.currentBlock = b.currentBlock ∧ block ≠ Block.ENTRYPOINT ∧ HasParams b' block []

section Syntax

variable {α : Type} {B : Set Block} {b b' : ExecIrBuilder}

/-- The current block is open in a builder that did not touch it. -/
theorem IsOpen.emitted (h : IsOpen b) (he : Emitted ∅ b b')
    (hcur : b'.currentBlock = b.currentBlock) :
    IsOpen b' := by
  obtain ⟨n, hopen⟩ := h
  refine ⟨n, ?_⟩
  rw [hcur]
  exact he.openBlock hopen (Set.notMem_empty _)

theorem Emits.of_emitted (h : IsOpen b) (he : Emitted ∅ b b')
    (hcur : b'.currentBlock = b.currentBlock) :
    Emits b b' :=
  ⟨he.mono (Set.empty_subset _), h.emitted he hcur, .inl hcur⟩

/-- Where a builder emits is no part of what was emitted. -/
theorem Emitted.of_scope {touched : Set Block} {block : Block}
    (h : Emitted touched { b with currentBlock := block } b') : Emitted touched b b' where
  ssaValues := h.ssaValues
  stmts := h.stmts
  length := h.length
  blocks := h.blocks

theorem Exist.insert {block : Block} (h : Exist B b) (hne : block ≠ Block.ENTRYPOINT)
    (hparams : HasParams b block []) : Exist (insert block B) b := by
  intro other hother
  rcases Set.mem_insert_iff.1 hother with rfl | hmem
  · exact ⟨hne, hparams⟩
  · exact h other hmem

theorem Closes.of_bind {m : BuilderM α} {f : α → BuilderM Unit} (hm : Appends ∅ m)
    (hf : ∀ a, Closes (f a)) : Closes (m >>= f) := by
  intro b b' h hopen
  obtain ⟨a, b₁, h₁, h₂⟩ := emit_bind_ok.1 h
  have he := hm h₁ hopen fun _ hmem => hmem.elim
  refine he.emitted.trans (hf a h₂ he.isOpen) ?_
  rintro x rfl hlt
  rcases he.current with heq | hge
  · exact heq
  · exact absurd hlt (Nat.not_lt.2 hge)

theorem Makes.appends_bind {m : BuilderM Block} {f : Block → BuilderM α} (hm : Makes m)
    (hf : ∀ block, Appends (insert block B) (f block)) : Appends B (m >>= f) := by
  intro b a b' h hopen hexist
  obtain ⟨block, b₁, h₁, h₂⟩ := emit_bind_ok.1 h
  obtain ⟨he, hcur, hne, hparams⟩ := hm h₁ hopen
  have hemits := Emits.of_emitted hopen he hcur
  exact hemits.trans (hf block h₂ hemits.isOpen ((hexist.emitted he).insert hne hparams))

/-- A block that an emitter appends to, in a scope of its own. -/
theorem makes_block {m : BuilderM Unit} (hm : Closes m) : Makes (do
    let block ← createBlock
    blockScope block m
    return block) := by
  intro b block b' h hopen
  obtain ⟨_, b₁, hcreate, h⟩ := emit_bind_ok.1 h
  obtain ⟨_, b₂, hscope, h⟩ := emit_bind_ok.1 h
  obtain ⟨rfl, rfl⟩ := emit_pure_ok.1 h
  obtain ⟨b₃, hbody, rfl⟩ := blockScope_ok.1 hscope
  obtain ⟨he, hblk, hnew, hparams, hcur, -⟩ := createBlock_spec ∅ hcreate
  have hbodyE := (hm hbody ⟨0, hnew⟩).of_scope
  have hemitted : Emitted ∅ b b₃ := by
    refine he.trans hbodyE ?_
    rintro x rfl hlt
    exact absurd hlt (Nat.not_lt.2 (Nat.le_of_eq hblk.symm))
  obtain ⟨n, hcurrent⟩ := hopen
  refine ⟨hemitted.trans (.of_eq rfl rfl rfl) fun x hx _ => hx, hcur, ?_, ?_⟩
  · rw [hblk]
    exact Nat.ne_of_gt (Nat.lt_of_le_of_lt (Nat.zero_le _) hcurrent.lt)
  · exact hbodyE.hasParams hparams

/-- A block that exists is marked. -/
theorem markBlockBold_ok {block : Block} (h : block < b.blocks.length) :
    ∃ b', markBlockBold block b = .ok ((), b') := by
  unfold ExecIrBuilder.markBlockBold
  split_ifs
  · exact ⟨b, rfl⟩
  · exact ⟨_, bind_eq_ok.2 ⟨b.blocks[block], arenaGet_eq_ok.2 (List.getElem?_eq_getElem h), rfl⟩⟩

/-- The end of a cold block: a return of the halt reason `v`. -/
theorem closes_returnCode (v : SSAValue) : Closes (do
    terminate (.returnCode v)
    markCurrentBlockCold) := by
  intro b b' h hopen
  obtain ⟨_, b₁, hterm, hcold⟩ := emit_bind_ok.1 h
  obtain ⟨n, hopen⟩ := hopen
  obtain ⟨he, -⟩ := terminateBlock_spec hterm (by nofun) hopen
  obtain ⟨he', -⟩ := markBlockBold_spec ∅ hcold
  exact he.trans he' fun _ hx _ => hx.elim

end Syntax

/-! ## Code that returns -/

section Triples

variable {M : Machine} {α β : Type}

/-- The code of `m` returns the halt reason `code` and leaves the world `w'`. -/
structure Halts (B : Set Block) (K : List (Fact M)) (w : M.World) (m : BuilderM α)
    (code : BitVec 32) (w' : M.World) : Prop where
  emits : ∀ {b a b'}, m b = .ok (a, b') → IsOpen b → Exist B b → Typed K b → Emits b b'
  runs : ∀ {b a b'}, m b = .ok (a, b') → Exist B b → ∀ backend halts F, Emitted Set.univ b' F →
    ∀ {c}, At b c → Knows K b c → c.world = w → HaltsWith backend halts F c code w'

/-- The code of `m` ends the current block: it returns `code` and leaves the world `w'`. -/
structure Finishes (K : List (Fact M)) (w : M.World) (m : BuilderM Unit) (code : BitVec 32)
    (w' : M.World) : Prop where
  total : ∀ {b}, IsOpen b → Typed K b → ∃ r, m b = .ok r
  closes : Closes m
  runs : ∀ {b b'}, m b = .ok ((), b') → ∀ backend halts F, Emitted Set.univ b' F →
    ∀ {c}, At b c → Knows K b c → c.world = w → HaltsWith backend halts F c code w'

/-- The emitter makes a block, the code of which returns `code`. -/
structure MakesHalt (K : List (Fact M)) (w : M.World) (m : BuilderM Block) (code : BitVec 32)
    (w' : M.World) : Prop where
  total : ∀ {b}, IsOpen b → Typed K b → ∃ r, m b = .ok r
  makes : Makes m
  runs : ∀ {b block b'}, m b = .ok (block, b') → IsOpen b → ∀ backend halts F,
    Emitted Set.univ b' F → ∀ {c}, c.block = block → c.pc = 0 → Knows K b c → c.world = w →
      HaltsWith backend halts F c code w'

variable {B : Set Block} {K K₀ : List (Fact M)} {w w₁ w' : M.World} {code : BitVec 32}
  {b b' : ExecIrBuilder} {c : Config M}

/-! ### Sequences -/

theorem Computes.bind_halts {m : BuilderM α} {f : α → BuilderM β} {P : α → List (Fact M)}
    (hm : Computes B K w m P w₁) (hf : ∀ a, Halts B (P a ++ K) w₁ (f a) code w') :
    Halts B K w (m >>= f) code w' where
  emits h hopen hexist hK := by
    obtain ⟨a, b₁, h₁, h₂⟩ := emit_bind_ok.1 h
    obtain ⟨he, hfacts⟩ := hm.emits h₁ hopen hexist hK
    exact he.trans ((hf a).emits h₂ he.isOpen (hexist.emitted he.emitted)
      (hfacts.append (hK.emitted he.emitted)))
  runs h hexist backend halts F hF c hat hK hw := by
    obtain ⟨a, b₁, h₁, h₂⟩ := emit_bind_ok.1 h
    obtain ⟨he, hfacts⟩ := hm.emits h₁ ⟨_, hat.2⟩ hexist hK.typed
    have hexist₁ := hexist.emitted he.emitted
    have he' := (hf a).emits h₂ he.isOpen hexist₁ (hfacts.append (hK.typed.emitted he.emitted))
    obtain ⟨c₁, hfollow, hknow, hw₁⟩ := hm.runs h₁ hexist backend halts F (he'.final hF) hat hK hw
    exact HaltsWith.of_reaches hfollow.reaches
      ((hf a).runs h₂ hexist₁ backend halts F hF hfollow.at'
      (hknow.append (hfollow.knows hK)) hw₁)

/-- What is emitted after the return is not run. -/
theorem Halts.bind {m : BuilderM α} {f : α → BuilderM β} (hm : Halts B K w m code w')
    (hf : ∀ a, Appends B (f a)) : Halts B K w (m >>= f) code w' where
  emits h hopen hexist hK := by
    obtain ⟨a, b₁, h₁, h₂⟩ := emit_bind_ok.1 h
    have he := hm.emits h₁ hopen hexist hK
    exact he.trans (hf a h₂ he.isOpen (hexist.emitted he.emitted))
  runs h hexist backend halts F hF c hat hK hw := by
    obtain ⟨a, b₁, h₁, h₂⟩ := emit_bind_ok.1 h
    have he := hm.emits h₁ ⟨_, hat.2⟩ hexist hK.typed
    have he' := hf a h₂ he.isOpen (hexist.emitted he.emitted)
    exact hm.runs h₁ hexist backend halts F (he'.final hF) hat hK hw

theorem Computes.bind_finishes {m : BuilderM α} {f : α → BuilderM Unit} {P : α → List (Fact M)}
    (hm : Computes ∅ K w m P w₁) (happends : Appends ∅ m)
    (hf : ∀ a, Finishes (P a ++ K) w₁ (f a) code w') : Finishes K w (m >>= f) code w' where
  total hopen hK := by
    have hexist : ∀ {b}, Exist ∅ b := fun _ hmem => hmem.elim
    obtain ⟨⟨a, b₁⟩, h₁⟩ := hm.total hopen hexist hK
    obtain ⟨he, hfacts⟩ := hm.emits h₁ hopen hexist hK
    obtain ⟨r, h₂⟩ := (hf a).total he.isOpen (hfacts.append (hK.emitted he.emitted))
    exact ⟨r, emit_bind_ok.2 ⟨a, b₁, h₁, h₂⟩⟩
  closes := Closes.of_bind happends fun a => (hf a).closes
  runs h backend halts F hF c hat hK hw := by
    have hexist : ∀ {b}, Exist ∅ b := fun _ hmem => hmem.elim
    obtain ⟨a, b₁, h₁, h₂⟩ := emit_bind_ok.1 h
    obtain ⟨he, hfacts⟩ := hm.emits h₁ ⟨_, hat.2⟩ hexist hK.typed
    have hfinal := ((hf a).closes h₂ he.isOpen).mono (Set.subset_univ _) |>.trans hF fun _ _ _ =>
      Set.mem_univ _
    obtain ⟨c₁, hfollow, hknow, hw₁⟩ := hm.runs h₁ hexist backend halts F hfinal hat hK hw
    exact HaltsWith.of_reaches hfollow.reaches ((hf a).runs h₂ backend halts F hF hfollow.at'
      (hknow.append (hfollow.knows hK)) hw₁)

/-- The return of a value that is known to be the halt reason. -/
theorem finishes_returnCode {v : SSAValue} {width : IntWidth}
    (hv : ⟨v, .int width, M.haltReason code⟩ ∈ K) : Finishes K w (do
      terminate (.returnCode v)
      markCurrentBlockCold) code w where
  total hopen hK := by
    obtain ⟨n, hopen⟩ := hopen
    have hcheck : checkTerminator _ (.returnCode v) = .ok (.returnCode v) :=
      bind_eq_ok.2 ⟨_, arenaGet_eq_ok.2 (hK _ hv), rfl⟩
    obtain ⟨b₁, hterm⟩ := terminateBlock_ok hcheck (by nofun) hopen
    obtain ⟨he, -, hcur, -⟩ := terminateBlock_spec hterm (by nofun) hopen
    have hlt : b₁.currentBlock < b₁.blocks.length := by
      rw [hcur]
      exact Nat.lt_of_lt_of_le hopen.lt he.length
    obtain ⟨b₂, hcold⟩ := markBlockBold_ok hlt
    exact ⟨((), b₂), emit_bind_ok.2 ⟨(), b₁, hterm, hcold⟩⟩
  closes := closes_returnCode v
  runs h backend halts F hF c hat hK hw := by
    obtain ⟨_, b₁, hterm, hcold⟩ := emit_bind_ok.1 h
    obtain ⟨hblock, hopen⟩ := hat
    obtain ⟨-, hends, -⟩ := terminateBlock_spec hterm (by nofun) hopen
    obtain ⟨he, -⟩ := markBlockBold_spec ∅ hcold
    have hend : Ends F c.block c.pc (.returnCode v) := by
      rw [hblock]
      exact hF.ends (he.ends hends)
    refine ⟨c, v, Relation.ReflTransGen.refl, hw, (next_at_end hend rfl).trans ?_⟩
    show Next.done (.term (.returnCode v) [c.env v]) = _
    rw [(hK _ hv).2]

/-! ### Blocks -/

/-- A new block with code that returns. -/
theorem makesHalt_block {m : BuilderM Unit} (hm : Finishes K w m code w') : MakesHalt K w (do
    let block ← createBlock
    blockScope block m
    return block) code w' where
  makes := makes_block hm.closes
  total {b} hopen hK := by
    have hcreate : createBlock b =
        .ok (b.blocks.length, { b with blocks := b.blocks ++ [BlockData.empty] }) := rfl
    obtain ⟨he, -, hnew, -, -, -⟩ := createBlock_spec ∅ hcreate
    obtain ⟨⟨_, b₁⟩, hbody⟩ := hm.total (b := { b with
      blocks := b.blocks ++ [BlockData.empty], currentBlock := b.blocks.length }) ⟨0, hnew⟩ hK
    exact ⟨_, emit_bind_ok.2 ⟨_, _, hcreate,
      emit_bind_ok.2 ⟨(), _, blockScope_ok.2 ⟨b₁, hbody, rfl⟩, rfl⟩⟩⟩
  runs {b block b'} h hopen backend halts F hF c hblock hpc hK hw := by
    obtain ⟨_, b₁, hcreate, h⟩ := emit_bind_ok.1 h
    obtain ⟨_, b₂, hscope, h⟩ := emit_bind_ok.1 h
    obtain ⟨rfl, rfl⟩ := emit_pure_ok.1 h
    obtain ⟨b₃, hbody, rfl⟩ := blockScope_ok.1 hscope
    obtain ⟨he, -, hnew, -, -, -⟩ := createBlock_spec ∅ hcreate
    refine hm.runs hbody backend halts F hF.of_scope ⟨hblock, ?_⟩ ?_ hw
    · rw [hpc]
      exact hnew
    · exact fun f hf => ⟨getElem?_of_isPrefix he.ssaValues (hK f hf).1, (hK f hf).2⟩

/-- The run does not see that a block was made. -/
theorem Follows.of_makes {backend : JitBackend} {halts : ℕ → BitVec 32} {F : ExecIrBuilder}
    (hat : At b c) (he : Emitted ∅ b b') (hcur : b'.currentBlock = b.currentBlock) :
    Follows backend halts F b c b' c where
  reaches := Relation.ReflTransGen.refl
  at' := by
    refine ⟨hat.1.trans hcur.symm, ?_⟩
    rw [hcur]
    exact he.openBlock hat.2 (Set.notMem_empty _)
  facts hf := ⟨getElem?_of_isPrefix he.ssaValues hf.1, hf.2⟩

theorem MakesHalt.computes_bind {m : BuilderM Block} {f : Block → BuilderM β}
    {Q : β → List (Fact M)} {w₀ : M.World} (hm : MakesHalt K₀ w₀ m code w₁) (hsub : ∀ f ∈ K₀, f ∈ K)
    (hf : ∀ block, Computes (insert block B) K w (f block) Q w') :
    Computes B K w (m >>= f) Q w' where
  total hopen hexist hK := by
    obtain ⟨⟨block, b₁⟩, h₁⟩ := hm.total hopen fun f hf => hK f (hsub f hf)
    obtain ⟨he, hcur, hne, hparams⟩ := hm.makes h₁ hopen
    obtain ⟨r, h₂⟩ := (hf block).total (hopen.emitted he hcur)
      ((hexist.emitted he).insert hne hparams) (hK.emitted he)
    exact ⟨r, emit_bind_ok.2 ⟨block, b₁, h₁, h₂⟩⟩
  emits h hopen hexist hK := by
    obtain ⟨block, b₁, h₁, h₂⟩ := emit_bind_ok.1 h
    obtain ⟨he, hcur, hne, hparams⟩ := hm.makes h₁ hopen
    have hemits := Emits.of_emitted hopen he hcur
    obtain ⟨he', hfacts⟩ := (hf block).emits h₂ hemits.isOpen
      ((hexist.emitted he).insert hne hparams) (hK.emitted he)
    exact ⟨hemits.trans he', hfacts⟩
  runs h hexist backend halts F hF c hat hK hw := by
    obtain ⟨block, b₁, h₁, h₂⟩ := emit_bind_ok.1 h
    obtain ⟨he, hcur, hne, hparams⟩ := hm.makes h₁ ⟨_, hat.2⟩
    have hfollow := @Follows.of_makes _ _ _ _ backend halts F hat he hcur
    obtain ⟨c', hfollow', hknow, hw'⟩ := (hf block).runs h₂ ((hexist.emitted he).insert hne hparams)
      backend halts F hF hfollow.at' (hfollow.knows hK) hw
    exact ⟨c', hfollow.trans hfollow', hknow, hw'⟩

/-- A block is made and jumped to. -/
theorem MakesHalt.halts_bind {m : BuilderM Block} {f : Block → BuilderM β}
    (hm : MakesHalt K₀ w₁ m code w') (hsub : ∀ f ∈ K₀, f ∈ K)
    (hf : ∀ block, Leaves (insert block B) K w (f block) block w₁) :
    Halts B K w (m >>= f) code w' where
  emits h hopen hexist hK := by
    obtain ⟨block, b₁, h₁, h₂⟩ := emit_bind_ok.1 h
    obtain ⟨he, hcur, hne, hparams⟩ := hm.makes h₁ hopen
    have hemits := Emits.of_emitted hopen he hcur
    exact hemits.trans ((hf block).emits h₂ hemits.isOpen ((hexist.emitted he).insert hne hparams)
      (hK.emitted he))
  runs h hexist backend halts F hF c hat hK hw := by
    obtain ⟨block, b₁, h₁, h₂⟩ := emit_bind_ok.1 h
    have hopen : IsOpen _ := ⟨_, hat.2⟩
    obtain ⟨he, hcur, hne, hparams⟩ := hm.makes h₁ hopen
    have hexist₁ := (hexist.emitted he).insert hne hparams
    have hfollow := @Follows.of_makes _ _ _ _ backend halts F hat he hcur
    have hknow := hfollow.knows hK
    obtain ⟨c', hjump, hw'⟩ :=
      (hf block).runs h₂ hexist₁ backend halts F hF hfollow.at' hknow hw
    have he' := (hf block).emits h₂ (hopen.emitted he hcur) hexist₁ hknow.typed
    refine HaltsWith.of_reaches hjump.reaches (hm.runs h₁ hopen backend halts F (he'.final hF)
      hjump.block hjump.pc (fun f hf => ?_) hw')
    exact ⟨(hK f (hsub f hf)).1, hjump.values (hknow f (hsub f hf))⟩

end Triples

/-! ## `make_halt_block` -/

section HaltBlock

variable {L : Layout} {backend : JitBackend}
  {other : StmtKind → List (Val HostPtr) → HostState → Option (List (Val HostPtr) × HostState)}
  {K : List (HostFact L backend other)} {s : HostState}

theorem makes_haltBlock (reason : BitVec 32) : Makes (makeHaltBlock reason) :=
  makes_block (Closes.of_bind (appends_emit1 _) fun v => closes_returnCode v)

theorem makesHalt_haltBlock (reason : BitVec 32) :
    MakesHalt K s (makeHaltBlock reason) reason s := by
  refine makesHalt_block ((computes_u32 reason).bind_finishes (appends_emit1 _) fun v => ?_)
  exact finishes_returnCode List.mem_cons_self

end HaltBlock

end RapidArm.Jit
