import RapidArm.Ir.Builder
import Mathlib.Data.Set.Basic

/-!
# What emitters leave unchanged

An emitter appends to the current block of a builder and may create blocks. What was there
before is still there afterwards (`Emitted`), and an emitter that ends at an open block can
be followed by another one (`Emits`).

Results:
* `Emitted.trans`, `Emits.trans`, and a rule for each primitive emitter.
* `emit_bind_ok`: how a sequence of emitters that succeeded is taken apart.
-/

namespace RapidArm.Jit

open RapidArm.Ir RapidArm.Lib ExecIrBuilder

/-! ## Extension -/

/-- The builder `b'` was made from `b` by emitters that only appended to the blocks of
    `touched`, and to them only while they were not terminated. -/
structure Emitted (touched : Set Block) (b b' : ExecIrBuilder) : Prop where
  ssaValues : b.ssaValues <+: b'.ssaValues
  stmts : b.stmts <+: b'.stmts
  length : b.blocks.length ≤ b'.blocks.length
  blocks : ∀ block data, b.blocks[block]? = some data → ∃ data', b'.blocks[block]? = some data' ∧
    data'.parameters = data.parameters ∧ data.stmts <+: data'.stmts ∧
    (data.terminated = true ∨ block ∉ touched → data'.stmts = data.stmts ∧
      data'.terminated = data.terminated ∧ data'.terminator = data.terminator)

/-- The builders differ in nothing that `Emitted` speaks about. -/
theorem Emitted.of_eq {touched : Set Block} {b b' : ExecIrBuilder} (hs : b'.ssaValues = b.ssaValues)
    (ht : b'.stmts = b.stmts) (hb : b'.blocks = b.blocks) : Emitted touched b b' where
  ssaValues := hs ▸ List.prefix_refl _
  stmts := ht ▸ List.prefix_refl _
  length := by rw [hb]
  blocks block data hdata := by
    rw [hb]
    exact ⟨data, hdata, rfl, List.prefix_refl _, fun _ => ⟨rfl, rfl, rfl⟩⟩

theorem Emitted.refl {touched : Set Block} (b : ExecIrBuilder) : Emitted touched b b :=
  .of_eq rfl rfl rfl

/-- Emitters one after the other; those that come later may touch blocks that are new. -/
theorem Emitted.trans {touched later : Set Block} {b b' b'' : ExecIrBuilder}
    (h : Emitted touched b b') (h' : Emitted later b' b'')
    (hsub : ∀ x ∈ later, x < b.blocks.length → x ∈ touched) :
    Emitted touched b b'' where
  ssaValues := h.ssaValues.trans h'.ssaValues
  stmts := h.stmts.trans h'.stmts
  length := h.length.trans h'.length
  blocks block data hdata := by
    obtain ⟨data', hdata', hparams, hstmts, hsame⟩ := h.blocks block data hdata
    obtain ⟨data'', hdata'', hparams', hstmts', hsame'⟩ := h'.blocks block data' hdata'
    refine ⟨data'', hdata'', hparams'.trans hparams, hstmts.trans hstmts', fun hkeep => ?_⟩
    obtain ⟨hs, hterm, ht⟩ := hsame hkeep
    have hkeep' : data'.terminated = true ∨ block ∉ later := by
      refine hkeep.imp (fun hold => hterm.trans hold) fun hnot hmem => hnot ?_
      exact hsub block hmem (getElem?_eq_some_lt hdata)
    obtain ⟨hs', hterm', ht'⟩ := hsame' hkeep'
    exact ⟨hs'.trans hs, hterm'.trans hterm, ht'.trans ht⟩

theorem Emitted.mono {touched more : Set Block} {b b' : ExecIrBuilder} (h : Emitted touched b b')
    (hsub : touched ⊆ more) : Emitted more b b' :=
  { h with
    blocks := fun block data hdata => by
      obtain ⟨data', hdata', hparams, hstmts, hsame⟩ := h.blocks block data hdata
      exact ⟨data', hdata', hparams, hstmts, fun hkeep =>
        hsame (hkeep.imp_right fun hnot hmem => hnot (hsub hmem))⟩ }

/-- Replacing the data of one block. -/
theorem Emitted.set_block {touched : Set Block} {b b' : ExecIrBuilder} {block : Block}
    {data data' : BlockData} (hs : b.ssaValues <+: b'.ssaValues) (ht : b.stmts <+: b'.stmts)
    (hdata : b.blocks[block]? = some data) (hblocks : b'.blocks = b.blocks.set block data')
    (hparams : data'.parameters = data.parameters) (hstmts : data.stmts <+: data'.stmts)
    (hsame : data.terminated = true ∨ block ∉ touched → data'.stmts = data.stmts ∧
      data'.terminated = data.terminated ∧ data'.terminator = data.terminator) :
    Emitted touched b b' where
  ssaValues := hs
  stmts := ht
  length := by rw [hblocks, List.length_set]
  blocks other d hd := by
    rw [hblocks]
    by_cases hother : other = block
    · subst hother
      obtain rfl : d = data := Option.some.inj (hd.symm.trans hdata)
      exact ⟨data', List.getElem?_set_self (getElem?_eq_some_lt hd), hparams, hstmts, hsame⟩
    · refine ⟨d, ?_, rfl, List.prefix_refl _, fun _ => ⟨rfl, rfl, rfl⟩⟩
      rw [List.getElem?_set_ne (Ne.symm hother)]
      exact hd

/-! ### Blocks -/

/-- A block that is not terminated and has `n` statements. -/
def OpenBlock (b : ExecIrBuilder) (block : Block) (n : ℕ) : Prop :=
  ∃ data, b.blocks[block]? = some data ∧ data.terminated = false ∧ data.stmts.length = n

/-- A block exists and has the parameters `params`. -/
def HasParams (b : ExecIrBuilder) (block : Block) (params : List SSAValue) : Prop :=
  ∃ data, b.blocks[block]? = some data ∧ data.parameters = params

/-- A block has `n` statements and ends in `t`, for good. -/
def Ends (b : ExecIrBuilder) (block : Block) (n : ℕ) (t : Terminator) : Prop :=
  ∃ data, b.blocks[block]? = some data ∧ data.terminated = true ∧ data.stmts.length = n ∧
    data.terminator = t

theorem OpenBlock.lt {b : ExecIrBuilder} {block : Block} {n : ℕ} (h : OpenBlock b block n) :
    block < b.blocks.length := by
  obtain ⟨data, hdata, -⟩ := h
  exact getElem?_eq_some_lt hdata

theorem HasParams.lt {b : ExecIrBuilder} {block : Block} {params : List SSAValue}
    (h : HasParams b block params) : block < b.blocks.length := by
  obtain ⟨data, hdata, -⟩ := h
  exact getElem?_eq_some_lt hdata

/-- A block that no emitter touched is as it was. -/
theorem Emitted.openBlock {touched : Set Block} {b b' : ExecIrBuilder} (h : Emitted touched b b')
    {block : Block} {n : ℕ} (hopen : OpenBlock b block n) (hnot : block ∉ touched) :
    OpenBlock b' block n := by
  obtain ⟨data, hdata, hterm, hlen⟩ := hopen
  obtain ⟨data', hdata', -, -, hsame⟩ := h.blocks block data hdata
  obtain ⟨hs, ht, -⟩ := hsame (.inr hnot)
  exact ⟨data', hdata', ht.trans hterm, by rw [hs, hlen]⟩

theorem Emitted.hasParams {touched : Set Block} {b b' : ExecIrBuilder} (h : Emitted touched b b')
    {block : Block} {params : List SSAValue} (hp : HasParams b block params) :
    HasParams b' block params := by
  obtain ⟨data, hdata, hparams⟩ := hp
  obtain ⟨data', hdata', hparams', -⟩ := h.blocks block data hdata
  exact ⟨data', hdata', hparams'.trans hparams⟩

theorem Emitted.ends {touched : Set Block} {b b' : ExecIrBuilder} (h : Emitted touched b b')
    {block : Block} {n : ℕ} {t : Terminator} (he : Ends b block n t) : Ends b' block n t := by
  obtain ⟨data, hdata, hterm, hlen, ht⟩ := he
  obtain ⟨data', hdata', -, -, hsame⟩ := h.blocks block data hdata
  obtain ⟨hs, hterm', ht'⟩ := hsame (.inl hterm)
  exact ⟨data', hdata', hterm'.trans hterm, by rw [hs, hlen], ht'.trans ht⟩

/-! ### Sequences of emitters -/

section Sequence

variable {α β : Type} {b b' : ExecIrBuilder}

theorem emit_bind_ok {m : BuilderM α} {f : α → BuilderM β} {r : β × ExecIrBuilder} :
    (m >>= f) b = .ok r ↔ ∃ a b₁, m b = .ok (a, b₁) ∧ f a b₁ = .ok r := by
  constructor
  · intro h
    obtain ⟨⟨a, b₁⟩, hm, hf⟩ := bind_eq_ok.1 h
    exact ⟨a, b₁, hm, hf⟩
  · rintro ⟨a, b₁, hm, hf⟩
    exact bind_eq_ok.2 ⟨(a, b₁), hm, hf⟩

theorem emit_pure_ok {a r : α} : (pure a : BuilderM α) b = .ok (r, b') ↔ a = r ∧ b = b' := by
  show Except.ok (a, b) = Except.ok (r, b') ↔ _
  rw [Except.ok.injEq, Prod.mk.injEq]

theorem emit_require_ok {p : Prop} [Decidable p] {e : Panic} {u : Unit} :
    (liftM (require p e) : BuilderM Unit) b = .ok (u, b') ↔ p ∧ b = b' := by
  constructor
  · intro h
    obtain ⟨⟨⟩, hp, h⟩ := bind_eq_ok.1 h
    exact ⟨require_eq_ok.1 hp, (Prod.mk.inj (Except.ok.inj h)).2⟩
  · rintro ⟨hp, rfl⟩
    exact bind_eq_ok.2 ⟨(), require_eq_ok.2 hp, rfl⟩

/-- The scope of a block ends where it began. -/
theorem blockScope_ok {m : BuilderM α} {block : Block} {a : α} :
    blockScope block m b = .ok (a, b') ↔
      ∃ b₁, m { b with currentBlock := block } = .ok (a, b₁) ∧
        b' = { b₁ with currentBlock := b.currentBlock } := by
  constructor
  · intro h
    obtain ⟨⟨r, b₁⟩, hm, h⟩ := bind_eq_ok.1 h
    obtain ⟨rfl, rfl⟩ := Prod.mk.inj (Except.ok.inj h)
    exact ⟨b₁, hm, rfl⟩
  · rintro ⟨b₁, hm, rfl⟩
    exact bind_eq_ok.2 ⟨(a, b₁), hm, rfl⟩

end Sequence

/-! ### Primitive emitters -/

section Emitters

variable {b b' : ExecIrBuilder} {touched : Set Block}

theorem createBlock_spec (touched : Set Block) {block : Block}
    (h : createBlock b = .ok (block, b')) :
    Emitted touched b b' ∧ block = b.blocks.length ∧ OpenBlock b' block 0 ∧ HasParams b' block [] ∧
      b'.currentBlock = b.currentBlock ∧ b'.ssaValues = b.ssaValues := by
  obtain ⟨rfl, rfl⟩ := Prod.mk.inj (Except.ok.inj h)
  have hget : (b.blocks ++ [BlockData.empty])[b.blocks.length]? = some BlockData.empty :=
    List.getElem?_concat_length
  refine ⟨⟨List.prefix_refl _, List.prefix_refl _, by simp, fun block data hdata => ?_⟩, rfl,
    ⟨_, hget, rfl, rfl⟩, ⟨_, hget, rfl⟩, rfl, rfl⟩
  refine ⟨data, ?_, rfl, List.prefix_refl _, fun _ => ⟨rfl, rfl, rfl⟩⟩
  rw [List.getElem?_append_left (getElem?_eq_some_lt hdata)]
  exact hdata

theorem switchTo_spec (touched : Set Block) {block : Block} (h : switchTo block b = .ok ((), b')) :
    Emitted touched b b' ∧ b'.currentBlock = block ∧ b'.ssaValues = b.ssaValues ∧
      b'.blocks = b.blocks := by
  obtain ⟨-, rfl⟩ := Prod.mk.inj (Except.ok.inj h)
  exact ⟨.of_eq rfl rfl rfl, rfl, rfl, rfl⟩

theorem markBlockBold_spec (touched : Set Block) {block : Block}
    (h : markBlockBold block b = .ok ((), b')) :
    Emitted touched b b' ∧ b'.currentBlock = b.currentBlock ∧ b'.ssaValues = b.ssaValues := by
  unfold ExecIrBuilder.markBlockBold at h
  split_ifs at h
  · obtain ⟨-, rfl⟩ := Prod.mk.inj (Except.ok.inj h)
    exact ⟨.refl b, rfl, rfl⟩
  · simp only [bind_eq_ok, arenaGet_eq_ok, pure_eq_ok] at h
    obtain ⟨data, hdata, hb'⟩ := h
    obtain ⟨-, rfl⟩ := Prod.mk.inj hb'
    exact ⟨.set_block (List.prefix_refl _) (List.prefix_refl _) hdata rfl rfl (List.prefix_refl _)
      fun _ => ⟨rfl, rfl, rfl⟩, rfl, rfl⟩

/-- Terminating a block; a test with two different targets stays a test. -/
theorem terminateBlock_spec {block : Block} {t : Terminator}
    (h : terminateBlock block t b = .ok ((), b')) (hdiff : ∀ cond jump, t ≠ .brZ cond jump jump)
    {n : ℕ} (hopen : OpenBlock b block n) :
    Emitted {block} b b' ∧ Ends b' block n t ∧ b'.currentBlock = b.currentBlock ∧
      b'.ssaValues = b.ssaValues := by
  obtain ⟨t', data, ht', -, hdata, hterm, rfl⟩ := terminateBlock_eq_ok h
  obtain rfl : t' = t := by
    rcases checkTerminator_cases ht' with heq | ⟨cond, jump, heq, -⟩
    · exact heq
    · exact (hdiff cond jump heq).elim
  obtain ⟨d, hd, -, hlen⟩ := hopen
  obtain rfl : d = data := Option.some.inj (hd.symm.trans hdata)
  refine ⟨.set_block (List.prefix_refl _) (List.prefix_refl _) hdata rfl rfl
    (List.prefix_refl _) ?_,
    ⟨_, List.getElem?_set_self (getElem?_eq_some_lt hd), rfl, hlen, rfl⟩, rfl, rfl⟩
  rintro (hold | hnot)
  · rw [hterm] at hold
    cases hold
  · exact (hnot rfl).elim

/-- Terminating an open block does not panic. -/
theorem terminateBlock_ok {block : Block} {t : Terminator} (ht : b.checkTerminator t = .ok t)
    (hentry : Block.ENTRYPOINT ∉ t.blockTargets) {n : ℕ} (hopen : OpenBlock b block n) :
    ∃ b', terminateBlock block t b = .ok ((), b') := by
  obtain ⟨data, hdata, hterm, -⟩ := hopen
  exact ⟨_, bind_eq_ok.2 ⟨t, ht, bind_eq_ok.2 ⟨(), require_eq_ok.2 hentry,
    bind_eq_ok.2 ⟨data, arenaGet_eq_ok.2 hdata, bind_eq_ok.2 ⟨(), require_eq_ok.2 hterm, rfl⟩⟩⟩⟩⟩

/-- The new statement `stmt` with data `data` is the `n`-th one of the current block. -/
theorem emitStmtFull_spec {k : ℕ} {rvalue : StmtKind} {outputs : List SSAValue}
    (h : emitStmtFull k rvalue b = .ok (outputs, b')) {n : ℕ}
    (hopen : OpenBlock b b.currentBlock n) :
    Emitted {b.currentBlock} b b' ∧ OpenBlock b' b.currentBlock (n + 1) ∧
      b'.currentBlock = b.currentBlock ∧
      (∃ tys, b.typeOf rvalue = .ok tys ∧ tys.length = k ∧ b'.ssaValues = b.ssaValues ++ tys) ∧
      outputs = List.range' b.ssaValues.length k ∧
      ∃ data, b'.blocks[b.currentBlock]? = some data ∧ data.stmts[n]? = some b.stmts.length ∧
        b'.stmts[b.stmts.length]? = some ⟨outputs, rvalue⟩ := by
  obtain ⟨tys, data, htys, rfl, hdata, rfl, rfl⟩ := emitStmtFull_eq_ok h
  obtain ⟨d, hd, hterm, rfl⟩ := hopen
  obtain rfl : d = data := Option.some.inj (hd.symm.trans hdata)
  have hget := List.getElem?_set_self (a := { d with stmts := d.stmts ++ [b.stmts.length] })
    (getElem?_eq_some_lt hd)
  refine ⟨.set_block (List.prefix_append _ _) (List.prefix_append _ _) hd rfl rfl
    (List.prefix_append _ _) ?_, ⟨_, hget, hterm, by simp⟩, rfl, ⟨tys, htys, rfl, rfl⟩, rfl, _,
    hget, ?_, ?_⟩
  · rintro (hold | hnot)
    · rw [hterm] at hold
      cases hold
    · exact (hnot rfl).elim
  · simp
  · simp [pushStmt]

/-- A new value in a list of outputs of length one. -/
theorem emit1RetStmt_eq_ok {rvalue : StmtKind} {v : SSAValue}
    (h : emit1RetStmt rvalue b = .ok (v, b')) :
    emitStmtFull 1 rvalue b = .ok ([v], b') := by
  unfold emit1RetStmt at h
  obtain ⟨⟨outputs, b₁⟩, hemit, hrest⟩ := bind_eq_ok.1 h
  obtain ⟨tys, data, -, hlen, -, hout, -⟩ := emitStmtFull_eq_ok hemit
  rw [hlen] at hout
  rw [hout] at hrest hemit
  obtain ⟨rfl, rfl⟩ := Prod.mk.inj (Except.ok.inj hrest)
  exact hemit

theorem emitVoidStmt_eq_ok {rvalue : StmtKind} (h : emitVoidStmt rvalue b = .ok ((), b')) :
    emitStmtFull 0 rvalue b = .ok ([], b') := by
  unfold emitVoidStmt at h
  obtain ⟨⟨outputs, b₁⟩, hemit, hrest⟩ := bind_eq_ok.1 h
  obtain ⟨tys, data, -, hlen, -, hout, -⟩ := emitStmtFull_eq_ok hemit
  rw [hlen] at hout
  rw [hout] at hemit
  obtain ⟨-, rfl⟩ := Prod.mk.inj (Except.ok.inj hrest)
  exact hemit

/-! ### Emitting at the current block -/

/-- The current block is not terminated. -/
def IsOpen (b : ExecIrBuilder) : Prop := ∃ n, OpenBlock b b.currentBlock n

/-- Emitters that append to the current block, and may go on in a new one. -/
structure Emits (b b' : ExecIrBuilder) : Prop where
  emitted : Emitted {b.currentBlock} b b'
  isOpen : IsOpen b'
  current : b'.currentBlock = b.currentBlock ∨ b.blocks.length ≤ b'.currentBlock

theorem Emits.refl (h : IsOpen b) : Emits b b := ⟨.refl b, h, .inl rfl⟩

theorem Emits.trans {b'' : ExecIrBuilder} (h : Emits b b') (h' : Emits b' b'') : Emits b b'' where
  emitted := by
    refine h.emitted.trans h'.emitted ?_
    rintro x rfl hlt
    rcases h.current with heq | hge
    · exact heq
    · exact absurd hlt (Nat.not_lt.2 hge)
  isOpen := h'.isOpen
  current := by
    rcases h'.current with heq | hge
    · rw [heq]
      exact h.current
    · exact .inr (h.emitted.length.trans hge)

/-- What is emitted for good. -/
theorem Emits.final (h : Emits b b') {b'' : ExecIrBuilder} (h' : Emitted Set.univ b' b'') :
    Emitted Set.univ b b'' :=
  (h.emitted.mono (Set.subset_univ _)).trans h' fun _ _ _ => Set.mem_univ _

theorem Emits.stmt {k : ℕ} {rvalue : StmtKind} {outputs : List SSAValue}
    (h : emitStmtFull k rvalue b = .ok (outputs, b')) (hopen : IsOpen b) : Emits b b' := by
  obtain ⟨n, hopen⟩ := hopen
  obtain ⟨hemitted, hopen', hcur, -⟩ := emitStmtFull_spec h hopen
  exact ⟨hemitted, ⟨_, by rw [hcur]; exact hopen'⟩, .inl hcur⟩

theorem Emits.stmt1 {rvalue : StmtKind} {v : SSAValue} (h : emit1RetStmt rvalue b = .ok (v, b'))
    (hopen : IsOpen b) : Emits b b' :=
  .stmt (emit1RetStmt_eq_ok h) hopen

theorem Emits.void {rvalue : StmtKind} (h : emitVoidStmt rvalue b = .ok ((), b'))
    (hopen : IsOpen b) :
    Emits b b' :=
  .stmt (emitVoidStmt_eq_ok h) hopen

end Emitters

end RapidArm.Jit
