import RapidArm.Jit.Staged
import RapidArm.Jit.Emitters
import RapidArm.Backend.BlockParams
import Mathlib.Logic.Relation

/-!
# Running code while it is emitted

An emitter appends to the current block of a builder, so the place where it emits is also a
place where a run can be: past the last statement of the current block (`At`). What was
emitted next is what is executed next, in every builder that the emitters after it make.

Results:
* `follows_emit`: what an emitted statement does when a run gets there.
* `reaches_br`, `reaches_br_one`, `assertOrJmpTo_runs`: the same for jumps and tests.
-/

namespace RapidArm.Jit

open RapidArm.Ir RapidArm.Lib RapidArm.Backend ExecIrBuilder

/-! ## Places and facts -/

section Runs

variable (M : Machine) (backend : JitBackend) (halts : ℕ → BitVec 32) (F : ExecIrBuilder)

/-- The function `F` runs from one state to another. -/
def Reaches : Config M → Config M → Prop :=
  Relation.ReflTransGen fun c c' => ∃ e, M.next F (backend.copy M.Val) halts c = .step e c'

/-- A value of the IR, with its type in the builder and what it holds in a run. -/
structure Fact where
  value : SSAValue
  ty : TypeFull
  val : M.Val

variable {M}

/-- The run is where `b` emits: past the last statement of its current block. -/
def At (b : ExecIrBuilder) (c : Config M) : Prop :=
  c.block = b.currentBlock ∧ OpenBlock b b.currentBlock c.pc

/-- A fact holds of a builder and a run. -/
def Fact.Holds (f : Fact M) (b : ExecIrBuilder) (c : Config M) : Prop :=
  b.ssaValues[f.value]? = some f.ty ∧ c.env f.value = f.val

/-- Facts that hold. -/
def Knows (K : List (Fact M)) (b : ExecIrBuilder) (c : Config M) : Prop := ∀ f ∈ K, f.Holds b c

/-- The run goes from where `b` emits to where `b'` emits, and keeps the facts of `b`. -/
structure Follows (b : ExecIrBuilder) (c : Config M) (b' : ExecIrBuilder)
    (c' : Config M) : Prop where
  reaches : Reaches M backend halts F c c'
  at' : At b' c'
  facts : ∀ {f : Fact M}, f.Holds b c → f.Holds b' c'

/-- The run goes from where `b` emits to the start of `block`, and keeps the values of `b`. -/
structure Jumps (b : ExecIrBuilder) (c : Config M) (block : Block) (c' : Config M) : Prop where
  reaches : Reaches M backend halts F c c'
  block : c'.block = block
  pc : c'.pc = 0
  values : ∀ {f : Fact M}, f.Holds b c → c'.env f.value = f.val

/-- The run returns the halt reason `code` and leaves the world `w`. -/
def HaltsWith (c : Config M) (code : BitVec 32) (w : M.World) : Prop :=
  ∃ c' v, Reaches M backend halts F c c' ∧ c'.world = w ∧
    M.next F (backend.copy M.Val) halts c' = .done (.term (.returnCode v) [M.haltReason code])

variable {backend halts F} {b b' b'' : ExecIrBuilder} {c c' c'' : Config M}

theorem Follows.refl (h : At b c) : Follows backend halts F b c b c :=
  ⟨Relation.ReflTransGen.refl, h, fun hf => hf⟩

theorem Follows.trans (h : Follows backend halts F b c b' c')
    (h' : Follows backend halts F b' c' b'' c'') :
    Follows backend halts F b c b'' c'' where
  reaches := Relation.ReflTransGen.trans h.reaches h'.reaches
  at' := h'.at'
  facts hf := h'.facts (h.facts hf)

theorem Follows.knows (h : Follows backend halts F b c b' c') {K : List (Fact M)}
    (hK : Knows K b c) :
    Knows K b' c' := fun f hf => h.facts (hK f hf)

theorem Follows.jumps {block : Block} (h : Follows backend halts F b c b' c')
    (h' : Jumps backend halts F b' c' block c'') : Jumps backend halts F b c block c'' where
  reaches := Relation.ReflTransGen.trans h.reaches h'.reaches
  block := h'.block
  pc := h'.pc
  values hf := h'.values (h.facts hf)

/-- A run that has jumped to a block is where an emitter of this block begins. -/
theorem Jumps.at_open {block : Block} (h : Jumps backend halts F b c block c')
    (hopen : OpenBlock b' block 0) (hcur : b'.currentBlock = block) : At b' c' := by
  refine ⟨h.block.trans hcur.symm, ?_⟩
  rw [hcur, h.pc]
  exact hopen

/-- What was known before the jump is known to every builder that has the values. -/
theorem Jumps.knows {block : Block} (h : Jumps backend halts F b c block c') {K : List (Fact M)}
    (hK : Knows K b c) {b₀ : ExecIrBuilder} (hvals : b.ssaValues <+: b₀.ssaValues) :
    Knows K b₀ c' :=
  fun f hf => ⟨getElem?_of_isPrefix hvals (hK f hf).1, h.values (hK f hf)⟩

theorem HaltsWith.of_reaches {code : BitVec 32} {w : M.World} (h : Reaches M backend halts F c c')
    (h' : HaltsWith backend halts F c' code w) : HaltsWith backend halts F c code w := by
  obtain ⟨c'', v, hreach, hworld, hnext⟩ := h'
  exact ⟨c'', v, Relation.ReflTransGen.trans h hreach, hworld, hnext⟩

theorem Knows.append {K K' : List (Fact M)} (h : Knows K b c) (h' : Knows K' b c) :
    Knows (K ++ K') b c := by
  intro f hf
  rcases List.mem_append.1 hf with hf | hf
  · exact h f hf
  · exact h' f hf

/-! ## Statements -/

/-- New values hold what a statement yields, and old values what they held. -/
theorem define_range' (ρ : SSAValue → M.Val) (n : ℕ) (vals : List M.Val) :
    (∀ u < n, M.define ρ (List.range' n vals.length) vals u = ρ u) ∧
      ∀ i x, vals[i]? = some x → M.define ρ (List.range' n vals.length) vals (n + i) = x := by
  induction vals generalizing ρ n with
  | nil => exact ⟨fun _ _ => rfl, fun i x hi => by simp at hi⟩
  | cons y vals ih =>
    obtain ⟨hold, hnew⟩ := ih (Function.update ρ n y) (n + 1)
    have hstep : M.define ρ (List.range' n (vals.length + 1)) (y :: vals) =
        M.define (Function.update ρ n y) (List.range' (n + 1) vals.length) vals := rfl
    rw [List.length_cons, hstep]
    constructor
    · intro u hu
      rw [hold u (by omega)]
      exact Function.update_of_ne (Nat.ne_of_lt hu) _ _
    · intro i x hi
      cases i with
      | zero =>
        obtain rfl : y = x := Option.some.inj hi
        exact (hold n (Nat.lt_succ_self n)).trans (Function.update_self _ _ _)
      | succ i =>
        rw [show n + (i + 1) = n + 1 + i by omega]
        exact hnew i x hi

/-- A statement that was emitted is executed. -/
theorem next_emit (backend : JitBackend) (halts : ℕ → BitVec 32) {k : ℕ} {rvalue : StmtKind}
    {outputs : List SSAValue} (h : emitStmtFull k rvalue b = .ok (outputs, b'))
    {touched : Set Block} (hF : Emitted touched b' F) (hat : At b c)
    (hne : rvalue ≠ .loadHaltReason) {vals : List M.Val} {w : M.World}
    (heval : M.eval rvalue (rvalue.operands.map c.env) c.world = some (vals, w)) :
    ∃ e, M.next F (backend.copy M.Val) halts c =
      .step e { c with pc := c.pc + 1, env := M.define c.env outputs vals, world := w } := by
  obtain ⟨hblock, hopen⟩ := hat
  obtain ⟨-, -, -, -, -, data, hdata, hstmt, hget⟩ := emitStmtFull_spec h hopen
  obtain ⟨dataF, hdataF, -, hprefix, -⟩ := hF.blocks _ data hdata
  rw [← hblock] at hdataF
  have hstmtF := getElem?_of_isPrefix hprefix hstmt
  rw [next_of_stmt M _ _ hdataF hstmtF,
    nextStmt_of_ne M (getElem?_of_isPrefix hF.stmts hget) hne, heval]
  exact ⟨_, rfl⟩

/-- The new values of an emitted statement have its types and hold what it yields. -/
theorem follows_emit {k : ℕ} {rvalue : StmtKind} {outputs : List SSAValue}
    (h : emitStmtFull k rvalue b = .ok (outputs, b')) {touched : Set Block}
    (hF : Emitted touched b' F) (hat : At b c) (hne : rvalue ≠ .loadHaltReason) {vals : List M.Val}
    (hlen : vals.length = k) {w : M.World}
    (heval : M.eval rvalue (rvalue.operands.map c.env) c.world = some (vals, w)) :
    ∃ c', Follows backend halts F b c b' c' ∧ c'.world = w ∧
      outputs = List.range' b.ssaValues.length k ∧ ∃ tys, b.typeOf rvalue = .ok tys ∧
        ∀ i ty x, tys[i]? = some ty → vals[i]? = some x →
          Fact.Holds ⟨b.ssaValues.length + i, ty, x⟩ b' c' := by
  obtain ⟨e, hnext⟩ := next_emit backend halts h hF hat hne heval
  obtain ⟨hblock, hopen⟩ := hat
  obtain ⟨-, hopen', hcur, ⟨tys, htys, htyslen, hvals⟩, rfl, -⟩ := emitStmtFull_spec h hopen
  obtain ⟨hold, hnew⟩ := define_range' c.env b.ssaValues.length vals
  rw [hlen] at hold hnew
  refine ⟨_, ⟨Relation.ReflTransGen.single ⟨e, hnext⟩, ⟨hblock.trans hcur.symm, ?_⟩, ?_⟩,
    rfl, rfl, tys, htys, ?_⟩
  · rw [hcur]
    exact hopen'
  · rintro f ⟨hty, hval⟩
    refine ⟨?_, (hold f.value (getElem?_eq_some_lt hty)).trans hval⟩
    rw [hvals, List.getElem?_append_left (getElem?_eq_some_lt hty)]
    exact hty
  · intro i ty x hty hx
    refine ⟨?_, hnew i x hx⟩
    rw [hvals, List.getElem?_append_right (Nat.le_add_right _ _), Nat.add_sub_cancel_left]
    exact hty

/-! ## Ends of blocks -/

/-- A run at the end of a block that ends in `t`. -/
theorem next_at_end {n : ℕ} {t : Terminator} (h : Ends F c.block n t) (hpc : c.pc = n) :
    M.next F (backend.copy M.Val) halts c = M.nextTerm F (backend.copy M.Val) c t := by
  obtain ⟨data, hdata, -, hlen, ht⟩ := h
  rw [next_of_end M hdata (by rw [hlen, hpc]), ht]

/-- A jump without arguments. -/
theorem reaches_br {n : ℕ} {target : Block} (h : Ends F c.block n (.br ⟨target, []⟩))
    (hpc : c.pc = n) (hparams : HasParams F target []) :
    Reaches M backend halts F c { c with block := target, pc := 0 } := by
  obtain ⟨data, hdata, hnone⟩ := hparams
  refine Relation.ReflTransGen.single ⟨.term (.br ⟨target, []⟩) [], (next_at_end h hpc).trans ?_⟩
  exact takeJump_nil M backend hdata hnone

/-- A jump with one argument. -/
theorem reaches_br_one {n : ℕ} {target : Block} {arg param : SSAValue}
    (h : Ends F c.block n (.br ⟨target, [arg]⟩)) (hpc : c.pc = n)
    (hparams : HasParams F target [param]) :
    Reaches M backend halts F c
      { c with block := target, pc := 0, env := Function.update c.env param (c.env arg) } := by
  obtain ⟨data, hdata, hone⟩ := hparams
  have hcopies : Machine.jumpCopies F ⟨target, [arg]⟩ = some [(param, arg)] := by
    unfold Machine.jumpCopies
    simp only [hdata, hone]
    rfl
  have hcopy : backend.copy M.Val [(param, arg)] c.env =
      Function.update c.env param (c.env arg) := by
    cases backend <;> rfl
  refine Relation.ReflTransGen.single ⟨.term (.br ⟨target, [arg]⟩) [c.env arg],
    (next_at_end h hpc).trans ?_⟩
  show M.takeJump F (backend.copy M.Val) c _ ⟨target, [arg]⟩ = _
  unfold Machine.takeJump
  rw [hcopies]
  simp only [hcopy]
  rfl

/-- A test between two blocks without parameters. -/
theorem reaches_brZ {n : ℕ} {cond : SSAValue} {onZero onNonZero : Block}
    (h : Ends F c.block n (.brZ cond ⟨onZero, []⟩ ⟨onNonZero, []⟩)) (hpc : c.pc = n)
    (hzero : HasParams F onZero []) (hnonZero : HasParams F onNonZero []) :
    Reaches M backend halts F c
      { c with block := if M.isZero (c.env cond) then onZero else onNonZero, pc := 0 } := by
  refine Relation.ReflTransGen.single ⟨.term (.brZ cond ⟨onZero, []⟩ ⟨onNonZero, []⟩) [c.env cond],
    (next_at_end h hpc).trans ?_⟩
  show M.takeJump F (backend.copy M.Val) c _
    (if M.isZero (c.env cond) then ⟨onZero, []⟩ else ⟨onNonZero, []⟩) = _
  cases M.isZero (c.env cond) with
  | true =>
    obtain ⟨data, hdata, hnone⟩ := hzero
    exact takeJump_nil M backend hdata hnone
  | false =>
    obtain ⟨data, hdata, hnone⟩ := hnonZero
    exact takeJump_nil M backend hdata hnone

/-! ### Tests -/

variable {cond : SSAValue} {expected : Bool} {fail success : Block}

/-- The test that `assert_or_jmp_to` ends the current block with. -/
def assertTerminator (cond : SSAValue) (expected : Bool) (fail success : Block) : Terminator :=
  if expected then .brZ cond ⟨fail, []⟩ ⟨success, []⟩ else .brZ cond ⟨success, []⟩ ⟨fail, []⟩

theorem assertTerminator_ne (hne : fail ≠ success) (c : SSAValue) (jump : Jump) :
    assertTerminator cond expected fail success ≠ .brZ c jump jump := by
  intro heq
  cases expected with
  | true =>
    obtain ⟨-, rfl, hjump⟩ := Terminator.brZ.inj heq
    exact hne (Jump.mk.inj hjump).1.symm
  | false =>
    obtain ⟨-, rfl, hjump⟩ := Terminator.brZ.inj heq
    exact hne (Jump.mk.inj hjump).1

/-- `assert_or_jmp_to` ends the current block and goes on in a new one. -/
theorem assertOrJmpTo_spec (h : assertOrJmpTo cond expected fail b = .ok (success, b'))
    (hfail : HasParams b fail []) {n : ℕ} (hopen : OpenBlock b b.currentBlock n) :
    Emits b b' ∧ b'.currentBlock = success ∧ OpenBlock b' success 0 ∧ HasParams b' success [] ∧
      b'.ssaValues = b.ssaValues ∧
      Ends b' b.currentBlock n (assertTerminator cond expected fail success) := by
  simp only [assertOrJmpTo, emit_bind_ok, emit_pure_ok] at h
  obtain ⟨_, b₁, hbold, blk, b₂, hcreate, _, b₃, hterminate, _, b₄, hswitch, rfl, rfl⟩ := h
  obtain ⟨e₁, hcur₁, hvals₁⟩ := markBlockBold_spec {b.currentBlock} hbold
  obtain ⟨e₂, hblk, hnew, hparams, hcur₂, hvals₂⟩ :=
    createBlock_spec {b.currentBlock} hcreate
  have hcur : b₂.currentBlock = b.currentBlock := hcur₂.trans hcur₁
  have hge : b.blocks.length ≤ blk := by
    rw [hblk]
    exact e₁.length
  have hne : fail ≠ blk := Nat.ne_of_lt (Nat.lt_of_lt_of_le hfail.lt hge)
  -- the current block is still open when it is terminated
  have hopen₂ : OpenBlock b₂ b₂.currentBlock n := by
    rw [hcur]
    refine (createBlock_spec ∅ hcreate).1.openBlock ?_ (Set.notMem_empty _)
    exact (markBlockBold_spec ∅ hbold).1.openBlock hopen (Set.notMem_empty _)
  obtain ⟨e₃, hends, hcur₃, hvals₃⟩ :=
    terminateBlock_spec hterminate (assertTerminator_ne hne) hopen₂
  obtain ⟨e₄, hcur₄, hvals₄, -⟩ := switchTo_spec ∅ hswitch
  rw [hcur] at e₃ hends
  have hnot : blk ∉ ({b.currentBlock} : Set Block) :=
    fun hmem => absurd hopen.lt (Nat.not_lt.2 (hmem ▸ hge))
  have hopen₄ : OpenBlock b₄ blk 0 := e₄.openBlock (e₃.openBlock hnew hnot) (Set.notMem_empty _)
  refine ⟨⟨?_, ⟨0, by rw [hcur₄]; exact hopen₄⟩, .inr (by rw [hcur₄]; exact hge)⟩, hcur₄, hopen₄,
    e₄.hasParams (e₃.hasParams hparams), ?_, e₄.ends hends⟩
  · refine ((e₁.trans e₂ fun x hx _ => hx).trans e₃ fun x hx _ => hx).trans e₄ ?_
    exact fun x hx _ => hx.elim
  · rw [hvals₄, hvals₃, hvals₂, hvals₁]

theorem assertTerminator_ok {ty : TypeFull} (hcond : b.ssaValues[cond]? = some ty)
    (hty : ∀ r, ty ≠ .hostPtr r) (hne : fail ≠ success) :
    b.checkTerminator (assertTerminator cond expected fail success) =
      .ok (assertTerminator cond expected fail success) := by
  have hcheck : ∀ {zero nonZero : Jump}, zero ≠ nonZero →
      b.checkTerminator (.brZ cond zero nonZero) = .ok (.brZ cond zero nonZero) := by
    intro zero nonZero hdiff
    refine bind_eq_ok.2 ⟨ty, arenaGet_eq_ok.2 hcond, ?_⟩
    cases ty with
    | bool | int _ => exact congrArg Except.ok (if_neg hdiff)
    | hostPtr r => exact (hty r rfl).elim
  cases expected with
  | true => exact hcheck fun h => hne (Jump.mk.inj h).1
  | false => exact hcheck fun h => hne (Jump.mk.inj h).1.symm

/-- `assert_or_jmp_to` does not panic. -/
theorem assertOrJmpTo_ok {ty : TypeFull} (hcond : b.ssaValues[cond]? = some ty)
    (hty : ∀ r, ty ≠ .hostPtr r) (hentry : fail ≠ Block.ENTRYPOINT) (hfail : HasParams b fail [])
    (hopen : IsOpen b) : ∃ r, assertOrJmpTo cond expected fail b = .ok r := by
  obtain ⟨n, hopen⟩ := hopen
  obtain ⟨data, hdata, -⟩ := id hfail
  have hbold : ∃ b₁, markBlockBold fail b = .ok ((), b₁) := by
    refine ⟨{ b with blocks := b.blocks.set fail { data with isCold := true } }, ?_⟩
    unfold ExecIrBuilder.markBlockBold
    rw [if_neg hentry]
    exact bind_eq_ok.2 ⟨data, arenaGet_eq_ok.2 hdata, rfl⟩
  obtain ⟨b₁, hbold⟩ := hbold
  obtain ⟨e₁, hcur₁, hvals₁⟩ := markBlockBold_spec ∅ hbold
  have hcreate : createBlock b₁ =
    .ok (b₁.blocks.length, { b₁ with blocks := b₁.blocks ++ [BlockData.empty] }) := rfl
  generalize ({ b₁ with blocks := b₁.blocks ++ [BlockData.empty] } : ExecIrBuilder) = b₂ at hcreate
  obtain ⟨e₂, -, -, -, hcur₂, hvals₂⟩ := createBlock_spec ∅ hcreate
  have hopen₂ : OpenBlock b₂ b₂.currentBlock n := by
    rw [hcur₂, hcur₁]
    exact e₂.openBlock (e₁.openBlock hopen (Set.notMem_empty _)) (Set.notMem_empty _)
  have hlt : fail < b₁.blocks.length := Nat.lt_of_lt_of_le hfail.lt e₁.length
  have hcond₂ : b₂.ssaValues[cond]? = some ty := by
    rw [hvals₂, hvals₁]
    exact hcond
  have hnew : b₁.blocks.length ≠ Block.ENTRYPOINT :=
    Nat.ne_of_gt (Nat.lt_of_le_of_lt (Nat.zero_le _) hlt)
  have hterm : ∃ b₃, terminate (assertTerminator cond expected fail b₁.blocks.length) b₂ =
      .ok ((), b₃) := by
    refine terminateBlock_ok (assertTerminator_ok hcond₂ hty (Nat.ne_of_lt hlt)) ?_ hopen₂
    intro hmem
    obtain ⟨jump, hjump, htarget⟩ := Terminator.mem_blockTargets.1 hmem
    unfold assertTerminator at hjump
    split_ifs at hjump
    all_goals
      simp only [Terminator.targets, List.mem_cons, List.not_mem_nil, or_false] at hjump
      rcases hjump with rfl | rfl
    · exact hentry htarget
    · exact hnew htarget
    · exact hnew htarget
    · exact hentry htarget
  obtain ⟨b₃, hterm⟩ := hterm
  exact ⟨_, emit_bind_ok.2 ⟨(), b₁, hbold, emit_bind_ok.2 ⟨_, b₂, hcreate,
    emit_bind_ok.2 ⟨(), b₃, hterm, rfl⟩⟩⟩⟩

/-- A run goes on after the test, or jumps to `fail`. -/
theorem assertOrJmpTo_runs (h : assertOrJmpTo cond expected fail b = .ok (success, b'))
    (hfail : HasParams b fail []) (hF : Emitted Set.univ b' F) (hat : At b c) :
    (M.isZero (c.env cond) = !expected →
      ∃ c', Follows backend halts F b c b' c' ∧ c'.world = c.world) ∧
    (M.isZero (c.env cond) = expected →
      ∃ c', Jumps backend halts F b c fail c' ∧ c'.world = c.world) := by
  obtain ⟨hblock, hopen⟩ := hat
  obtain ⟨he, hcur, hnew, hparams, hvals, hends⟩ := assertOrJmpTo_spec h hfail hopen
  have hendsF : Ends F c.block c.pc (assertTerminator cond expected fail success) := by
    rw [hblock]
    exact hF.ends hends
  have hfailF : HasParams F fail [] := hF.hasParams (he.emitted.hasParams hfail)
  have hsuccessF : HasParams F success [] := hF.hasParams hparams
  have hstep : Reaches M backend halts F c
      { c with block := if M.isZero (c.env cond) = expected then fail else success, pc := 0 } := by
    cases expected with
    | true =>
      exact reaches_brZ hendsF rfl hfailF hsuccessF
    | false =>
      have hreach :=
        @reaches_brZ M backend halts F c c.pc cond success fail hendsF rfl hsuccessF hfailF
      cases hzero : M.isZero (c.env cond) with
      | true =>
        rw [hzero] at hreach
        exact hreach
      | false =>
        rw [hzero] at hreach
        exact hreach
  constructor
  · intro hgo
    rw [if_neg (by rw [hgo]; cases expected <;> decide)] at hstep
    refine ⟨_, ⟨hstep, ⟨hcur.symm, ?_⟩, fun hf => ⟨hvals ▸ hf.1, hf.2⟩⟩, rfl⟩
    rw [hcur]
    exact hnew
  · intro hjump
    rw [if_pos hjump] at hstep
    exact ⟨_, ⟨hstep, rfl, rfl, fun hf => hf.2⟩, rfl⟩

end Runs

end RapidArm.Jit
