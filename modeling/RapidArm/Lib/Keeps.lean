import Mathlib.Data.List.Basic

/-!
# Invariants of stateful computations that can fail

`Keeps I x Q`: the computation `x` keeps the invariant `I` of its state, whether it
succeeds or fails, and if it succeeds its result satisfies `Q`. `Returns I x r`: from
every state that satisfies `I` it ends with the result or failure `r`, and keeps `I`.
`Ends I x Q E`: it keeps `I`, and ends with a result that satisfies `Q` or a failure
that satisfies `E`. The rules follow the shape of a program: `pure`, `throw`, `bind`, and weakening.
-/

namespace RapidArm.Lib

variable {σ ε α β : Type}

/-- A computation over a state that survives failure. -/
abbrev Fallible (σ ε α : Type) := ExceptT ε (StateM σ) α

theorem run_bind (x : Fallible σ ε α) (f : α → Fallible σ ε β) (s : σ) :
    (x >>= f).run.run s =
      match x.run.run s with
      | (.ok a, s') => (f a).run.run s'
      | (.error e, s') => (.error e, s') := by
  change (ExceptT.bindCont f (x.run.run s).1) (x.run.run s).2 = _
  rcases x.run.run s with ⟨(e | a), s'⟩ <;> rfl

/-- A sequence succeeds if its first part does and then the second one. -/
theorem run_bind_eq_ok {x : Fallible σ ε α} {f : α → Fallible σ ε β} {s : σ} {b : β} :
    ((x >>= f).run.run s).1 = .ok b ↔
      ∃ a, (x.run.run s).1 = .ok a ∧ ((f a).run.run (x.run.run s).2).1 = .ok b := by
  rw [run_bind]
  rcases x.run.run s with ⟨(e | a), s'⟩
  · simp
  · simp

/-- `x` keeps `I` and returns only results that satisfy `Q`. -/
def Keeps (I : σ → Prop) (x : Fallible σ ε α) (Q : α → Prop) : Prop :=
  ∀ s, I s → I (x.run.run s).2 ∧ ∀ a, (x.run.run s).1 = .ok a → Q a

variable {I : σ → Prop} {x : Fallible σ ε α} {Q R : α → Prop}

theorem Keeps.pure {a : α} (h : Q a) : Keeps (ε := ε) I (pure a) Q := by
  intro s hs
  refine ⟨hs, ?_⟩
  intro b hb
  obtain rfl := Except.ok.inj hb
  exact h

theorem Keeps.throw {e : ε} : Keeps I (throw e : Fallible σ ε α) Q := by
  intro s hs
  refine ⟨hs, ?_⟩
  intro b hb
  cases hb

theorem Keeps.bind {f : α → Fallible σ ε β} {S : β → Prop} (hx : Keeps I x Q)
    (hf : ∀ a, Q a → Keeps I (f a) S) : Keeps I (x >>= f) S := by
  intro s hs
  obtain ⟨hI, hQ⟩ := hx s hs
  rw [run_bind]
  rcases hxs : x.run.run s with ⟨(e | a), s'⟩
  · rw [hxs] at hI
    exact ⟨hI, fun b hb => by cases hb⟩
  · rw [hxs] at hI hQ
    exact hf a (hQ a rfl) s' hI

theorem Keeps.mono (h : Keeps I x Q) (hQR : ∀ a, Q a → R a) : Keeps I x R :=
  fun s hs => ⟨(h s hs).1, fun a ha => hQR a ((h s hs).2 a ha)⟩

theorem Keeps.ite {c : Prop} [Decidable c] {y : Fallible σ ε α} (hx : c → Keeps I x Q)
    (hy : ¬ c → Keeps I y Q) : Keeps I (if c then x else y) Q := by
  by_cases h : c
  · rw [if_pos h]
    exact hx h
  · rw [if_neg h]
    exact hy h

/-- `x` keeps `I` and ends with `r`. -/
def Returns (I : σ → Prop) (x : Fallible σ ε α) (r : Except ε α) : Prop :=
  ∀ s, I s → (x.run.run s).1 = r ∧ I (x.run.run s).2

theorem Returns.pure {a : α} : Returns (ε := ε) I (pure a) (.ok a) := fun _ hs => ⟨rfl, hs⟩

theorem Returns.throw {e : ε} : Returns I (throw e : Fallible σ ε α) (.error e) :=
  fun _ hs => ⟨rfl, hs⟩

theorem Returns.bind {f : α → Fallible σ ε β} {a : α} {r : Except ε β} (hx : Returns I x (.ok a))
    (hf : Returns I (f a) r) : Returns I (x >>= f) r := by
  intro s hs
  obtain ⟨hr, hI⟩ := hx s hs
  rw [run_bind]
  rcases hxs : x.run.run s with ⟨(e | b), s'⟩
  · rw [hxs] at hr
    cases hr
  · rw [hxs] at hr hI
    obtain rfl := Except.ok.inj hr
    exact hf s' hI

theorem Returns.bind_error {f : α → Fallible σ ε β} {e : ε} (hx : Returns I x (.error e)) :
    Returns I (x >>= f) (.error e) := by
  intro s hs
  obtain ⟨hr, hI⟩ := hx s hs
  rw [run_bind]
  rcases hxs : x.run.run s with ⟨(e' | b), s'⟩
  · rw [hxs] at hr hI
    obtain rfl := Except.error.inj hr
    exact ⟨rfl, hI⟩
  · rw [hxs] at hr
    cases hr

/-- `x` keeps `I`, and ends with a result that satisfies `Q` or a failure that satisfies
    `E`. -/
def Ends (I : σ → Prop) (x : Fallible σ ε α) (Q : α → Prop) (E : ε → Prop) : Prop :=
  ∀ s, I s → I (x.run.run s).2 ∧
    match (x.run.run s).1 with
    | .ok a => Q a
    | .error e => E e

variable {E F : ε → Prop}

theorem Ends.pure {a : α} (h : Q a) : Ends I (pure a) Q E := fun _ hs => ⟨hs, h⟩

theorem Ends.throw {e : ε} (h : E e) : Ends I (throw e : Fallible σ ε α) Q E :=
  fun _ hs => ⟨hs, h⟩

theorem Ends.bind {f : α → Fallible σ ε β} {S : β → Prop} (hx : Ends I x Q E)
    (hf : ∀ a, Q a → Ends I (f a) S E) : Ends I (x >>= f) S E := by
  intro s hs
  obtain ⟨hI, hQ⟩ := hx s hs
  rw [run_bind]
  rcases hxs : x.run.run s with ⟨(e | a), s'⟩
  · rw [hxs] at hI hQ
    exact ⟨hI, hQ⟩
  · rw [hxs] at hI hQ
    exact hf a hQ s' hI

theorem Ends.ite {c : Prop} [Decidable c] {y : Fallible σ ε α} (hx : c → Ends I x Q E)
    (hy : ¬ c → Ends I y Q E) : Ends I (if c then x else y) Q E := by
  by_cases h : c
  · rw [if_pos h]
    exact hx h
  · rw [if_neg h]
    exact hy h

theorem Ends.mono (h : Ends I x Q E) (hQR : ∀ a, Q a → R a) (hEF : ∀ e, E e → F e) :
    Ends I x R F := by
  intro s hs
  obtain ⟨hI, hQ⟩ := h s hs
  refine ⟨hI, ?_⟩
  rcases hxs : (x.run.run s).1 with e | a
  · rw [hxs] at hQ
    exact hEF e hQ
  · rw [hxs] at hQ
    exact hQR a hQ

theorem Returns.ends {a : α} (h : Returns I x (.ok a)) (hQ : Q a) : Ends I x Q E := by
  intro s hs
  obtain ⟨hr, hI⟩ := h s hs
  rw [hr]
  exact ⟨hI, hQ⟩

theorem Returns.ends_error {e : ε} (h : Returns I x (.error e)) (hE : E e) : Ends I x Q E := by
  intro s hs
  obtain ⟨hr, hI⟩ := h s hs
  rw [hr]
  exact ⟨hI, hE⟩

/-- A computation whose outcome is determined. -/
theorem Ends.returns {r : Except ε α}
    (h : Ends I x (fun a => r = .ok a) fun e => r = .error e) : Returns I x r := by
  intro s hs
  obtain ⟨hI, hr⟩ := h s hs
  refine ⟨?_, hI⟩
  rcases hxs : (x.run.run s).1 with e | a
  · rw [hxs] at hr
    exact hr.symm
  · rw [hxs] at hr
    exact hr.symm

/-- The failure of a computation that fails. -/
theorem Ends.error (h : Ends I x Q E) {s : σ} (hs : I s) {e : ε} (he : (x.run.run s).1 = .error e) :
    E e := by
  have hE := (h s hs).2
  rw [he] at hE
  exact hE

/-- From every state that satisfies `J`, if `x` succeeds then `I` holds of the state it leaves. -/
def Establishes (J I : σ → Prop) (x : Fallible σ ε α) : Prop :=
  ∀ s, J s → ∀ a, (x.run.run s).1 = .ok a → I (x.run.run s).2

variable {J : σ → Prop}

/-- The first part establishes the invariant, and the second one keeps it. -/
theorem Establishes.bind {f : α → Fallible σ ε β} (hx : Establishes J I x)
    (hf : ∀ a, Keeps I (f a) fun _ => True) : Establishes J I (x >>= f) := by
  intro s hs b hb
  obtain ⟨a, ha, -⟩ := run_bind_eq_ok.1 hb
  have hI := hx s hs a ha
  rw [run_bind]
  rcases hxs : x.run.run s with ⟨(e | a'), s'⟩
  · rw [hxs] at ha
    cases ha
  · rw [hxs] at hI
    exact (hf a' s' hI).1

/-- The second part establishes the invariant. -/
theorem Establishes.after {f : α → Fallible σ ε β} (hx : Keeps J x Q)
    (hf : ∀ a, Establishes J I (f a)) : Establishes J I (x >>= f) := by
  intro s hs b hb
  obtain ⟨a, ha, hfa⟩ := run_bind_eq_ok.1 hb
  have hJ := (hx s hs).1
  rw [run_bind]
  rcases hxs : x.run.run s with ⟨(e | a'), s'⟩
  · rw [hxs] at ha
    cases ha
  · rw [hxs] at ha hJ hfa
    obtain rfl := Except.ok.inj ha
    exact hf a' s' hJ b hfa

end RapidArm.Lib
