import RapidArm.Lib.Except
import Mathlib.Data.List.Induction

/-!
# Machines that log events

A machine is a function that takes a state and a call to the next state and an event.
`execute` runs a list of calls and logs the events, oldest first. Properties of such
a log speak about an event and what was logged before it (`Always`), and are kept by
appending one event at a time. A machine that can fail is run by `foldlM`; of such a run
`EveryCall` says something about each call and the state before it.
-/

namespace RapidArm.Lib

/-! ## Logs -/

section Logs

variable {ε : Type*}

/-- Every event of the log satisfies `P` together with the events before it. -/
def Always (P : List ε → ε → Prop) (log : List ε) : Prop :=
  ∀ before e after, log = before ++ e :: after → P before e

theorem always_nil (P : List ε → ε → Prop) : Always P [] := by
  intro before e after h
  simp at h

theorem always_concat {P : List ε → ε → Prop} {log : List ε} {x : ε} :
    Always P (log ++ [x]) ↔ Always P log ∧ P log x := by
  constructor
  · intro h
    refine ⟨?_, h log x [] rfl⟩
    intro before e after hlog
    exact h before e (after ++ [x]) (by rw [hlog]; simp)
  · rintro ⟨hlog, hx⟩ before e after heq
    -- the event is the last one, or stands in the old log
    rcases List.eq_nil_or_concat after with rfl | ⟨after, y, rfl⟩
    · obtain ⟨rfl, hy⟩ := List.append_inj' heq rfl
      obtain rfl := List.singleton_inj.1 hy
      exact hx
    · have heq' : log ++ [x] = (before ++ e :: after) ++ [y] := by rw [heq]; simp
      exact hlog before e after (List.append_inj' heq' rfl).1

/-- The last event of a log that satisfies `P` is unique. -/
theorem last_unique {P : ε → Prop} {before before' after after' : List ε} {x x' : ε}
    (heq : before ++ x :: after = before' ++ x' :: after') (hx : P x) (hx' : P x')
    (hafter : ∀ e ∈ after, ¬ P e) (hafter' : ∀ e ∈ after', ¬ P e) : x = x' ∧ after = after' := by
  rcases List.append_eq_append_iff.1 heq with ⟨mid, -, hmid⟩ | ⟨mid, -, hmid⟩
  · cases mid with
    | nil =>
      obtain ⟨hx, hafter⟩ := List.cons.inj hmid
      exact ⟨hx, hafter⟩
    | cons y mid =>
      obtain ⟨-, rfl⟩ := List.cons.inj hmid
      exact (hafter x' (by simp) hx').elim
  · cases mid with
    | nil =>
      obtain ⟨hx, hafter⟩ := List.cons.inj hmid
      exact ⟨hx.symm, hafter.symm⟩
    | cons y mid =>
      obtain ⟨-, rfl⟩ := List.cons.inj hmid
      exact (hafter' x (by simp) hx).elim

end Logs

/-! ## Machines -/

section Machines

variable {σ κ ε : Type*} (step : σ → κ → σ × ε)

/-- The state after a list of calls, and the events they log. -/
def execute (s : σ) : List κ → σ × List ε
  | [] => (s, [])
  | call :: calls =>
    let (s', e) := step s call
    let (final, log) := execute s' calls
    (final, e :: log)

theorem execute_append (s : σ) (calls later : List κ) :
    execute step s (calls ++ later) =
      ((execute step (execute step s calls).1 later).1,
        (execute step s calls).2 ++ (execute step (execute step s calls).1 later).2) := by
  induction calls generalizing s with
  | nil => rfl
  | cons call calls ih =>
    show ((execute step _ (calls ++ later)).1, _ :: (execute step _ (calls ++ later)).2) = _
    rw [ih]
    rfl

theorem execute_concat (s : σ) (calls : List κ) (call : κ) :
    execute step s (calls ++ [call]) =
      ((step (execute step s calls).1 call).1,
        (execute step s calls).2 ++ [(step (execute step s calls).1 call).2]) := by
  rw [execute_append]
  rfl

/-- Every call of a run meets a condition on the state it starts from and on the log. -/
def Meets (cond : σ → List ε → κ → Prop) (s : σ) (calls : List κ) : Prop :=
  Always (fun before call => cond (execute step s before).1 (execute step s before).2 call) calls

/-- An invariant of the state and the log that every call keeps, if it meets the
    condition, holds after every run of such calls. -/
theorem Meets.invariant {C : σ → List ε → κ → Prop} {I : σ → List ε → Prop} {s : σ}
    (hinit : I s [])
    (hstep : ∀ s log call, I s log → C s log call →
      I (step s call).1 (log ++ [(step s call).2]))
    {calls : List κ} (hmeets : Meets step C s calls) :
    I (execute step s calls).1 (execute step s calls).2 := by
  induction calls using List.reverseRecOn with
  | nil => exact hinit
  | append_singleton calls call ih =>
    obtain ⟨hold, hcall⟩ := always_concat.1 hmeets
    rw [execute_concat]
    exact hstep _ _ _ (ih hold) hcall

end Machines

/-! ## Machines that can fail -/

section Failing

variable {σ κ ε : Type} {step : σ → κ → Except ε σ}

theorem foldlM_concat (s : σ) (calls : List κ) (call : κ) :
    (calls ++ [call]).foldlM step s = calls.foldlM step s >>= fun s => step s call := by
  rw [List.foldlM_append]
  congr 1
  funext s
  rw [List.foldlM_cons]
  cases step s call <;> rfl

/-- Every call of a run, with the state before it, satisfies `P`. -/
def EveryCall (step : σ → κ → Except ε σ) (P : σ → κ → Prop) (s : σ) (calls : List κ) : Prop :=
  Always (fun before call => ∀ s', before.foldlM step s = .ok s' → P s' call) calls

theorem everyCall_trivial (s : σ) (calls : List κ) : EveryCall step (fun _ _ => True) s calls :=
  fun _ _ _ _ _ _ => trivial

/-- An invariant that every call keeps, if it satisfies `P`, holds after every run of such
    calls. -/
theorem EveryCall.invariant {P : σ → κ → Prop} {I : σ → Prop} {s s' : σ} {calls : List κ}
    (hevery : EveryCall step P s calls) (hinit : I s)
    (hstep : ∀ s₁ s₂ call, I s₁ → P s₁ call → step s₁ call = .ok s₂ → I s₂)
    (hrun : calls.foldlM step s = .ok s') : I s' := by
  induction calls using List.reverseRecOn generalizing s' with
  | nil =>
    obtain rfl := Except.ok.inj hrun
    exact hinit
  | append_singleton calls call ih =>
    rw [foldlM_concat] at hrun
    obtain ⟨s₁, hrun₁, hok⟩ := bind_eq_ok.1 hrun
    obtain ⟨hbefore, hcall⟩ := always_concat.1 hevery
    exact hstep s₁ s' call (ih hbefore hrun₁) (hcall s₁ hrun₁) hok

/-- `EveryCall` for a condition that can be computed. -/
def checkCalls (step : σ → κ → Except ε σ) (check : σ → κ → Bool) (s : σ) : List κ → Bool
  | [] => true
  | call :: calls =>
    check s call &&
      match step s call with
      | .ok s' => checkCalls step check s' calls
      | .error _ => true

theorem everyCall_of_check {P : σ → κ → Prop} (check : σ → κ → Bool)
    (hcheck : ∀ s call, check s call = true → P s call) {s : σ} {calls : List κ}
    (h : checkCalls step check s calls = true) : EveryCall step P s calls := by
  intro before call after hcalls s' hrun
  induction before generalizing s calls with
  | nil =>
    obtain rfl := Except.ok.inj hrun
    subst hcalls
    exact hcheck s call (Bool.and_eq_true_iff.1 h).1
  | cons first before ih =>
    subst hcalls
    rw [List.foldlM_cons] at hrun
    obtain ⟨s₁, hok, hrun⟩ := bind_eq_ok.1 hrun
    have hrest := (Bool.and_eq_true_iff.1 h).2
    rw [hok] at hrest
    exact ih hrest rfl hrun

end Failing

end RapidArm.Lib
