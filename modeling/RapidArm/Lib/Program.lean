import Mathlib.Tactic.TypeStar

/-!
# Code that talks to its surroundings

A `Program` is the code of a thread between its calls to what it shares with other
threads: it returns, it panics, or it makes a call and goes on with the answer. What the
others do between two calls shows in the answers only. An `Interface` says of each call
when it may be made and what its answers are, in terms of what the thread alone decides
(`G`); `Ensures` then speaks of a program whatever happens around it, and has the rules of
a Hoare logic.
-/

namespace RapidArm.Lib

/-- Code over the calls `Op` with answers `Res`. -/
inductive Program (Op : Type) (Res : Op → Type) (α : Type) : Type
  | ret (a : α)
  | panic
  | call (op : Op) (next : Res op → Program Op Res α)

/-- What a thread may ask, and what it may be told. -/
structure Interface (Op : Type) (Res : Op → Type) (G : Type) where
  requires : G → Op → Prop
  answers : G → (op : Op) → Res op → G → Prop

namespace Program

variable {Op : Type} {Res : Op → Type} {α β G : Type}

/-- Run `f` after the program. -/
def bind (f : α → Program Op Res β) : Program Op Res α → Program Op Res β
  | ret a => f a
  | panic => panic
  | call op next => call op fun r => (next r).bind f

instance : Monad (Program Op Res) where
  pure := ret
  bind p f := p.bind f

/-- A single call. -/
def perform (op : Op) : Program Op Res (Res op) := call op ret

/-- Panic unless the condition holds. -/
def assert (c : Prop) [Decidable c] : Program Op Res Unit := if c then ret () else panic

/-- Whatever the answers, every call is allowed, nothing panics and the result satisfies
    `post`. -/
def Ensures (I : Interface Op Res G) (post : α → G → Prop) : Program Op Res α → G → Prop
  | ret a, g => post a g
  | panic, _ => False
  | call op next, g => I.requires g op ∧ ∀ r g', I.answers g op r g' → (next r).Ensures I post g'

variable {I : Interface Op Res G} {post post' : α → G → Prop} {g : G}

theorem Ensures.mono {p : Program Op Res α} (h : p.Ensures I post g)
    (hpost : ∀ a g, post a g → post' a g) :
    p.Ensures I post' g := by
  induction p generalizing g with
  | ret a => exact hpost a g h
  | panic => exact h
  | call op next ih => exact ⟨h.1, fun r g' hr => ih r (h.2 r g' hr)⟩

/-- First one program, then the other. -/
theorem Ensures.bind {p : Program Op Res α} {f : α → Program Op Res β} {post : β → G → Prop}
    (h : p.Ensures I (fun a g => (f a).Ensures I post g) g) : (p >>= f).Ensures I post g := by
  induction p generalizing g with
  | ret a => exact h
  | panic => exact h
  | call op next ih => exact ⟨h.1, fun r g' hr => ih r (h.2 r g' hr)⟩

/-- A call, with every answer to it. -/
theorem ensures_perform {op : Op} {post : Res op → G → Prop} (hrequires : I.requires g op)
    (hanswers : ∀ r g', I.answers g op r g' → post r g') : (perform op).Ensures I post g :=
  ⟨hrequires, hanswers⟩

theorem Ensures.ne_panic {p : Program Op Res α} (h : p.Ensures I post g) : p ≠ .panic := by
  rintro rfl
  exact h

theorem ensures_assert {c : Prop} [Decidable c] {post : Unit → G → Prop} (hc : c)
    (hpost : post () g) :
    (assert c : Program Op Res Unit).Ensures I post g := by
  unfold assert
  rw [if_pos hc]
  exact hpost

end Program

end RapidArm.Lib
