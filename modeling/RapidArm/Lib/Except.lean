import Mathlib.Data.List.Basic

/-!
# Computations that can fail

Assertions in `Except`, and how a run that succeeded is taken apart: what a
`bind`, an assertion or a lookup returned.
-/

namespace RapidArm.Lib

variable {ε α β : Type}

/-- An assertion: fail with `e` unless `c` holds. -/
def require (c : Prop) [Decidable c] (e : ε) : Except ε Unit := if c then .ok () else .error e

theorem require_eq_ok {c : Prop} [Decidable c] {e : ε} {u : Unit} :
    require c e = .ok u ↔ c := by
  unfold require
  split_ifs with h <;> simp [h]

theorem bind_eq_ok {x : Except ε α} {f : α → Except ε β} {r : β} :
    (x >>= f) = .ok r ↔ ∃ a, x = .ok a ∧ f a = .ok r := by
  cases x with
  | error e => simp [bind, Except.bind]
  | ok a => simp [bind, Except.bind]

theorem pure_eq_ok {a r : α} : (pure a : Except ε α) = .ok r ↔ a = r := by
  simp [pure, Except.pure]

theorem ok_bind (a : α) (f : α → Except ε β) : ((Except.ok a : Except ε α) >>= f) = f a := rfl

theorem throw_ne_ok {e : ε} {r : α} : ¬ (throw e : Except ε α) = .ok r := by
  simp [throw, throwThe, MonadExceptOf.throw]

/-! ## Loops -/

/-- The invariant rule of a loop: `I done b` holds after the elements `done`. -/
theorem foldlM_spec {l : List α} {f : β → α → Except ε β} {b : β} (I : List α → β → Prop)
    (init : I [] b) (step : ∀ done a rest, l = done ++ a :: rest → ∀ b, I done b →
      ∃ b', f b a = .ok b' ∧ I (done ++ [a]) b') :
    ∃ b', l.foldlM f b = .ok b' ∧ I l b' := by
  -- over the elements left, generalising those that are done
  have hind : ∀ (rest done : List α) (b : β), l = done ++ rest → I done b →
      ∃ b', rest.foldlM f b = .ok b' ∧ I l b' := by
    intro rest
    induction rest with
    | nil =>
      intro done b hl hI
      rw [List.append_nil] at hl
      exact ⟨b, rfl, hl ▸ hI⟩
    | cons a rest ih =>
      intro done b hl hI
      obtain ⟨b₁, hb₁, hI₁⟩ := step done a rest hl b hI
      obtain ⟨b', hb', hI'⟩ := ih (done ++ [a]) b₁ (by simpa using hl) hI₁
      refine ⟨b', ?_, hI'⟩
      rw [List.foldlM_cons, hb₁]
      exact hb'
  exact hind l [] b rfl init

theorem forM_eq_ok {l : List α} {f : α → Except ε Unit} :
    l.forM f = .ok () ↔ ∀ a ∈ l, f a = .ok () := by
  induction l with
  | nil => simp [List.forM_nil, pure_eq_ok]
  | cons a l ih =>
    show (f a >>= fun _ => l.forM f) = .ok () ↔ _
    rw [bind_eq_ok, List.forall_mem_cons, ← ih]
    constructor
    · rintro ⟨⟨⟩, ha, hl⟩
      exact ⟨ha, hl⟩
    · rintro ⟨ha, hl⟩
      exact ⟨(), ha, hl⟩

/-- A loop whose steps fail in one way only fails in that way. -/
theorem forM_ok_or_error {l : List α} {f : α → Except ε Unit} {e : ε}
    (h : ∀ a ∈ l, f a = .ok () ∨ f a = .error e) : l.forM f = .ok () ∨ l.forM f = .error e := by
  induction l with
  | nil => exact .inl rfl
  | cons a l ih =>
    show (f a >>= fun _ => l.forM f) = .ok () ∨ (f a >>= fun _ => l.forM f) = .error e
    rcases h a List.mem_cons_self with ha | ha
    · rw [ha, ok_bind]
      exact ih fun x hx => h x (List.mem_cons_of_mem _ hx)
    · rw [ha]
      exact .inr rfl

theorem mapM_ok {l : List α} {f : α → Except ε β} {g : α → β} (h : ∀ a ∈ l, f a = .ok (g a)) :
    l.mapM f = .ok (l.map g) := by
  induction l with
  | nil => rfl
  | cons a l ih =>
    rw [List.mapM_cons, h a List.mem_cons_self, ok_bind,
      ih fun x hx => h x (List.mem_cons_of_mem _ hx)]
    rfl

theorem anyM_ok {l : List α} {f : α → Except ε Bool} {g : α → Bool}
    (h : ∀ a ∈ l, f a = .ok (g a)) : l.anyM f = .ok (l.any g) := by
  induction l with
  | nil => rfl
  | cons a l ih =>
    have hrest := ih fun x hx => h x (List.mem_cons_of_mem _ hx)
    rw [List.anyM, h a List.mem_cons_self, ok_bind, List.any_cons]
    cases g a with
    | true => rfl
    | false => exact hrest

theorem allM_ok {l : List α} {f : α → Except ε Bool} {g : α → Bool}
    (h : ∀ a ∈ l, f a = .ok (g a)) : l.allM f = .ok (l.all g) := by
  induction l with
  | nil => rfl
  | cons a l ih =>
    have hrest := ih fun x hx => h x (List.mem_cons_of_mem _ hx)
    rw [List.allM, h a List.mem_cons_self, ok_bind, List.all_cons]
    cases g a with
    | true => exact hrest
    | false => rfl

theorem filterM_ok {l : List α} {f : α → Except ε Bool} {g : α → Bool}
    (h : ∀ a ∈ l, f a = .ok (g a)) : l.filterM f = .ok (l.filter g) := by
  have hauxM : ∀ (l acc : List α), (∀ a ∈ l, f a = .ok (g a)) →
      l.filterAuxM f acc = .ok ((l.filter g).reverse ++ acc) := by
    intro l
    induction l with
    | nil => exact fun acc _ => rfl
    | cons a l ih =>
      intro acc hl
      rw [List.filterAuxM, hl a List.mem_cons_self, ok_bind]
      cases hg : g a with
      | true =>
        rw [List.filter_cons_of_pos hg]
        simpa using ih (a :: acc) fun x hx => hl x (List.mem_cons_of_mem _ hx)
      | false =>
        rw [List.filter_cons_of_neg (by simp [hg])]
        simpa using ih acc fun x hx => hl x (List.mem_cons_of_mem _ hx)
  unfold List.filterM
  rw [hauxM l [] h, ok_bind]
  simp [pure, Except.pure]

/-! ## What a computation returns and how it fails -/

/-- `x` returns only results that satisfy `post`, and fails only in ways that satisfy `fails`. -/
def Yields (fails : ε → Prop) (x : Except ε α) (post : α → Prop) : Prop :=
  (∀ a, x = .ok a → post a) ∧ ∀ e, x = .error e → fails e

section Yields

variable {fails : ε → Prop} {post : α → Prop} {post' : β → Prop}

theorem Yields.ok {a : α} (h : post a) : Yields fails (.ok a) post := by
  constructor
  · rintro b ⟨⟩
    exact h
  · rintro e ⟨⟩

theorem Yields.error {e : ε} (h : fails e) : Yields fails (.error e) post := by
  constructor
  · rintro a ⟨⟩
  · rintro e ⟨⟩
    exact h

theorem Yields.bind {x : Except ε α} {f : α → Except ε β} (hx : Yields fails x post)
    (hf : ∀ a, post a → Yields fails (f a) post') : Yields fails (x >>= f) post' := by
  cases x with
  | ok a => exact hf a (hx.1 a rfl)
  | error e => exact Yields.error (hx.2 e rfl)

theorem Yields.mono {x : Except ε α} {post₂ : α → Prop} (h : Yields fails x post)
    (himp : ∀ a, post a → post₂ a) : Yields fails x post₂ :=
  ⟨fun a ha => himp a (h.1 a ha), h.2⟩

theorem Yields.require {c : Prop} [Decidable c] {e : ε} (h : ¬ c → fails e) :
    Yields fails (require c e) fun _ => c := by
  unfold Lib.require
  split_ifs with hc
  · exact Yields.ok hc
  · exact Yields.error (h hc)

/-- The invariant rule of a loop, whose steps may fail. -/
theorem Yields.foldlM {l : List α} {f : β → α → Except ε β} {b : β} (I : List α → β → Prop)
    (init : I [] b) (step : ∀ done a rest, l = done ++ a :: rest → ∀ b, I done b →
      Yields fails (f b a) (I (done ++ [a]))) : Yields fails (l.foldlM f b) (I l) := by
  have hind : ∀ (rest done : List α) (b : β), l = done ++ rest → I done b →
      Yields fails (rest.foldlM f b) (I l) := by
    intro rest
    induction rest with
    | nil =>
      intro done b hl hI
      rw [List.append_nil] at hl
      exact Yields.ok (hl ▸ hI)
    | cons a rest ih =>
      intro done b hl hI
      rw [List.foldlM_cons]
      exact (step done a rest hl b hI).bind fun b₁ => ih (done ++ [a]) b₁ (by simpa using hl)
  exact hind l [] b rfl init

theorem Yields.forM {l : List α} {f : α → Except ε Unit}
    (h : ∀ a ∈ l, Yields fails (f a) fun _ => post a) :
    Yields fails (l.forM f) fun _ => ∀ a ∈ l, post a := by
  induction l with
  | nil => exact Yields.ok (by simp)
  | cons a l ih =>
    show Yields fails (f a >>= fun _ => l.forM f) _
    refine (h a List.mem_cons_self).bind fun _ ha => ?_
    refine (ih fun x hx => h x (List.mem_cons_of_mem _ hx)).mono fun _ hl => ?_
    exact List.forall_mem_cons.2 ⟨ha, hl⟩

theorem Yields.mapM {l : List α} {f : α → Except ε β}
    (h : ∀ a ∈ l, Yields fails (f a) fun _ => True) : Yields fails (l.mapM f) fun _ => True := by
  induction l with
  | nil => exact Yields.ok trivial
  | cons a l ih =>
    rw [List.mapM_cons]
    refine (h a List.mem_cons_self).bind fun _ _ => ?_
    exact (ih fun x hx => h x (List.mem_cons_of_mem _ hx)).bind fun _ _ => Yields.ok trivial

end Yields

/-! ## Two computations side by side -/

/-- `x` ends like `y`: with related results, or with the same failure. For the reason `why` it may
    instead fail with `stuck`. -/
def EndsLike {δ : Type} (why : Prop) (stuck : ε) (lift : δ → ε) (R : α → β → Prop) (x : Except ε α)
    (y : Except δ β) : Prop :=
  (why ∧ x = .error stuck) ∨ (∃ a b, x = .ok a ∧ y = .ok b ∧ R a b) ∨
    ∃ e, x = .error (lift e) ∧ y = .error e

section EndsLike

variable {δ α' β' : Type} {why : Prop} {stuck : ε} {lift : δ → ε} {R : α → β → Prop}
  {S : α' → β' → Prop}

theorem EndsLike.ok {a : α} {b : β} (h : R a b) : EndsLike why stuck lift R (.ok a) (.ok b) :=
  .inr (.inl ⟨a, b, rfl, rfl, h⟩)

theorem EndsLike.mapError (x : Except δ α) :
    EndsLike why stuck lift (· = ·) (x.mapError lift) x := by
  cases x with
  | ok a => exact EndsLike.ok rfl
  | error e => exact .inr (.inr ⟨e, rfl, rfl⟩)

theorem EndsLike.bind {x : Except ε α} {y : Except δ β} {f : α → Except ε α'} {g : β → Except δ β'}
    (h : EndsLike why stuck lift R x y)
    (hfg : ∀ a b, R a b → EndsLike why stuck lift S (f a) (g b)) :
    EndsLike why stuck lift S (x >>= f) (y >>= g) := by
  rcases h with ⟨hwhy, rfl⟩ | ⟨a, b, rfl, rfl, hab⟩ | ⟨e, rfl, rfl⟩
  · exact .inl ⟨hwhy, rfl⟩
  · exact hfg a b hab
  · exact .inr (.inr ⟨e, rfl, rfl⟩)

theorem EndsLike.foldlM {γ : Type} {l : List γ} {f : α → γ → Except ε α} {g : β → γ → Except δ β}
    (step : ∀ c ∈ l, ∀ a b, R a b → EndsLike why stuck lift R (f a c) (g b c)) {a : α} {b : β}
    (h : R a b) : EndsLike why stuck lift R (l.foldlM f a) (l.foldlM g b) := by
  induction l generalizing a b with
  | nil => exact EndsLike.ok h
  | cons c l ih =>
    rw [List.foldlM_cons, List.foldlM_cons]
    refine (step c List.mem_cons_self a b h).bind fun a' b' h' => ?_
    exact ih (fun c hc => step c (List.mem_cons_of_mem _ hc)) h'

/-- Without the reason to get stuck, `x` has a result related to that of `y`. -/
theorem EndsLike.result {x : Except ε α} {y : Except δ β} (h : EndsLike why stuck lift R x y)
    (hnot : ¬ why) {b : β} (hy : y = .ok b) : ∃ a, x = .ok a ∧ R a b := by
  rcases h with ⟨hwhy, -⟩ | ⟨a, b', rfl, hb', hab⟩ | ⟨e, -, he⟩
  · exact (hnot hwhy).elim
  · rw [hy, Except.ok.injEq] at hb'
    exact ⟨a, rfl, hb' ▸ hab⟩
  · rw [hy] at he
    cases he

end EndsLike

end RapidArm.Lib
