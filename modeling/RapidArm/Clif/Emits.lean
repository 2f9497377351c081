import RapidArm.Clif.Lowering

/-!
# What inserted instructions do

`Emits` is a Hoare triple for the emitters of instructions: what an emitter inserts, run in a
state, gets to a state with a property, and keeps the values there were.

Results:
* `Emits.bind`, `emits_emit`: the rules for emitters in sequence and for one instruction.
* `emits_binary` and others: what the single instructions compute.
-/

namespace RapidArm.Clif

open RapidArm.Ir RapidArm.Jit RapidArm.Lib RapidArm.Backend RapidArm.Mmu

/-! ## Triples -/

section Triples

variable {W : Type} (host : FlatHost W) (halts : ℕ → BitVec 32)

/-- The value has this word, of its type. -/
def Holds (types : List IntWidth) (s : ClifState W) (v : ClifValue) (x : Word) : Prop :=
  types[v]? = some x.width ∧ s.env v = x

/-- More values are there, and those there were have kept their words. -/
structure Extends (types : List IntWidth) (s : ClifState W) (types' : List IntWidth)
   
    (s' : ClifState W) : Prop where
  grows : types <+: types'
  keeps : ∀ v < types.length, s'.env v = s.env v

/-- What the emitter inserts runs from `s` to a state with the property `Q`. -/
def Emits {α : Type} (types : List IntWidth) (s : ClifState W) (m : ClifM α)
    (Q : α → List IntWidth → ClifState W → Prop) : Prop :=
  ∀ insts a t, m ⟨types, insts⟩ = .ok (a, t) → ∃ new s', t.insts = insts ++ new ∧
    execInsts host halts s new = some s' ∧ Extends types s t.types s' ∧ Q a t.types s'

variable {host halts} {α β : Type} {types types' types'' : List IntWidth} {s s' s'' : ClifState W}
  {Q Q' : α → List IntWidth → ClifState W → Prop}

theorem Extends.refl : Extends types s types s := ⟨List.prefix_refl _, fun _ _ => rfl⟩

theorem Extends.trans (h : Extends types s types' s') (h' : Extends types' s' types'' s'') :
    Extends types s types'' s'' where
  grows := h.grows.trans h'.grows
  keeps v hv := (h'.keeps v (lt_of_lt_of_le hv h.grows.length_le)).trans (h.keeps v hv)

theorem Holds.lt {v : ClifValue} {x : Word} (h : Holds types s v x) : v < types.length :=
  getElem?_eq_some_lt h.1

theorem Holds.extends {v : ClifValue} {x : Word} (h : Holds types s v x)
    (he : Extends types s types' s') :
    Holds types' s' v x :=
  ⟨getElem?_of_isPrefix he.grows h.1, (he.keeps v h.lt).trans h.2⟩

theorem Emits.mono {m : ClifM α} (h : Emits host halts types s m Q)
    (hQ : ∀ a types' s', Extends types s types' s' → Q a types' s' → Q' a types' s') :
    Emits host halts types s m Q' := by
  intro insts a t hrun
  obtain ⟨new, s', hnew, hexec, hext, hpost⟩ := h insts a t hrun
  exact ⟨new, s', hnew, hexec, hext, hQ a t.types s' hext hpost⟩

theorem emits_pure {a : α} (h : Q a types s) : Emits host halts types s (pure a) Q := by
  intro insts a' t hrun
  obtain ⟨rfl, rfl⟩ := Prod.mk.inj (Except.ok.inj hrun)
  exact ⟨[], s, by simp, rfl, Extends.refl, h⟩

theorem emits_fail {e : ClifError} : Emits host halts types s (fail e : ClifM α) Q := by
  intro insts a t hrun
  cases hrun

theorem execInsts_append {code code' : List ClifStmt} (h : execInsts host halts s code = some s')
    (h' : execInsts host halts s' code' = some s'') :
    execInsts host halts s (code ++ code') = some s'' := by
  unfold execInsts at h h' ⊢
  rw [List.foldlM_append, h]
  exact h'

theorem Emits.bind {m : ClifM α} {f : α → ClifM β} {Q : β → List IntWidth → ClifState W → Prop}
    (h : Emits host halts types s m fun a types' s' =>
      Extends types s types' s' → Emits host halts types' s' (f a) Q) :
    Emits host halts types s (m >>= f) Q := by
  intro insts b t hrun
  obtain ⟨⟨a, t₁⟩, hm, hf⟩ := bind_eq_ok.1 hrun
  obtain ⟨new, s₁, hnew, hexec, hext, hpost⟩ := h insts a t₁ hm
  obtain ⟨new', s₂, hnew', hexec', hext', hpost'⟩ := hpost hext t₁.insts b t hf
  refine ⟨new ++ new', s₂, ?_, execInsts_append hexec hexec', hext.trans hext', hpost'⟩
  rw [hnew', hnew, List.append_assoc]

theorem emits_valueType {v : ClifValue} {x : Word}
    {Q : IntWidth → List IntWidth → ClifState W → Prop} (hv : Holds types s v x)
    (h : Q x.width types s) :
    Emits host halts types s (valueType v) Q := by
  intro insts a t hrun
  unfold valueType at hrun
  rw [hv.1] at hrun
  obtain ⟨rfl, rfl⟩ := Prod.mk.inj (Except.ok.inj hrun)
  exact ⟨[], s, by simp, rfl, Extends.refl, h⟩

/-- Binding new values keeps the old ones. -/
theorem bindValues_range' (ρ : ClifValue → Word) (n : ℕ) (words : List Word) :
    (∀ v < n, bindValues ρ (List.range' n words.length) words v = ρ v) ∧
      ∀ i x, words[i]? = some x → bindValues ρ (List.range' n words.length) words (n + i) = x := by
  induction words generalizing ρ n with
  | nil => exact ⟨fun _ _ => rfl, fun i x hi => by simp at hi⟩
  | cons y words ih =>
    obtain ⟨hold, hnew⟩ := ih (Function.update ρ n y) (n + 1)
    have hstep : bindValues ρ (List.range' n (words.length + 1)) (y :: words) =
        bindValues (Function.update ρ n y) (List.range' (n + 1) words.length) words := rfl
    rw [List.length_cons, hstep]
    constructor
    · intro v hv
      rw [hold v (by omega)]
      exact Function.update_of_ne (Nat.ne_of_lt hv) _ _
    · intro i x hi
      cases i with
      | zero =>
        obtain rfl := Option.some.inj hi
        exact (hold n (Nat.lt_succ_self n)).trans (Function.update_self n y ρ)
      | succ i =>
        have := hnew i x hi
        rwa [Nat.add_right_comm] at this

/-- An instruction that is executed. -/
theorem emits_emit {inst : ClifInst} {tys : List IntWidth} {results : List Word}
    {world : W} {reads : ℕ} {Q : List ClifValue → List IntWidth → ClifState W → Prop}
    (heval : inst.eval host halts s = some (results, world, reads))
    (htys : tys = results.map Word.width)
    (h : ∀ s', Extends types s (types ++ tys) s' → s'.world = world → s'.reads = reads →
      List.Forall₂ (Holds (types ++ tys) s') (List.range' types.length tys.length) results →
      Q (List.range' types.length tys.length) (types ++ tys) s') :
    Emits host halts types s (emit inst tys) Q := by
  intro insts a t hrun
  obtain ⟨rfl, rfl⟩ := Prod.mk.inj (Except.ok.inj hrun)
  subst htys
  rw [List.length_map] at h ⊢
  obtain ⟨hold, hnew⟩ := bindValues_range' s.env types.length results
  have hexec : execInsts host halts s [⟨List.range' types.length results.length, inst⟩] =
      some ⟨bindValues s.env (List.range' types.length results.length) results, world, reads⟩ := by
    simp [execInsts, ClifStmt.exec, heval]
  have hext : Extends types s (types ++ results.map Word.width)
      ⟨bindValues s.env (List.range' types.length results.length) results, world, reads⟩ :=
    ⟨List.prefix_append _ _, hold⟩
  refine ⟨[_], _, rfl, hexec, hext, h _ hext rfl rfl ?_⟩
  refine List.forall₂_iff_get.2 ⟨by simp, fun i hi hi' => ?_⟩
  have hget : results[i]? = some results[i] := List.getElem?_eq_getElem hi'
  rw [List.get_eq_getElem, List.get_eq_getElem, List.getElem_range', Nat.one_mul]
  refine ⟨?_, hnew i _ hget⟩
  rw [List.getElem?_append_right (Nat.le_add_right _ _), Nat.add_sub_cancel_left, List.getElem?_map,
    hget, Option.map_some]

/-- One value was computed. -/
def One (world : W) (reads : ℕ) (x : Word) (v : ClifValue) (types : List IntWidth)
   
    (s : ClifState W) : Prop :=
  s.world = world ∧ s.reads = reads ∧ Holds types s v x

/-- Some values were computed. -/
def Many (world : W) (reads : ℕ) (words : List Word) (vs : List ClifValue) (types : List IntWidth)
    (s : ClifState W) : Prop :=
  s.world = world ∧ s.reads = reads ∧ List.Forall₂ (Holds types s) vs words

theorem emits_emit1 {inst : ClifInst} {x : Word} {ty : IntWidth} {world : W} {reads : ℕ}
    (heval : inst.eval host halts s = some ([x], world, reads)) (hty : ty = x.width) :
    Emits host halts types s (emit1 inst ty) (One world reads x) := by
  subst hty
  refine Emits.bind (emits_emit heval rfl fun s' hext hworld hreads hall _ => ?_)
  obtain ⟨hv, -⟩ := List.forall₂_cons.1 hall
  exact emits_pure ⟨hworld, hreads, hv⟩

theorem emits_many {inst : ClifInst} {words : List Word} {tys : List IntWidth}
    {world : W} {reads : ℕ} (heval : inst.eval host halts s = some (words, world, reads))
    (htys : tys = words.map Word.width) :
    Emits host halts types s (emit inst tys) (Many world reads words) :=
  emits_emit heval htys fun _ _ hworld hreads hall => ⟨hworld, hreads, hall⟩

theorem Emits.singleton {m : ClifM ClifValue} {world : W} {reads : ℕ} {x : Word}
    (h : Emits host halts types s m (One world reads x)) :
    Emits host halts types s (do return [← m]) (Many world reads [x]) :=
  Emits.bind (h.mono fun _ _ _ _ ⟨hworld, hreads, hv⟩ _ =>
    emits_pure ⟨hworld, hreads, List.Forall₂.cons hv List.Forall₂.nil⟩)

/-! ### Single instructions -/

theorem Word.binary_width {op : BinaryOp} {x y r : Word} (h : Word.binary op x y = some r) :
    r.width = x.width := by
  unfold Word.binary at h
  split at h
  case h_4 =>
    split_ifs at h
    obtain ⟨bits, -, rfl⟩ := Option.map_eq_some_iff.1 h
    rfl
  all_goals
    obtain rfl := Option.some.inj h
    rfl

section Instructions

variable {x y z r : Word} {lhs rhs cond : ClifValue}

theorem emits_iconst (c : IConst) : Emits host halts types s (iconst c)
    (One s.world s.reads ⟨c.width, c.bits.setWidth c.width.bits⟩) :=
  emits_emit1 rfl rfl

theorem emits_binary {op : BinaryOp} (hx : Holds types s lhs x) (hy : Holds types s rhs y)
    (hr : Word.binary op x y = some r) :
    Emits host halts types s (binary op lhs rhs) (One s.world s.reads r) := by
  refine Emits.bind (emits_valueType hx fun _ => emits_emit1 ?_ (Word.binary_width hr).symm)
  obtain ⟨-, rfl⟩ := hx
  obtain ⟨-, rfl⟩ := hy
  simp [ClifInst.eval, ClifInst.compute, hr]

theorem emits_binaryImm {op : BinaryOp} {imm : BitVec 64} {bits : BitVec x.width.bits}
    (hx : Holds types s lhs x) (hr : op.apply x.bits (imm.setWidth x.width.bits) = some bits) :
    Emits host halts types s (binaryImm op lhs imm) (One s.world s.reads ⟨x.width, bits⟩) := by
  refine Emits.bind (emits_valueType hx fun _ => emits_emit1 ?_ rfl)
  obtain ⟨-, rfl⟩ := hx
  simp [ClifInst.eval, ClifInst.compute, Word.binaryImm, hr]

theorem emits_unary {op : UnaryOp} (hx : Holds types s lhs x) :
    Emits host halts types s (unary op lhs) (One s.world s.reads ⟨x.width, op.apply x.bits⟩) := by
  refine Emits.bind (emits_valueType hx fun _ => emits_emit1 ?_ rfl)
  obtain ⟨-, rfl⟩ := hx
  rfl

theorem emits_icmp {cc : IntCC} {bits : BitVec x.width.bits} (hx : Holds types s lhs x)
    (hy : Holds types s rhs ⟨x.width, bits⟩) :
    Emits host halts types s (icmp cc lhs rhs)
      (One s.world s.reads ⟨.w8, clifBool (cc.holds x.bits bits)⟩) := by
  refine emits_emit1 ?_ rfl
  obtain ⟨-, rfl⟩ := hx
  obtain ⟨-, hy⟩ := hy
  simp only [ClifInst.eval, ClifInst.compute]
  generalize s.env rhs = y at hy
  subst hy
  simp

theorem emits_icmpImm {cc : IntCC} {imm : BitVec 64} (hx : Holds types s lhs x) :
    Emits host halts types s (icmpImm cc lhs imm)
      (One s.world s.reads ⟨.w8, clifBool (cc.holds x.bits (imm.setWidth x.width.bits))⟩) := by
  refine emits_emit1 ?_ rfl
  obtain ⟨-, rfl⟩ := hx
  rfl

theorem emits_select (hc : Holds types s cond z) (hx : Holds types s lhs x)
    (hy : Holds types s rhs y)
    (hxy : x.width = y.width) : Emits host halts types s (select cond lhs rhs)
      (One s.world s.reads (if z.bits != 0 then x else y)) := by
  have hwidth : x.width = (if z.bits != 0 then x else y).width := by
    split_ifs
    · rfl
    · exact hxy
  refine Emits.bind (emits_valueType hx fun _ => emits_emit1 ?_ hwidth)
  obtain ⟨-, rfl⟩ := hc
  obtain ⟨-, rfl⟩ := hx
  obtain ⟨-, rfl⟩ := hy
  simp only [ClifInst.eval, ClifInst.compute, if_pos hxy]
  rfl

theorem emits_assertValueTy {ty : IntWidth} {context : String}
    {Q : Unit → List IntWidth → ClifState W → Prop} (hx : Holds types s lhs x)
    (h : x.width = ty → Q () types s) :
    Emits host halts types s (assertValueTy lhs ty context) Q := by
  refine Emits.bind (emits_valueType hx fun _ => ?_)
  by_cases hty : x.width = ty
  · rw [if_pos hty]
    exact emits_pure (h hty)
  · rw [if_neg hty]
    exact emits_fail

end Instructions

end Triples

end RapidArm.Clif
