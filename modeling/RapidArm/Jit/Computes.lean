import RapidArm.Jit.Runs

/-!
# What emitted code computes

Triples for emitters, over any machine: `Computes B K w m P w'` says that the code that
`m` emits, run with the facts `K` from the world `w`, gets to the place where `m` stopped
emitting with the facts `P` and the world `w'`; `Leaves B K w m block w'` says that it
jumps to `block` instead. The blocks `B` are there when `m` begins and have no parameters.
Where the code computes something, `m` does not panic.

Results:
* `Computes.bind`, `Computes.bind_leaves`, `Leaves.bind`: sequences of emitters.
* `Computes.read_bind`: a check or a type that the emitter reads first.
* `Computes.emitStmtFull`, `Computes.emit1`, `Computes.void`: statements.
* `computes_assert`, `leaves_assert`: tests.
-/

namespace RapidArm.Jit

open RapidArm.Ir RapidArm.Lib RapidArm.Backend ExecIrBuilder

section Triples

variable {M : Machine} {α β : Type}

/-- The facts have the types of the builder. -/
def Typed (K : List (Fact M)) (b : ExecIrBuilder) : Prop :=
  ∀ f ∈ K, b.ssaValues[f.value]? = some f.ty

/-- The blocks exist and have no parameters; none of them is the entry block. -/
def Exist (B : Set Block) (b : ExecIrBuilder) : Prop :=
  ∀ block ∈ B, block ≠ Block.ENTRYPOINT ∧ HasParams b block []

/-- The emitter appends to the current block, and ends at an open block. -/
def Appends (B : Set Block) (m : BuilderM α) : Prop :=
  ∀ {b a b'}, m b = .ok (a, b') → IsOpen b → Exist B b → Emits b b'

/-- The code of `m` computes `P` and leaves the world `w'`. -/
structure Computes (B : Set Block) (K : List (Fact M)) (w : M.World) (m : BuilderM α)
    (P : α → List (Fact M)) (w' : M.World) : Prop where
  total : ∀ {b}, IsOpen b → Exist B b → Typed K b → ∃ r, m b = .ok r
  emits : ∀ {b a b'}, m b = .ok (a, b') → IsOpen b → Exist B b → Typed K b →
    Emits b b' ∧ Typed (P a) b'
  runs : ∀ {b a b'}, m b = .ok (a, b') → Exist B b → ∀ backend halts F, Emitted Set.univ b' F →
    ∀ {c}, At b c → Knows K b c → c.world = w →
      ∃ c', Follows backend halts F b c b' c' ∧ Knows (P a) b' c' ∧ c'.world = w'

/-- The code of `m` jumps to `block` and leaves the world `w'`. -/
structure Leaves (B : Set Block) (K : List (Fact M)) (w : M.World) (m : BuilderM α)
    (block : Block) (w' : M.World) : Prop where
  emits : ∀ {b a b'}, m b = .ok (a, b') → IsOpen b → Exist B b → Typed K b → Emits b b'
  runs : ∀ {b a b'}, m b = .ok (a, b') → Exist B b → ∀ backend halts F, Emitted Set.univ b' F →
    ∀ {c}, At b c → Knows K b c → c.world = w →
      ∃ c', Jumps backend halts F b c block c' ∧ c'.world = w'

variable {B : Set Block} {K : List (Fact M)} {w w₁ w' : M.World} {m : BuilderM α}
  {f : α → BuilderM β} {P : α → List (Fact M)} {Q : β → List (Fact M)} {b b' : ExecIrBuilder}

theorem Knows.typed {c : Config M} (h : Knows K b c) : Typed K b := fun f hf => (h f hf).1

theorem Exist.emitted (h : Exist B b) {touched : Set Block} (he : Emitted touched b b') :
    Exist B b' :=
  fun block hb => ⟨(h block hb).1, he.hasParams (h block hb).2⟩

theorem Typed.emitted (h : Typed K b) {touched : Set Block} (he : Emitted touched b b') :
    Typed K b' :=
  fun f hf => getElem?_of_isPrefix he.ssaValues (h f hf)

theorem Typed.nil : Typed ([] : List (Fact M)) b := fun _ hf => by cases hf

theorem Knows.nil {c : Config M} : Knows [] b c := fun _ hf => by cases hf

theorem Typed.append {K' : List (Fact M)} (h : Typed K b) (h' : Typed K' b) :
    Typed (K ++ K') b := by
  intro f hf
  rcases List.mem_append.1 hf with hf | hf
  · exact h f hf
  · exact h' f hf

/-! ## Sequences -/

theorem Appends.bind (hm : Appends B m) (hf : ∀ a, Appends B (f a)) : Appends B (m >>= f) := by
  intro b r b' h hopen hexist
  obtain ⟨a, b₁, h₁, h₂⟩ := emit_bind_ok.1 h
  have he := hm h₁ hopen hexist
  exact he.trans (hf a h₂ he.isOpen (hexist.emitted he.emitted))

theorem Appends.pure (a : α) : Appends B (pure a) := by
  intro b r b' h hopen _
  obtain ⟨-, rfl⟩ := emit_pure_ok.1 h
  exact Emits.refl hopen

theorem Appends.throw (e : Panic) : Appends B (throw e : BuilderM α) := by
  intro b r b' h
  exact (throw_ne_ok h).elim

/-- An emitter that changes nothing. -/
theorem Appends.read (hm : ∀ {b a b'}, m b = .ok (a, b') → b' = b) : Appends B m := by
  intro b a b' h hopen _
  obtain rfl := hm h
  exact Emits.refl hopen

/-- Two emitters; the second one may use what the result of the first one is like. -/
theorem Computes.bind_of {p : α → Prop} (hm : Computes B K w m P w₁)
    (hp : ∀ {b a b'}, m b = .ok (a, b') → Typed K b → p a)
    (hf : ∀ a, p a → Computes B (P a ++ K) w₁ (f a) Q w') :
    Computes B K w (m >>= f) Q w' where
  total hopen hexist hK := by
    obtain ⟨⟨a, b₁⟩, h₁⟩ := hm.total hopen hexist hK
    obtain ⟨he, hfacts⟩ := hm.emits h₁ hopen hexist hK
    obtain ⟨r, h₂⟩ := (hf a (hp h₁ hK)).total he.isOpen (hexist.emitted he.emitted)
      (hfacts.append (hK.emitted he.emitted))
    exact ⟨r, emit_bind_ok.2 ⟨a, b₁, h₁, h₂⟩⟩
  emits h hopen hexist hK := by
    obtain ⟨a, b₁, h₁, h₂⟩ := emit_bind_ok.1 h
    obtain ⟨he, hfacts⟩ := hm.emits h₁ hopen hexist hK
    obtain ⟨he', hfacts'⟩ := (hf a (hp h₁ hK)).emits h₂ he.isOpen (hexist.emitted he.emitted)
      (hfacts.append (hK.emitted he.emitted))
    exact ⟨he.trans he', hfacts'⟩
  runs h hexist backend halts F hF c hat hK hw := by
    obtain ⟨a, b₁, h₁, h₂⟩ := emit_bind_ok.1 h
    obtain ⟨he, hfacts⟩ := hm.emits h₁ ⟨_, hat.2⟩ hexist hK.typed
    have hexist₁ := hexist.emitted he.emitted
    have hf' := hf a (hp h₁ hK.typed)
    obtain ⟨he', -⟩ := hf'.emits h₂ he.isOpen hexist₁ (hfacts.append (hK.typed.emitted he.emitted))
    obtain ⟨c₁, hfollow, hknow, hw₁⟩ := hm.runs h₁ hexist backend halts F (he'.final hF) hat hK hw
    obtain ⟨c', hfollow', hknow', hw'⟩ := hf'.runs h₂ hexist₁ backend halts F hF hfollow.at'
      (hknow.append (hfollow.knows hK)) hw₁
    exact ⟨c', hfollow.trans hfollow', hknow', hw'⟩

theorem Computes.bind (hm : Computes B K w m P w₁)
    (hf : ∀ a, Computes B (P a ++ K) w₁ (f a) Q w') : Computes B K w (m >>= f) Q w' :=
  hm.bind_of (p := fun _ => True) (fun _ _ => trivial) fun a _ => hf a

theorem Computes.bind_leaves {block : Block} (hm : Computes B K w m P w₁)
    (hf : ∀ a, Leaves B (P a ++ K) w₁ (f a) block w') : Leaves B K w (m >>= f) block w' where
  emits h hopen hexist hK := by
    obtain ⟨a, b₁, h₁, h₂⟩ := emit_bind_ok.1 h
    obtain ⟨he, hfacts⟩ := hm.emits h₁ hopen hexist hK
    exact he.trans ((hf a).emits h₂ he.isOpen (hexist.emitted he.emitted)
      (hfacts.append (hK.emitted he.emitted)))
  runs h hexist backend halts F hF c hat hK hw := by
    obtain ⟨a, b₁, h₁, h₂⟩ := emit_bind_ok.1 h
    obtain ⟨he, hfacts⟩ := hm.emits h₁ ⟨_, hat.2⟩ hexist hK.typed
    have hexist₁ := hexist.emitted he.emitted
    have he' := (hf a).emits h₂ he.isOpen hexist₁ (hfacts.append (hK.typed.emitted he.emitted))
    obtain ⟨c₁, hfollow, hknow, hw₁⟩ := hm.runs h₁ hexist backend halts F (he'.final hF) hat hK hw
    obtain ⟨c', hjump, hw'⟩ := (hf a).runs h₂ hexist₁ backend halts F hF hfollow.at'
      (hknow.append (hfollow.knows hK)) hw₁
    exact ⟨c', hfollow.jumps hjump, hw'⟩

/-- What is emitted after the jump is not run. -/
theorem Leaves.bind {block : Block} (hm : Leaves B K w m block w') (hf : ∀ a, Appends B (f a)) :
    Leaves B K w (m >>= f) block w' where
  emits h hopen hexist hK := by
    obtain ⟨a, b₁, h₁, h₂⟩ := emit_bind_ok.1 h
    have he := hm.emits h₁ hopen hexist hK
    exact he.trans (hf a h₂ he.isOpen (hexist.emitted he.emitted))
  runs h hexist backend halts F hF c hat hK hw := by
    obtain ⟨a, b₁, h₁, h₂⟩ := emit_bind_ok.1 h
    have he := hm.emits h₁ ⟨_, hat.2⟩ hexist hK.typed
    have he' := hf a h₂ he.isOpen (hexist.emitted he.emitted)
    exact hm.runs h₁ hexist backend halts F (he'.final hF) hat hK hw

theorem Computes.pure {a : α} (h : ∀ f ∈ P a, f ∈ K) : Computes B K w (pure a) P w where
  total _ _ _ := ⟨_, rfl⟩
  emits hm hopen _ hK := by
    obtain ⟨rfl, rfl⟩ := emit_pure_ok.1 hm
    exact ⟨Emits.refl hopen, fun f hf => hK f (h f hf)⟩
  runs hm _ _ _ _ _ c hat hK hw := by
    obtain ⟨rfl, rfl⟩ := emit_pure_ok.1 hm
    exact ⟨c, Follows.refl hat, fun f hf => hK f (h f hf), hw⟩

/-- An emitter that changes nothing and returns what the types of the facts determine. -/
theorem Computes.read_bind {a : α} (hread : ∀ {b}, Typed K b → m b = .ok (a, b))
    (hf : Computes B K w (f a) Q w') : Computes B K w (m >>= f) Q w' where
  total hopen hexist hK := by
    obtain ⟨r, h⟩ := hf.total hopen hexist hK
    exact ⟨r, emit_bind_ok.2 ⟨a, _, hread hK, h⟩⟩
  emits h hopen hexist hK := by
    obtain ⟨a', b₁, h₁, h₂⟩ := emit_bind_ok.1 h
    obtain ⟨rfl, rfl⟩ := Prod.mk.inj (Except.ok.inj ((hread hK).symm.trans h₁))
    exact hf.emits h₂ hopen hexist hK
  runs h hexist backend halts F hF c hat hK hw := by
    obtain ⟨a', b₁, h₁, h₂⟩ := emit_bind_ok.1 h
    obtain ⟨rfl, rfl⟩ := Prod.mk.inj (Except.ok.inj ((hread hK.typed).symm.trans h₁))
    exact hf.runs h₂ hexist backend halts F hF hat hK hw

/-! ## Checks -/

theorem assertInt_ok {value : SSAValue} {width : IntWidth}
    (h : assertInt value b = .ok (width, b')) :
    b' = b ∧ b.ssaValues[value]? = some (.int width) := by
  obtain ⟨ty, hty, hmatch⟩ := bind_eq_ok.1 h
  rw [arenaGet_eq_ok] at hty
  cases ty with
  | int w =>
    obtain ⟨rfl, rfl⟩ := Prod.mk.inj (Except.ok.inj hmatch)
    exact ⟨rfl, hty⟩
  | bool | hostPtr _ => exact (throw_ne_ok hmatch).elim

theorem assertHostPtr_ok {ptr : SSAValue} {u : Unit} (h : assertHostPtr ptr b = .ok (u, b')) :
    b' = b := by
  obtain ⟨ty, -, hmatch⟩ := bind_eq_ok.1 h
  cases ty with
  | hostPtr _ => exact (Prod.mk.inj (Except.ok.inj hmatch)).2.symm
  | bool | int _ => exact (throw_ne_ok hmatch).elim

theorem tyOf_ok {value : SSAValue} {ty : TypeFull} (h : tyOf value b = .ok (ty, b')) :
    b' = b ∧ b.ssaValues[value]? = some ty := by
  obtain ⟨ty', hty, hpure⟩ := bind_eq_ok.1 h
  obtain ⟨rfl, rfl⟩ := Prod.mk.inj (Except.ok.inj hpure)
  exact ⟨rfl, arenaGet_eq_ok.1 hty⟩

theorem check_ok {p : Prop} [Decidable p] {e : Panic} {u : Unit} (h : check p e b = .ok (u, b')) :
    b' = b ∧ p := by
  obtain ⟨hp, rfl⟩ := emit_require_ok.1 h
  exact ⟨rfl, hp⟩

theorem Computes.assertInt_bind {v : SSAValue} {width : IntWidth} {x : M.Val}
    {f : IntWidth → BuilderM β} (hv : ⟨v, .int width, x⟩ ∈ K) (hf : Computes B K w (f width) Q w') :
    Computes B K w (assertInt v >>= f) Q w' := by
  refine Computes.read_bind (fun hK => ?_) hf
  show (arenaGet _ v >>= _) = _
  rw [arenaGet_eq_ok.2 (hK _ hv)]
  rfl

theorem Computes.tyOf_bind {v : SSAValue} {ty : TypeFull} {x : M.Val} {f : TypeFull → BuilderM β}
    (hv : ⟨v, ty, x⟩ ∈ K) (hf : Computes B K w (f ty) Q w') :
    Computes B K w (tyOf v >>= f) Q w' := by
  refine Computes.read_bind (fun hK => ?_) hf
  show (arenaGet _ v >>= _) = _
  rw [arenaGet_eq_ok.2 (hK _ hv)]
  rfl

theorem Computes.check_bind {p : Prop} [Decidable p] {e : Panic} {f : Unit → BuilderM β} (hp : p)
    (hf : Computes B K w (f ()) Q w') : Computes B K w (check p e >>= f) Q w' :=
  Computes.read_bind (fun _ => emit_require_ok.2 ⟨hp, rfl⟩) hf

theorem Computes.assertHostPtr_bind {ptr : SSAValue} {r : AliasRegion} {x : M.Val}
    {f : Unit → BuilderM β} (hv : ⟨ptr, .hostPtr r, x⟩ ∈ K) (hf : Computes B K w (f ()) Q w') :
    Computes B K w (assertHostPtr ptr >>= f) Q w' := by
  refine Computes.read_bind (fun hK => ?_) hf
  show (arenaGet _ ptr >>= _) = _
  rw [arenaGet_eq_ok.2 (hK _ hv)]
  rfl

/-! ## Statements -/

/-- The facts of the outputs of a statement. -/
def outputFacts (outputs : List SSAValue) (tys : List TypeFull) (vals : List M.Val) :
    List (Fact M) :=
  (outputs.zip (tys.zip vals)).map fun p => ⟨p.1, p.2.1, p.2.2⟩

theorem mem_outputFacts {n k : ℕ} {tys : List TypeFull} {vals : List M.Val} {f : Fact M}
    (h : f ∈ outputFacts (List.range' n k) tys vals) :
    ∃ i, f.value = n + i ∧ tys[i]? = some f.ty ∧ vals[i]? = some f.val := by
  obtain ⟨⟨v, ty, x⟩, hmem, rfl⟩ := List.mem_map.1 h
  obtain ⟨i, hi⟩ := List.mem_iff_getElem?.1 hmem
  obtain ⟨hv, hrest⟩ := List.getElem?_zip_eq_some.1 hi
  obtain ⟨hty, hx⟩ := List.getElem?_zip_eq_some.1 hrest
  refine ⟨i, ?_, hty, hx⟩
  obtain ⟨hlt, heq⟩ := List.getElem?_eq_some_iff.1 hv
  rw [List.getElem_range'] at heq
  rw [Nat.one_mul] at heq
  exact heq.symm

theorem emitStmtFull_length {k : ℕ} {rvalue : StmtKind} {outputs : List SSAValue}
    (h : emitStmtFull k rvalue b = .ok (outputs, b')) : outputs.length = k := by
  obtain ⟨tys, data, -, hlen, -, rfl, -⟩ := emitStmtFull_eq_ok h
  rw [List.length_range', hlen]

theorem emitStmtFull_ok {k : ℕ} {rvalue : StmtKind} {tys : List TypeFull}
    (htys : b.typeOf rvalue = .ok tys)
    (hlen : tys.length = k) (hopen : IsOpen b) : ∃ r, emitStmtFull k rvalue b = .ok r := by
  obtain ⟨n, data, hdata, -⟩ := hopen
  exact ⟨_, bind_eq_ok.2 ⟨tys, htys, bind_eq_ok.2 ⟨(), require_eq_ok.2 hlen,
    bind_eq_ok.2 ⟨data, arenaGet_eq_ok.2 hdata, rfl⟩⟩⟩⟩

/-- A statement whose operands are among the facts. -/
theorem Computes.emitStmtFull {k : ℕ} {rvalue : StmtKind} {tys : List TypeFull} {vals : List M.Val}
    (args : List (Fact M)) (hargs : ∀ f ∈ args, f ∈ K)
    (hops : rvalue.operands = args.map Fact.value) (hne : rvalue ≠ .loadHaltReason)
    (htys : ∀ b, Typed K b → b.typeOf rvalue = .ok tys) (htysLen : tys.length = k)
    (hlen : vals.length = k) (heval : M.eval rvalue (args.map Fact.val) w = some (vals, w')) :
    Computes B K w (emitStmtFull k rvalue) (fun outputs => outputFacts outputs tys vals) w' where
  total hopen _ hK := emitStmtFull_ok (htys _ hK) htysLen hopen
  emits h hopen _ hK := by
    refine ⟨Emits.stmt h hopen, fun f hf => ?_⟩
    obtain ⟨n, hopen⟩ := hopen
    obtain ⟨-, -, -, ⟨tys', htys', -, hvals⟩, rfl, -⟩ := emitStmtFull_spec h hopen
    obtain rfl : tys' = tys := Except.ok.inj (htys'.symm.trans (htys _ hK))
    obtain ⟨i, hi, hty, -⟩ := mem_outputFacts hf
    rw [hvals, hi, List.getElem?_append_right (Nat.le_add_right _ _), Nat.add_sub_cancel_left]
    exact hty
  runs h _ backend halts F hF c hat hK hw := by
    have henv : rvalue.operands.map c.env = args.map Fact.val := by
      rw [hops, List.map_map]
      exact List.map_congr_left fun f hf => (hK f (hargs f hf)).2
    obtain ⟨c', hfollow, hworld, rfl, tys', htys', hout⟩ :=
      follows_emit h hF hat hne hlen (by rw [henv, hw]; exact heval)
    obtain rfl : tys' = tys := Except.ok.inj (htys'.symm.trans (htys _ hK.typed))
    refine ⟨c', hfollow, fun f hf => ?_, hworld⟩
    obtain ⟨i, hi, hty, hval⟩ := mem_outputFacts hf
    obtain ⟨v, ty, x⟩ := f
    obtain rfl : v = _ := hi
    exact hout i ty x hty hval

/-- A statement with one result. -/
theorem Computes.emit1 {rvalue : StmtKind} {ty : TypeFull} {x : M.Val}
    (args : List (Fact M)) (hargs : ∀ f ∈ args, f ∈ K)
    (hops : rvalue.operands = args.map Fact.value) (hne : rvalue ≠ .loadHaltReason)
    (hty : ∀ b, Typed K b → b.typeOf rvalue = .ok [ty])
    (heval : M.eval rvalue (args.map Fact.val) w = some ([x], w')) :
    Computes B K w (emit1RetStmt rvalue) (fun v => [⟨v, ty, x⟩]) w' := by
  refine (Computes.emitStmtFull args hargs hops hne hty rfl rfl heval).bind_of (fun h _ =>
    emitStmtFull_length h) ?_
  intro outputs hlen
  obtain ⟨v, rfl⟩ := List.length_eq_one_iff.1 hlen
  exact Computes.pure fun f hf => List.mem_append_left _ hf

/-- A statement with two results. -/
theorem Computes.emit2 {rvalue : StmtKind} {ty₁ ty₂ : TypeFull} {x₁ x₂ : M.Val}
    (args : List (Fact M)) (hargs : ∀ f ∈ args, f ∈ K)
    (hops : rvalue.operands = args.map Fact.value) (hne : rvalue ≠ .loadHaltReason)
    (hty : ∀ b, Typed K b → b.typeOf rvalue = .ok [ty₁, ty₂])
    (heval : M.eval rvalue (args.map Fact.val) w = some ([x₁, x₂], w')) :
    Computes B K w (emit2RetStmt rvalue) (fun v => [⟨v.1, ty₁, x₁⟩, ⟨v.2, ty₂, x₂⟩]) w' := by
  refine (Computes.emitStmtFull args hargs hops hne hty rfl rfl heval).bind_of (fun h _ =>
    emitStmtFull_length h) ?_
  intro outputs hlen
  obtain ⟨v₁, v₂, rfl⟩ := List.length_eq_two.1 hlen
  exact Computes.pure fun f hf => List.mem_append_left _ hf

/-- A statement without a result. -/
theorem Computes.void {rvalue : StmtKind} (args : List (Fact M)) (hargs : ∀ f ∈ args, f ∈ K)
    (hops : rvalue.operands = args.map Fact.value) (hne : rvalue ≠ .loadHaltReason)
    (hty : ∀ b, Typed K b → b.typeOf rvalue = .ok [])
    (heval : M.eval rvalue (args.map Fact.val) w = some ([], w')) :
    Computes B K w (emitVoidStmt rvalue) (fun _ => []) w' := by
  refine (Computes.emitStmtFull args hargs hops hne hty rfl rfl heval).bind fun outputs => ?_
  exact Computes.pure fun f hf => by cases hf

theorem appends_emit1 (rvalue : StmtKind) : Appends B (emit1RetStmt rvalue) :=
  fun h hopen _ => Emits.stmt1 h hopen

theorem appends_void (rvalue : StmtKind) : Appends B (emitVoidStmt rvalue) :=
  fun h hopen _ => Emits.void h hopen

theorem appends_assertInt (v : SSAValue) : Appends B (assertInt v) :=
  Appends.read fun h => (assertInt_ok h).1

theorem appends_tyOf (v : SSAValue) : Appends B (tyOf v) := Appends.read fun h => (tyOf_ok h).1

theorem appends_check (p : Prop) [Decidable p] (e : Panic) : Appends B (check p e) :=
  Appends.read fun h => (check_ok h).1

theorem appends_icmp (cmp : IntCmp) (l r : SSAValue) : Appends B (icmp cmp l r) := by
  refine Appends.bind (appends_assertInt r) fun width => ?_
  refine Appends.bind (appends_assertInt l) fun width' => ?_
  exact Appends.bind (appends_check _ _) fun _ => appends_emit1 _

theorem appends_bitandImm (l : SSAValue) (c : IConst) : Appends B (bitandImm l c) := by
  refine Appends.bind (appends_tyOf l) fun ty => ?_
  unfold bitwiseTypeGuard
  cases ty with
  | int width => exact Appends.bind (appends_check _ _) fun _ => appends_emit1 _
  | bool | hostPtr _ => exact Appends.throw _

/-! ## Tests -/

theorem appends_assert (cond : SSAValue) (expected : Bool) {fail : Block} (hfail : fail ∈ B) :
    Appends B (assertOrJmpTo cond expected fail) := by
  intro b success b' h hopen hexist
  obtain ⟨n, hopen⟩ := hopen
  exact (assertOrJmpTo_spec h (hexist fail hfail).2 hopen).1

theorem computes_assert {cond : SSAValue} {expected : Bool} {fail : Block} (hfail : fail ∈ B)
    {ty : TypeFull} {x : M.Val} (hcond : ⟨cond, ty, x⟩ ∈ K) (hty : ∀ r, ty ≠ .hostPtr r)
    (hx : M.isZero x = !expected) :
    Computes B K w (assertOrJmpTo cond expected fail) (fun _ => []) w where
  total hopen hexist hK := assertOrJmpTo_ok (hK _ hcond) hty (hexist fail hfail).1
    (hexist fail hfail).2 hopen
  emits h hopen hexist _ := ⟨appends_assert cond expected hfail h hopen hexist, Typed.nil⟩
  runs h hexist backend halts F hF c hat hK hw := by
    have hval : M.isZero (c.env cond) = !expected := by rw [(hK _ hcond).2, hx]
    obtain ⟨c', hfollow, hw'⟩ := (assertOrJmpTo_runs h (hexist fail hfail).2 hF hat).1 hval
    exact ⟨c', hfollow, Knows.nil, hw'.trans hw⟩

theorem leaves_assert {cond : SSAValue} {expected : Bool} {fail : Block} (hfail : fail ∈ B)
    {ty : TypeFull} {x : M.Val} (hcond : ⟨cond, ty, x⟩ ∈ K) (hx : M.isZero x = expected) :
    Leaves B K w (assertOrJmpTo cond expected fail) fail w where
  emits h hopen hexist _ := appends_assert cond expected hfail h hopen hexist
  runs h hexist backend halts F hF c hat hK hw := by
    have hval : M.isZero (c.env cond) = expected := by rw [(hK _ hcond).2, hx]
    obtain ⟨c', hjump, hw'⟩ := (assertOrJmpTo_runs h (hexist fail hfail).2 hF hat).2 hval
    exact ⟨c', hjump, hw'.trans hw⟩

end Triples

end RapidArm.Jit
