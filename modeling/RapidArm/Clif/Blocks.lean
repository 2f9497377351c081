import RapidArm.Clif.Layout

/-!
# The code of a function

What `FunctionLowering` has built when it returns: every reachable block has its parameters and
the code of its statements and terminator, and the first block of the layout is the entry block.

Results:
* `lowerBlock_layout`: one more block is filled with its code.
* `new_ok`: the blocks that `new` creates.
* `lowerFunction_layout`: every reachable block has its code.
-/

namespace RapidArm.Clif

open RapidArm.Ir RapidArm.Jit RapidArm.Lib RapidArm.Backend RapidArm.HaltCheck

/-! ## The blocks of a function -/

section Blocks

variable (codeAddr : HostCallback → Address) (ir : ExecIrBuilder)
  (values : SSAValue → Option ClifValue) (blocks : Block → Option ClifBlock)

/-- The Cranelift value of a block parameter, of its type. -/
def Param (types : List IntWidth) (p : SSAValue) (c : ClifValue) : Prop :=
  values p = some c ∧ ∃ ty, ir.ssaValues[p]? = some ty ∧ types[c]? = some (irTyToClifTy ty)

/-- The data of a block and of its Cranelift block. -/
structure BlockOf (f : ClifFunction) (b : Block) (cb : ClifBlock)
    (data : ClifBlockData) : Prop where
  block : blocks b = some cb
  get : f.blocks[cb]? = some data
  params : List.Forall₂ (Param ir values f.types) (ir.blockD b).parameters data.params

/-- The block `b` has the code of its statements and terminator. -/
def HasCode (f : ClifFunction) (b : Block) : Prop :=
  ∃ cb data types term, BlockOf ir values blocks f b cb data ∧ data.terminator = some term ∧
    CodeFrom codeAddr ir values blocks f.types b 0 types data.insts term

/-- The block `b` has its parameters only. -/
def HasNoCode (f : ClifFunction) (b : Block) : Prop :=
  ∃ cb data, BlockOf ir values blocks f b cb data ∧ data.insts = [] ∧ data.terminator = none

end Blocks

section Lower

variable {codeAddr : HostCallback → Address} {ir : ExecIrBuilder}
  {s s' : FunctionLowering (clif codeAddr)} {order done after : List Block} {b : Block}

/-- The function that is built. -/
abbrev funcOf (s : FunctionLowering (clif codeAddr)) : ClifFunction := ClifBuilder.func s.builder

/-- The function after the blocks `done` have been lowered. -/
structure Laying (ir : ExecIrBuilder) (order done : List Block)
   
    (s : FunctionLowering (clif codeAddr)) : Prop where
  values : ValuesInv s
  distinct : ∀ b b' cb, s.blocks b = some cb → s.blocks b' = some cb → b = b'
  filled : ∀ b ∈ done, HasCode codeAddr ir s.values s.blocks (funcOf s) b
  empty : ∀ b ∈ order, b ∉ done → HasNoCode ir s.values s.blocks (funcOf s) b
  layout : (funcOf s).layout.head? = done.head?.bind s.blocks
  ready : FunctionLowering.Ready ir order done s

theorem Param.mono {values values' : SSAValue → Option ClifValue} {types types' : List IntWidth}
    (h : SubMap values values') (ht : types <+: types') {p : SSAValue} {c : ClifValue}
    (hp : Param ir values types p c) : Param ir values' types' p c := by
  obtain ⟨hc, ty, hty, htypes⟩ := hp
  exact ⟨h p c hc, ty, hty, getElem?_of_isPrefix ht htypes⟩

/-- Other blocks are not changed. -/
theorem BlockOf.grow {cb cb' : ClifBlock} {change : ClifBlockData → ClifBlockData}
    {data : ClifBlockData} (h : BlockOf ir s.values s.blocks (funcOf s) b cb data)
    (hgrows : Grows cb' change s s')
    (hne : cb' ≠ cb) : BlockOf ir s'.values s'.blocks (funcOf s') b cb data where
  block := hgrows.blocks ▸ h.block
  get := by
    show (ClifBuilder.func s'.builder).blocks[cb]? = _
    rw [hgrows.func, List.getElem?_modify_ne _ _ hne]
    exact h.get
  params := List.Forall₂.imp (fun _ _ hp => hp.mono hgrows.values hgrows.types) h.params

/-- The cursor at a block. -/
def switched (s : FunctionLowering (clif codeAddr)) (cb : ClifBlock) :
    FunctionLowering (clif codeAddr) :=
  { s with builder := (clif codeAddr).switchToBlock cb s.builder }

/-- One more block is filled with its code. -/
theorem lowerBlock_layout (hlaying : Laying ir order done s) (horder : CompileOrder ir order)
    (huses : UsesDominated ir) (hsplit : order = done ++ b :: after)
    (h : s.lowerBlock ir b = .ok s') : Laying ir order (done ++ [b]) s' := by
  have hready' := (FunctionLowering.lowerBlock_yields hlaying.ready horder huses hsplit).1 s' h
  obtain ⟨cb, hcb, h⟩ := bind_eq_ok.1 h
  obtain ⟨blockData, hget, h⟩ := bind_eq_ok.1 h
  have hcb := clifBlock_ok hcb
  have hnew : b ∉ done := by
    intro hmem
    have hnodup := horder.nodup
    rw [hsplit, List.nodup_append] at hnodup
    exact hnodup.2.2 b hmem b List.mem_cons_self rfl
  have hready : ReadyAt ir order done b 0 (switched s cb) :=
    ⟨hlaying.ready.mono fun v hv => hv, by simp⟩
  rw [← blockD_eq (get_ok hget)] at h
  obtain ⟨code, term, hgrows, hcode⟩ := lowerRest_ok horder hsplit rfl rfl
    (⟨hlaying.values.there, hlaying.values.inj⟩ : ValuesInv (switched s cb)) hready h
  have hblocks : s'.blocks = s.blocks := hgrows.blocks
  have hvalues : SubMap s.values s'.values := hgrows.values
  have hself : ∀ {u cb' data}, BlockOf ir s.values s.blocks (funcOf s) u cb' data →
      BlockOf ir (switched s cb).values (switched s cb).blocks (funcOf (switched s cb))
        u cb' data :=
    fun hu => ⟨hu.block, hu.get, hu.params⟩
  refine ⟨hgrows.inv, ?_, ?_, ?_, ?_, hready'⟩
  · rw [hblocks]
    exact hlaying.distinct
  · intro u hu
    rcases List.mem_append.1 hu with hu | hu
    · obtain ⟨cb', data, types, term', hof, hterm, hcode'⟩ := hlaying.filled u hu
      have hne : cb ≠ cb' := by
        rintro rfl
        exact hnew (hlaying.distinct u b cb hof.block hcb ▸ hu)
      refine ⟨cb', data, types, term', (hself hof).grow hgrows hne, hterm, ?_⟩
      rw [hblocks]
      exact hcode'.mono hvalues hgrows.types
    · obtain rfl := List.mem_singleton.1 hu
      obtain ⟨cb', data, hof, hinsts, hterm⟩ := hlaying.empty u (by rw [hsplit]; simp) hnew
      obtain rfl := Option.some.inj (hcb.symm.trans hof.block)
      refine ⟨cb, endBlock code term data, typesOf s, term, ⟨hblocks ▸ hcb, ?_, ?_⟩, rfl, ?_⟩
      · show (ClifBuilder.func s'.builder).blocks[cb]? = _
        rw [hgrows.func, List.getElem?_modify_eq]
        exact congrArg (Option.map (endBlock code term)) hof.get
      · exact List.Forall₂.imp (fun _ _ hp => hp.mono hvalues hgrows.types) hof.params
      · have hall : (endBlock code term data).insts = code := by simp [endBlock, hinsts]
        rw [hall]
        exact hcode
  · intro u hu hnot
    have hnot : u ∉ done ∧ u ≠ b := by simpa [not_or] using hnot
    obtain ⟨cb', data, hof, hinsts, hterm⟩ := hlaying.empty u hu hnot.1
    have hne : cb ≠ cb' := by
      rintro rfl
      exact hnot.2 (hlaying.distinct u b cb hof.block hcb)
    exact ⟨cb', data, (hself hof).grow hgrows hne, hinsts, hterm⟩
  · have hlayout : (funcOf s').layout = (funcOf (switched s cb)).layout := hgrows.layout
    rw [hlayout, hblocks]
    have hhead := hlaying.layout
    cases done with
    | nil =>
      have hempty : (funcOf s).layout = [] := List.head?_eq_none_iff.1 hhead
      have hone : (funcOf (switched s cb)).layout = [cb] := by
        show (if cb ∈ (funcOf s).layout then _ else (funcOf s).layout ++ [cb]) = _
        rw [hempty]
        rfl
      rw [hone]
      exact hcb.symm
    | cons d done =>
      obtain ⟨cb', _, _, _, hof, -⟩ := hlaying.filled d List.mem_cons_self
      have hfirst : (funcOf s).layout.head? = some cb' := hhead.trans hof.block
      refine Eq.trans ?_ hhead
      show (if cb ∈ (funcOf s).layout then (funcOf s).layout else (funcOf s).layout ++ [cb]).head? =
          _
      split_ifs
      · rfl
      · rw [List.head?_append, hfirst]
        rfl

/-! ## The new function -/

/-- The parameters of every block are values of their own. -/
def UniqueParameters (ir : ExecIrBuilder) : Prop := (ir.blocks.flatMap BlockData.parameters).Nodup

instance (ir : ExecIrBuilder) : Decidable (UniqueParameters ir) :=
  inferInstanceAs (Decidable (List.Nodup _))

theorem blockD_parameters {p : SSAValue} (h : p ∈ (ir.blockD b).parameters) :
    ∃ data, ir.blocks[b]? = some data ∧ p ∈ data.parameters := by
  unfold ExecIrBuilder.blockD at h
  rw [List.getD_eq_getElem?_getD] at h
  cases hget : ir.blocks[b]? with
  | some data =>
    rw [hget] at h
    exact ⟨data, rfl, h⟩
  | none =>
    rw [hget] at h
    cases h

theorem UniqueParameters.nodup (h : UniqueParameters ir) (b : Block) :
    (ir.blockD b).parameters.Nodup := by
  by_cases hempty : (ir.blockD b).parameters = []
  · rw [hempty]
    exact List.nodup_nil
  · obtain ⟨p, hp⟩ := List.exists_mem_of_ne_nil _ hempty
    obtain ⟨data, hget, -⟩ := blockD_parameters hp
    rw [blockD_eq hget]
    exact (List.nodup_flatMap.1 h).1 data (List.mem_of_getElem? hget)

theorem UniqueParameters.eq (h : UniqueParameters ir) {b b' : Block} {p : SSAValue}
    (hp : p ∈ (ir.blockD b).parameters) (hp' : p ∈ (ir.blockD b').parameters) : b = b' := by
  obtain ⟨data, hget, hp⟩ := blockD_parameters hp
  obtain ⟨data', hget', hp'⟩ := blockD_parameters hp'
  exact eq_of_mem_flatMap h hget hget' hp hp'

theorem UniqueParameters.flatMap (h : UniqueParameters ir) (horder : order.Nodup) :
    (order.flatMap fun b => (ir.blockD b).parameters).Nodup := by
  refine List.nodup_flatMap.2 ⟨fun b _ => h.nodup b, horder.imp fun hne p hp hp' => ?_⟩
  exact hne (h.eq hp hp')

/-- Only these values have been lowered. -/
def OnlyValues (s : FunctionLowering (clif codeAddr)) (vs : List SSAValue) : Prop :=
  ∀ v c, s.values v = some c → v ∈ vs

/-- Add parameters to a block. -/
def appendParams (params : List ClifValue) (data : ClifBlockData) : ClifBlockData :=
  { data with params := data.params ++ params }

/-- From `s` to `s'`, the block `cb` got the parameters `ps`. -/
structure AddsParams (ir : ExecIrBuilder) (cb : ClifBlock) (ps : List SSAValue)
    (s s' : FunctionLowering (clif codeAddr)) : Prop where
  blocks : s'.blocks = s.blocks
  values : SubMap s.values s'.values
  types : typesOf s <+: typesOf s'
  func : ∃ cs, (funcOf s').blocks = (funcOf s).blocks.modify cb (appendParams cs) ∧
    List.Forall₂ (Param ir s'.values (typesOf s')) ps cs
  layout : (funcOf s').layout = (funcOf s).layout
  inv : ValuesInv s'

theorem addParams_ok {cb : ClifBlock} {ps known : List SSAValue} (hinv : ValuesInv s)
    (honly : OnlyValues s known) (hnodup : (known ++ ps).Nodup)
    (h : ps.foldlM (FunctionLowering.addParam ir cb) s = .ok s') :
    AddsParams ir cb ps s s' ∧ OnlyValues s' (known ++ ps) := by
  induction ps generalizing known s with
  | nil =>
    obtain rfl := Except.ok.inj h
    have hid : appendParams [] = id := by
      funext data
      simp [appendParams]
    refine ⟨⟨rfl, fun _ _ hv => hv, List.prefix_refl _, ⟨[], ?_, List.Forall₂.nil⟩, rfl, hinv⟩, ?_⟩
    · rw [hid, List.modify_id]
    · rw [List.append_nil]
      exact honly
  | cons p ps ih =>
    rw [List.foldlM_cons] at h
    obtain ⟨s₁, hadd, h⟩ := bind_eq_ok.1 h
    obtain ⟨ty, hty, hadd⟩ := bind_eq_ok.1 hadd
    obtain ⟨hvalues₁, hblocks₁, hfunc₁⟩ : s₁.values =
        Function.update s.values p (some (typesOf s).length) ∧
        s₁.blocks = s.blocks ∧ funcOf s₁ = { funcOf s with
          types := typesOf s ++ [irTyToClifTy ty]
          blocks := (funcOf s).blocks.modify cb (appendParams [(typesOf s).length]) } := by
      obtain rfl := Except.ok.inj hadd
      exact ⟨rfl, rfl, rfl⟩
    have hnone : s.values p = none := by
      refine Option.eq_none_iff_forall_ne_some.2 fun c hc => ?_
      have hdisjoint := (List.nodup_append.1 hnodup).2.2
      exact hdisjoint p (honly p c hc) p List.mem_cons_self rfl
    have hsub₁ : SubMap s.values s₁.values := hvalues₁ ▸ subMap_update hnone
    have htypes₁ : typesOf s₁ = typesOf s ++ [irTyToClifTy ty] := congrArg ClifFunction.types hfunc₁
    have hself : s₁.values p = some (typesOf s).length := by rw [hvalues₁, Function.update_self]
    have hcases : ∀ v c, s₁.values v = some c → v = p ∧ c = (typesOf s).length ∨
        s.values v = some c := by
      intro v c hv
      rw [hvalues₁] at hv
      by_cases hvp : v = p
      · rw [hvp, Function.update_self] at hv
        exact .inl ⟨hvp, (Option.some.inj hv).symm⟩
      · rw [Function.update_of_ne hvp] at hv
        exact .inr hv
    have hinv₁ : ValuesInv s₁ := by
      refine ⟨fun v c hv => ?_, fun v v' c hv hv' => ?_⟩
      · rw [htypes₁, List.length_append]
        rcases hcases v c hv with ⟨-, rfl⟩ | hv
        · exact Nat.lt_succ_self _
        · exact Nat.lt_succ_of_lt (hinv.there v c hv)
      · rcases hcases v c hv with ⟨rfl, hc⟩ | hold <;> rcases hcases v' c hv' with
          ⟨rfl, hc'⟩ | hold'
        · rfl
        · exact absurd (hinv.there v' c hold') (Nat.not_lt.2 hc.ge)
        · exact absurd (hinv.there v c hold) (Nat.not_lt.2 hc'.ge)
        · exact hinv.inj v v' c hold hold'
    have honly₁ : OnlyValues s₁ (known ++ [p]) := by
      intro v c hv
      rcases hcases v c hv with ⟨rfl, -⟩ | hv
      · exact List.mem_append_right _ (List.mem_singleton.2 rfl)
      · exact List.mem_append_left _ (honly v c hv)
    obtain ⟨⟨hblocks, hvalues, htypes, ⟨cs, hfunc, hcs⟩, hlayout, hinv'⟩, honly'⟩ :=
      ih hinv₁ honly₁ (by simpa using hnodup) h
    have hp : Param ir s₁.values (typesOf s₁) p (typesOf s).length := by
      refine ⟨hself, ty, get_ok hty, ?_⟩
      rw [htypes₁]
      exact List.getElem?_concat_length
    refine ⟨⟨hblocks.trans hblocks₁, hsub₁.trans hvalues,
      (htypes₁ ▸ List.prefix_append _ _ : typesOf s <+: typesOf s₁).trans htypes,
      ⟨(typesOf s).length :: cs, ?_, List.Forall₂.cons (hp.mono hvalues htypes) hcs⟩,
        ?_, hinv'⟩, ?_⟩
    · have htwo : appendParams ((typesOf s).length :: cs) =
          appendParams cs ∘ appendParams [(typesOf s).length] := by
        funext data
        simp [appendParams]
      rw [hfunc, hfunc₁, htwo, List.modify_modify_eq]
    · rw [hlayout, hfunc₁]
    · simpa using honly'

/-- The function after the blocks `done` have been created. -/
structure Creating (ir : ExecIrBuilder) (done : List Block)
    (s : FunctionLowering (clif codeAddr)) : Prop where
  values : ValuesInv s
  only : OnlyValues s (done.flatMap fun b => (ir.blockD b).parameters)
  there : ∀ b cb, s.blocks b = some cb → cb < (funcOf s).blocks.length
  distinct : ∀ b b' cb, s.blocks b = some cb → s.blocks b' = some cb → b = b'
  empty : ∀ b ∈ done, HasNoCode ir s.values s.blocks (funcOf s) b
  layout : (funcOf s).layout = []

/-- What remains to be done with a block is to mark it as cold. -/
def finishBlock (isCold : Bool) (data : ClifBlockData) : ClifBlockData :=
  if isCold then { data with cold := true } else data

theorem addBlock_ok (hunique : UniqueParameters ir) (hnodup : (done ++ [b]).Nodup)
    (hcreating : Creating ir done s) (h : FunctionLowering.addBlock ir s b = .ok s') :
    Creating ir (done ++ [b]) s' := by
  obtain ⟨blockRef, hget, h⟩ := bind_eq_ok.1 h
  obtain ⟨s₁, hparams, h⟩ := bind_eq_ok.1 h
  obtain ⟨_, hnone, h⟩ := bind_eq_ok.1 h
  have hnone := require_eq_ok.1 hnone
  have hblockRef := blockD_eq (get_ok hget)
  -- the block that is created
  let cb := (funcOf s).blocks.length
  let s₀ : FunctionLowering (clif codeAddr) :=
    { s with builder := ((clif codeAddr).createBlock s.builder).2 }
  have hinv₀ : ValuesInv s₀ := ⟨hcreating.values.there, hcreating.values.inj⟩
  have hflat := hunique.flatMap hnodup
  rw [List.flatMap_append, List.flatMap_singleton, hblockRef] at hflat
  obtain ⟨hadds, honly⟩ := addParams_ok (s := s₀) hinv₀ hcreating.only hflat hparams
  obtain ⟨cs, hfunc, hcs⟩ := hadds.func
  have hs' : s'.values = s₁.values ∧ s'.blocks = Function.update s₁.blocks b (some cb) ∧
      typesOf s' = typesOf s₁ ∧ (funcOf s').layout = (funcOf s₁).layout ∧
      (funcOf s').blocks = (funcOf s₁).blocks.modify cb (finishBlock blockRef.isCold) := by
    obtain rfl := Except.ok.inj h
    cases blockRef.isCold with
    | true => exact ⟨rfl, rfl, rfl, rfl, rfl⟩
    | false => exact ⟨rfl, rfl, rfl, rfl, (List.modify_id _ _).symm⟩
  obtain ⟨hvalues', hblocks', htypes', hlayout', hfunc'⟩ := hs'
  have hblocks₁ : s₁.blocks = s.blocks := hadds.blocks
  have hfunc₀ : (funcOf s₀).blocks = (funcOf s).blocks ++ [⟨[], [], none, false⟩] := rfl
  have hlen : (funcOf s').blocks.length = cb + 1 := by
    rw [hfunc', List.length_modify, hfunc, List.length_modify, hfunc₀, List.length_append]
    rfl
  have hcases : ∀ u cb', s'.blocks u = some cb' → u = b ∧ cb' = cb ∨ s.blocks u = some cb' ∧
      cb' < cb := by
    intro u cb' hu
    rw [hblocks', hblocks₁] at hu
    by_cases hub : u = b
    · rw [hub, Function.update_self] at hu
      exact .inl ⟨hub, (Option.some.inj hu).symm⟩
    · rw [Function.update_of_ne hub] at hu
      exact .inr ⟨hu, hcreating.there u cb' hu⟩
  have hsub : SubMap s.values s'.values := hvalues' ▸ hadds.values
  have htypes : typesOf s <+: typesOf s' := htypes' ▸ hadds.types
  refine ⟨⟨fun v c hv => ?_, fun v v' c hv hv' => ?_⟩, ?_, ?_, ?_, ?_, ?_⟩
  · rw [htypes']
    exact hadds.inv.there v c (hvalues' ▸ hv)
  · exact hadds.inv.inj v v' c (hvalues' ▸ hv) (hvalues' ▸ hv')
  · intro v c hv
    rw [List.flatMap_append, List.flatMap_singleton, hblockRef]
    exact honly v c (hvalues' ▸ hv)
  · intro u cb' hu
    rw [hlen]
    rcases hcases u cb' hu with ⟨-, rfl⟩ | ⟨-, hlt⟩
    · exact Nat.lt_succ_self _
    · exact Nat.lt_succ_of_lt hlt
  · intro u u' cb' hu hu'
    rcases hcases u cb' hu with ⟨rfl, hcb⟩ | ⟨hold, hlt⟩ <;>
      rcases hcases u' cb' hu' with ⟨rfl, hcb'⟩ | ⟨hold', hlt'⟩
    · rfl
    · exact absurd hlt' (Nat.not_lt.2 hcb.ge)
    · exact absurd hlt (Nat.not_lt.2 hcb'.ge)
    · exact hcreating.distinct u u' cb' hold hold'
  · intro u hu
    rcases List.mem_append.1 hu with hu | hu
    · obtain ⟨cb', data, ⟨hblock, hgetu, hps⟩, hempty⟩ := hcreating.empty u hu
      have hlt := hcreating.there u cb' hblock
      have hne : u ≠ b := by
        rintro rfl
        rw [← hblocks₁, hnone] at hblock
        cases hblock
      refine ⟨cb', data, ⟨?_, ?_, List.Forall₂.imp (fun _ _ hp => hp.mono hsub htypes) hps⟩, hempty⟩
      · rw [hblocks', Function.update_of_ne hne, hblocks₁]
        exact hblock
      · rw [hfunc', List.getElem?_modify_ne _ _ hlt.ne', hfunc,
          List.getElem?_modify_ne _ _ hlt.ne', hfunc₀, List.getElem?_append_left hlt]
        exact hgetu
    · obtain rfl := List.mem_singleton.1 hu
      refine ⟨cb, finishBlock blockRef.isCold (appendParams cs ⟨[], [], none, false⟩),
        ⟨?_, ?_, ?_⟩, ?_⟩
      · rw [hblocks', Function.update_self]
      · rw [hfunc', List.getElem?_modify_eq, hfunc, List.getElem?_modify_eq, hfunc₀,
          List.getElem?_concat_length]
        rfl
      · have hparams :
            (finishBlock blockRef.isCold (appendParams cs ⟨[], [], none, false⟩)).params = cs := by
          unfold finishBlock
          split_ifs <;> rfl
        rw [hparams, hblockRef, hvalues', show (funcOf s').types = typesOf s₁ from htypes']
        exact hcs
      · unfold finishBlock
        split_ifs <;> exact ⟨rfl, rfl⟩
  · rw [hlayout', hadds.layout]
    exact hcreating.layout

/-- The values of two lists of values with the same Cranelift values. -/
theorem Names.eq (hinv : ValuesInv s) {vs vs' : List SSAValue} {cs : List ClifValue}
    (h : Names s.values vs cs) (h' : Names s.values vs' cs) : vs = vs' := by
  induction h generalizing vs' with
  | nil => exact (List.forall₂_nil_right_iff.1 h').symm
  | cons hv _ ih =>
    obtain ⟨v', rest, hv', hrest, rfl⟩ := List.forall₂_cons_right_iff.1 h'
    rw [hinv.inj _ _ _ hv hv', ih hrest]

theorem assertEntryArg_ok {p : Arg × ClifValue}
    (h : FunctionLowering.assertEntryArg s p = .ok ()) : s.values p.1.asSSAValue = some p.2 := by
  unfold FunctionLowering.assertEntryArg at h
  split at h
  · cases h
  · rename_i value hvalue
    rw [hvalue, require_eq_ok.1 h]

/-- The entry block has one parameter for every argument. -/
theorem assertEntryArgs_ok {cb : ClifBlock} {data : ClifBlockData}
    (hget : (funcOf s).blocks[cb]? = some data) (h : s.assertEntryArgs cb = .ok ()) :
    Names s.values (Arg.args.map Arg.asSSAValue) data.params := by
  obtain ⟨_, hlen, h⟩ := bind_eq_ok.1 h
  have hlen := require_eq_ok.1 hlen
  have hparams : (clif codeAddr).blockParams cb s.builder = data.params := by
    show (((funcOf s).blocks[cb]?).map ClifBlockData.params).getD [] = _
    rw [hget]
    rfl
  rw [hparams] at hlen h
  refine List.forall₂_map_left_iff.2 (List.forall₂_iff_zip.2 ⟨hlen, fun {arg c} hmem => ?_⟩)
  exact assertEntryArg_ok (forM_eq_ok.1 h (arg, c) hmem)

/-- After `new`, every block has its parameters and no code, and those of the entry block are
    the arguments. -/
theorem new_ok (hunique : UniqueParameters ir) (horder : CompileOrder ir order)
    (h : FunctionLowering.new ir order = .ok s) :
    Laying ir order [] s ∧ (ir.blockD Block.ENTRYPOINT).parameters =
      Arg.args.map Arg.asSSAValue := by
  obtain ⟨hready, hptr⟩ := (FunctionLowering.new_yields order).1 s h
  obtain ⟨s₁, hfold, h⟩ := bind_eq_ok.1 h
  have hinit : Creating ir [] (⟨fun _ => none, fun _ => none, (clif codeAddr).init⟩ :
      FunctionLowering (clif codeAddr)) := by
    refine ⟨⟨?_, ?_⟩, ?_, ?_, ?_, by simp, rfl⟩
    · exact fun v c hv => absurd hv (Option.some_ne_none _).symm
    · exact fun v v' c hv => absurd hv (Option.some_ne_none _).symm
    · exact fun v c hv => absurd hv (Option.some_ne_none _).symm
    · exact fun b cb hb => absurd hb (Option.some_ne_none _).symm
    · exact fun b b' cb hb => absurd hb (Option.some_ne_none _).symm
  have hstep : ∀ done b rest, order = done ++ b :: rest → ∀ s : FunctionLowering (clif codeAddr),
      Creating ir done s →
      Yields (fun _ => True) (FunctionLowering.addBlock ir s b) (Creating ir (done ++ [b])) := by
    intro done b rest hsplit s hcreating
    refine ⟨fun s' hs' => addBlock_ok hunique ?_ hcreating hs', fun _ _ => trivial⟩
    have hnodup := horder.nodup
    rw [hsplit, List.append_cons] at hnodup
    exact (List.nodup_append.1 hnodup).1
  have hcreating := (Yields.foldlM _ hinit hstep).1 s₁ hfold
  split at h
  · cases h
  · rename_i entry hentry
    obtain ⟨_, hassert, h⟩ := bind_eq_ok.1 h
    obtain rfl := Except.ok.inj h
    refine ⟨⟨hcreating.values, hcreating.distinct, by simp, fun b hb _ => hcreating.empty b hb, ?_,
      ⟨hready, hptr, by simp⟩⟩, ?_⟩
    · rw [hcreating.layout]
      rfl
    · have hmem := List.mem_of_mem_head? horder.entry
      obtain ⟨cb, data, ⟨hblock, hget, hparams⟩, -⟩ := hcreating.empty _ hmem
      obtain rfl := Option.some.inj (hentry.symm.trans hblock)
      have hnames : Names s₁.values (ir.blockD Block.ENTRYPOINT).parameters data.params :=
        List.Forall₂.imp (fun _ _ hp => hp.1) hparams
      exact Names.eq hcreating.values hnames (assertEntryArgs_ok hget hassert)

/-- The function that has been built: every reachable block has its code. -/
theorem lowerFunction_layout (hunique : UniqueParameters ir) (horder : CompileOrder ir order)
    (huses : UsesDominated ir) (h : lowerFunction (clif codeAddr) ir order = .ok s) :
    Laying ir order order s ∧
      (ir.blockD Block.ENTRYPOINT).parameters = Arg.args.map Arg.asSSAValue := by
  obtain ⟨s₁, hnew, hlower⟩ := bind_eq_ok.1 h
  obtain ⟨hlaying, hentry⟩ := new_ok hunique horder hnew
  have hstep : ∀ done b rest, order = done ++ b :: rest → ∀ s : FunctionLowering (clif codeAddr),
      Laying ir order done s →
      Yields (fun _ => True) (s.lowerBlock ir b) (Laying ir order (done ++ [b])) := by
    intro done b rest hsplit s hlaying
    exact ⟨fun s' hs' => lowerBlock_layout hlaying horder huses hsplit hs', fun _ _ => trivial⟩
  exact ⟨(Yields.foldlM _ hlaying hstep).1 s hlower, hentry⟩

end Lower

end RapidArm.Clif
