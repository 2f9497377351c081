import RapidArm.Mmu.Cow
import RapidArm.Mmu.Fill

/-!
# Lookups through a cache

What the lookups of an access return (`LookupCache::get_page`, and the two passes of
`LookupCacheExt::access`, `io-mmu/src/lookup_cache.rs`, lines 64–146) when the hits of the
cache agree with the table: `HitsAgree same pages` says so for the hits on some pages, up
to a relation `same` between pages, and `Consistent` for all pages and equality.

Results:
* `ends_getPage`: a lookup returns a page that is the same as the one of the table, or
  faults at the base of the page.
* `ends_verifyPages`: the verify pass succeeds if and only if every page passes the test, and
  else faults at the base of the first one that does not.
* `ends_accessPages`: the access pass does not abort on pages that the table has.
-/

namespace RapidArm.Mmu

open RapidArm.Lib

/-! ## Caches that agree with the table -/

/-- The hits of a cache for an MMU agree with its table. -/
def Consistent (h : Heap) (mmu : IoMMU) (cache : Option Tlb) : Prop :=
  ∀ tlb, cache = some tlb → ∀ n page, tlb.hit n mmu.identifier = some page →
    mmu.table.getPage h n = .ok page

/-- The hits of a cache for an MMU on some pages are the same as what its table returns. -/
def HitsAgree (same : Page → Page → Prop) (pages : Set PageNumber) (h : Heap) (mmu : IoMMU)
    (cache : Option Tlb) : Prop :=
  ∀ tlb, cache = some tlb → ∀ n ∈ pages, ∀ page, tlb.hit n mmu.identifier = some page →
    ∃ page', mmu.table.getPage h n = .ok page' ∧ same page page'

variable {h : Heap} {mmu : IoMMU}

theorem consistent_noCache : Consistent h mmu none := by
  intro tlb htlb
  cases htlb

theorem consistent_eq_hitsAgree : Consistent h mmu = HitsAgree (· = ·) Set.univ h mmu := by
  funext cache
  refine propext ⟨fun hc tlb htlb n _ page hhit => ?_, fun hc tlb htlb n page hhit => ?_⟩
  · exact ⟨page, hc tlb htlb n page hhit, rfl⟩
  · obtain ⟨page', hpage, rfl⟩ := hc tlb htlb n (Set.mem_univ n) page hhit
    exact hpage

/-- In a coherent world every cache agrees with every table. -/
theorem World.Coherent.consistent {w : World} (hw : w.Coherent) {m : ℕ} {mmu : IoMMU}
    (hm : w.mmu? m = some mmu) (c : Option ℕ) : Consistent w.heap mmu (w.cache c) := by
  intro tlb htlb n page hhit
  exact cacheAll_cache hw.tlb c tlb htlb _ _ (Tlb.hit_eq_some hhit) m mmu hm rfl

/-- So it does in a run whose tokens are fresh and whose forks are clean. -/
theorem consistent_run {calls : List (Op × Token)}
    (hok : World.Meets World.CallOk World.init calls) {m : ℕ} {mmu : IoMMU}
    (hm : (World.init.run calls).mmu? m = some mmu) (c : Option ℕ) :
    Consistent (World.init.run calls).heap mmu ((World.init.run calls).cache c) := by
  have hcoherent : (World.init.run calls).Coherent :=
    hok.invariant (fun w call hw hcall => hw.step hcall) World.coherent_init
  exact hcoherent.consistent hm c

variable {same : Page → Page → Prop} {among : Set PageNumber}

/-- A cache that agrees with the table agrees up to any reflexive relation. -/
theorem Consistent.hitsAgree [Std.Refl same] {cache : Option Tlb} (hc : Consistent h mmu cache) :
    HitsAgree same among h mmu cache := by
  intro tlb htlb n _ page hhit
  exact ⟨page, hc tlb htlb n page hhit, Std.Refl.refl page⟩

theorem HitsAgree.updateEntry [Std.Refl same] {tlb : Tlb}
    (hc : HitsAgree same among h mmu (some tlb)) {n : PageNumber} {page : Page}
    (hpage : mmu.table.getPage h n = .ok page) :
    HitsAgree same among h mmu (some (tlb.updateEntry n mmu.identifier page)) := by
  intro tlb' htlb k hk page' hhit
  obtain rfl := Option.some.inj htlb
  have hentry := Tlb.hit_eq_some hhit
  unfold Tlb.updateEntry at hentry
  by_cases hindex : Tlb.index k = Tlb.index n
  · -- the entry that was filled
    rw [hindex, Function.update_self] at hentry
    obtain ⟨-, rfl, rfl⟩ := TlbEntry.mk.inj (Option.some.inj hentry)
    exact ⟨page, hpage, Std.Refl.refl page⟩
  · rw [Function.update_of_ne hindex] at hentry
    refine hc tlb rfl k hk page' ?_
    unfold Tlb.hit
    rw [hentry]
    simp

/-! ## One lookup -/

/-- A page that the table does not have is reported by its base. -/
theorem getPage_error {t : PageTable} {n : PageNumber} {f : MemoryFault}
    (hp : t.getPage h n = .error f) : f = .generalProtection n.vaddrBase := by
  unfold PageTable.getPage at hp
  split at hp
  · cases hp
  · exact (Except.error.inj hp).symm

/-- A lookup returns a page that is the same as the one of the table, or faults as the
    table does. -/
theorem ends_getPage [Std.Refl same] {n : PageNumber} (hn : n ∈ among) :
    Ends (HitsAgree same among h mmu) (getPage h mmu n)
      (fun page => ∃ page', mmu.table.getPage h n = .ok page' ∧ same page page')
      fun e => ∃ f, mmu.table.getPage h n = .error f ∧ e = .fault f := by
  intro cache hc
  have hrun : (getPage h mmu n).run.run cache = getPage h mmu n cache := rfl
  rw [hrun]
  unfold getPage
  cases cache with
  | none =>
    cases hp : mmu.table.getPage h n with
    | error f => exact ⟨hc, f, rfl, rfl⟩
    | ok page => exact ⟨hc, page, rfl, Std.Refl.refl page⟩
  | some tlb =>
    simp only
    cases hhit : tlb.hit n mmu.identifier with
    | some page => exact ⟨hc, hc tlb rfl n hn page hhit⟩
    | none =>
      cases hp : mmu.table.getPage h n with
      | error f => exact ⟨hc, f, rfl, rfl⟩
      | ok page => exact ⟨hc.updateEntry hp, page, rfl, Std.Refl.refl page⟩

/-- A hit is returned without the table. -/
theorem returns_hit {tlb : Tlb} {n : PageNumber} {page : Page}
    (hhit : tlb.hit n mmu.identifier = some page) :
    Returns (· = some tlb) (getPage h mmu n) (.ok page) := by
  rintro _ rfl
  rw [getPage_hit hhit]
  exact ⟨rfl, rfl⟩

/-- A lookup returns what the table does. -/
theorem returns_getPage (h : Heap) (mmu : IoMMU) (n : PageNumber) :
    Returns (Consistent h mmu) (getPage h mmu n) ((mmu.table.getPage h n).mapError .fault) := by
  rw [consistent_eq_hitsAgree]
  refine ((ends_getPage (Set.mem_univ n)).mono ?_ ?_).returns
  · rintro page ⟨page', hp, rfl⟩
    rw [hp]
    rfl
  · rintro e ⟨f, hp, rfl⟩
    rw [hp]
    rfl

theorem returns_ensure {I : Option Tlb → Prop} {vaddr : BitVec 64} {c : Bool} (hc : c = true) :
    Returns I (ensure vaddr c) (.ok ()) := by
  unfold ensure
  rw [if_pos hc]
  exact Returns.pure

theorem returns_ensure_fault {I : Option Tlb → Prop} {vaddr : BitVec 64} {c : Bool}
    (hc : c = false) :
    Returns I (ensure vaddr c) (.error (.fault (.generalProtection vaddr))) := by
  unfold ensure
  rw [if_neg (by simp [hc])]
  exact Returns.throw

theorem ends_ensure {I : Option Tlb → Prop} (vaddr : BitVec 64) (c : Bool) :
    Ends I (ensure vaddr c) (fun _ => c = true)
      fun e => c = false ∧ e = .fault (.generalProtection vaddr) := by
  cases c with
  | true => exact (returns_ensure rfl).ends rfl
  | false => exact (returns_ensure_fault rfl).ends_error ⟨rfl, rfl⟩

/-! ## The verify pass -/

/-- The test of the verify pass of `mem_access` (lines 482–491). -/
def verifyAccess (requiredProt : Option MemProt) (noCow : Bool) (page : Page) : Bool :=
  !(noCow && page.flags.containsAny MemFlags.COW) &&
    match requiredProt with
    | some required => page.flags.containsAny (MemFlags.fromProt required)
    | none => true

/-- A page that `mem_access` can access: it is mapped and resident, has the permission,
    and is not copy-on-write where that matters. -/
def PageTable.Accessible (h : Heap) (t : PageTable) (requiredProt : Option MemProt) (noCow : Bool)
    (n : PageNumber) : Prop :=
  ∃ entry, t.get? n = some entry ∧ (entry.asPage h).isSome = true ∧
    (∀ required, requiredProt = some required → entry.protections &&& required ≠ 0) ∧
    (noCow = true → World.isCow entry = false)

/-- The flags of a resolved page. -/
theorem asPage_flags {entry : PageEntry} {page : Page} (hp : entry.asPage h = some page) :
    (page.flags.containsAny MemFlags.COW = World.isCow entry) ∧
      ∀ required, page.flags.containsAny (MemFlags.fromProt required) =
        (entry.protections &&& required != 0) := by
  have hfacts : ∀ prot : MemProt,
      (MemFlags.containsAny (MemFlags.fromProt prot ||| MemFlags.fromProt prot)
          MemFlags.COW = false ∧
        ∀ required, MemFlags.containsAny (MemFlags.fromProt prot ||| MemFlags.fromProt prot)
          (MemFlags.fromProt required) = (prot &&& required != 0)) ∧
      (MemFlags.containsAny (MemFlags.OBJ_BACKED ||| MemFlags.fromProt prot |||
          MemFlags.fromProt prot) MemFlags.COW = false ∧
        ∀ required, MemFlags.containsAny (MemFlags.OBJ_BACKED ||| MemFlags.fromProt prot |||
          MemFlags.fromProt prot) (MemFlags.fromProt required) = (prot &&& required != 0)) ∧
      (MemFlags.containsAny (MemFlags.COW ||| MemFlags.fromProt (prot &&& ~~~ MemProt.WRITE) |||
          MemFlags.fromProt prot) MemFlags.COW = true ∧
        ∀ required, MemFlags.containsAny (MemFlags.COW |||
          MemFlags.fromProt (prot &&& ~~~ MemProt.WRITE) ||| MemFlags.fromProt prot)
          (MemFlags.fromProt required) = (prot &&& required != 0)) := by
    decide
  simp only [PageEntry.asPage, Option.bind_eq_bind, Option.bind_eq_some_iff, Option.pure_def,
    Option.some.injEq] at hp
  obtain ⟨id, -, host, -, rfl⟩ := hp
  obtain ⟨source, prot⟩ := entry
  obtain ⟨hplain, hobject, hcow⟩ := hfacts prot
  cases source with
  | shared p => exact hplain
  | priv p wp =>
    cases wp with
    | false => exact hplain
    | true => exact hcow
  | object s sh =>
    cases sh with
    | false => exact hplain
    | true => exact hobject

/-- The verify pass tests exactly this. -/
theorem accessible_iff {t : PageTable} {requiredProt : Option MemProt} {noCow : Bool}
    {n : PageNumber} : t.Accessible h requiredProt noCow n ↔
      ∃ page, t.getPage h n = .ok page ∧ verifyAccess requiredProt noCow page = true := by
  have hverify : ∀ {entry : PageEntry} {page : Page}, entry.asPage h = some page →
      (verifyAccess requiredProt noCow page = true ↔
        (∀ required, requiredProt = some required → entry.protections &&& required ≠ 0) ∧
          (noCow = true → World.isCow entry = false)) := by
    intro entry page hp
    obtain ⟨hcow, hprot⟩ := asPage_flags hp
    unfold verifyAccess
    rw [hcow]
    cases requiredProt with
    | none => cases noCow <;> cases World.isCow entry <;> simp
    | some required =>
      simp only [hprot]
      cases noCow <;> cases World.isCow entry <;> simp
  constructor
  · rintro ⟨entry, hget, hsome, hcond⟩
    obtain ⟨page, hpage⟩ := Option.isSome_iff_exists.1 hsome
    exact ⟨page, getPage_eq_ok.2 ⟨entry, hget, hpage⟩, (hverify hpage).2 hcond⟩
  · rintro ⟨page, hpage, hv⟩
    obtain ⟨entry, hget, hasPage⟩ := getPage_eq_ok.1 hpage
    exact ⟨entry, hget, by rw [hasPage]; rfl, (hverify hasPage).1 hv⟩

/-- A page that can be accessed is there. -/
theorem PageTable.Accessible.found {t : PageTable} {requiredProt : Option MemProt} {noCow : Bool}
    {n : PageNumber} (ha : t.Accessible h requiredProt noCow n) :
    ∃ page, t.getPage h n = .ok page := by
  obtain ⟨page, hpage, -⟩ := accessible_iff.1 ha
  exact ⟨page, hpage⟩

/-- A page of the table can be accessed if and only if it passes the test. -/
theorem accessible_iff_verify {t : PageTable} {requiredProt : Option MemProt} {noCow : Bool}
    {n : PageNumber} {page : Page} (hp : t.getPage h n = .ok page) :
    t.Accessible h requiredProt noCow n ↔ verifyAccess requiredProt noCow page = true := by
  rw [accessible_iff, hp]
  refine ⟨?_, fun hv => ⟨page, rfl, hv⟩⟩
  rintro ⟨page', hpage, hv⟩
  obtain rfl := Except.ok.inj hpage
  exact hv

theorem not_accessible_of_error {t : PageTable} {requiredProt : Option MemProt} {noCow : Bool}
    {n : PageNumber} {f : MemoryFault} (hp : t.getPage h n = .error f) :
    ¬ t.Accessible h requiredProt noCow n := by
  rw [accessible_iff, hp]
  rintro ⟨page, hpage, -⟩
  cases hpage

/-- The verify pass, for a test that pages that are the same both pass or both fail. -/
theorem ends_verifyPages [Std.Refl same] {requiredProt : Option MemProt} {noCow : Bool}
    (hverify : ∀ page page', same page page' →
      verifyAccess requiredProt noCow page = verifyAccess requiredProt noCow page')
    {ns : List PageNumber} (hns : ∀ n ∈ ns, n ∈ among) :
    Ends (HitsAgree same among h mmu) (verifyPages h mmu (verifyAccess requiredProt noCow) ns)
      (fun _ => ∀ n ∈ ns, mmu.table.Accessible h requiredProt noCow n)
      fun e => ∃ earlier n later, ns = earlier ++ n :: later ∧
        (∀ k ∈ earlier, mmu.table.Accessible h requiredProt noCow k) ∧
        ¬ mmu.table.Accessible h requiredProt noCow n ∧
        e = .fault (.generalProtection n.vaddrBase) := by
  induction ns with
  | nil => exact Ends.pure (fun n hn => by cases hn)
  | cons n ns ih =>
    refine ((ends_getPage (hns n List.mem_cons_self)).mono (fun _ h => h) ?_).bind fun page hp => ?_
    · rintro e ⟨f, hp, rfl⟩
      obtain rfl := getPage_error hp
      exact ⟨[], n, ns, rfl, fun k hk => (by cases hk), not_accessible_of_error hp, rfl⟩
    · obtain ⟨page', hpage, hsame⟩ := hp
      have hiff : mmu.table.Accessible h requiredProt noCow n ↔
          verifyAccess requiredProt noCow page = true := by
        rw [hverify page page' hsame]
        exact accessible_iff_verify hpage
      refine ((ends_ensure n.vaddrBase _).mono (fun _ h => h) ?_).bind fun _ hv => ?_
      · rintro e ⟨hv, rfl⟩
        refine ⟨[], n, ns, rfl, fun k hk => (by cases hk), ?_, rfl⟩
        rw [hiff, hv]
        exact Bool.false_ne_true
      · have ha := hiff.2 hv
        refine (ih fun k hk => hns k (List.mem_cons_of_mem _ hk)).mono (fun _ hall k hk => ?_) ?_
        · rcases List.mem_cons.1 hk with rfl | hk
          · exact ha
          · exact hall k hk
        · rintro e ⟨earlier, k, later, rfl, hearlier, hk, rfl⟩
          refine ⟨n :: earlier, k, later, rfl, fun j hj => ?_, hk, rfl⟩
          rcases List.mem_cons.1 hj with rfl | hj
          · exact ha
          · exact hearlier j hj

/-! ## The access pass -/

/-- What the table returns for a page, where it returns one. -/
def pageAt (h : Heap) (t : PageTable) (n : PageNumber) : Page :=
  match t.getPage h n with
  | .ok page => page
  | .error _ => ⟨.alloc 0, 0, 0⟩

theorem pageAt_eq {t : PageTable} {n : PageNumber} {page : Page} (hp : t.getPage h n = .ok page) :
    pageAt h t n = page := by
  unfold pageAt
  rw [hp]

/-- What was seen of a page, added to what was seen of others. -/
theorem view_cons {view target : PageNumber → Page} {n : PageNumber} {ns : List PageNumber}
    {page : Page} (hnot : n ∉ ns) (hpage : same page (target n))
    (hview : ∀ k ∈ ns, same (view k) (target k)) :
    (∀ k ∈ n :: ns, same (Function.update view n page k) (target k)) ∧
      ∀ k ∈ ns, Function.update view n page k = view k := by
  have hothers : ∀ k ∈ ns, Function.update view n page k = view k :=
    fun k hk => Function.update_of_ne (ne_of_mem_of_not_mem hk hnot) _ _
  refine ⟨fun k hk => ?_, hothers⟩
  rcases List.mem_cons.1 hk with rfl | hk
  · rw [Function.update_self]
    exact hpage
  · rw [hothers k hk]
    exact hview k hk

/-- The second lookup of a page that the table has does not abort. -/
theorem ends_getPageOrAbort [Std.Refl same] {n : PageNumber} (hn : n ∈ among)
    (hfound : ∃ page, mmu.table.getPage h n = .ok page) :
    Ends (HitsAgree same among h mmu) (getPageOrAbort h mmu n)
      (fun page => same page (pageAt h mmu.table n)) fun _ => False := by
  obtain ⟨page', hpage⟩ := hfound
  intro cache hc
  obtain ⟨hc', hr⟩ := ends_getPage hn cache hc
  have hrun : (getPageOrAbort h mmu n).run.run cache = getPageOrAbort h mmu n cache := rfl
  rw [hrun]
  unfold getPageOrAbort
  rcases hget : getPage h mmu n cache with ⟨r, cache'⟩
  change (getPage h mmu n).run.run cache = _ at hget
  rw [hget] at hr hc'
  cases r with
  | error e =>
    obtain ⟨f, hf, -⟩ := hr
    rw [hpage] at hf
    cases hf
  | ok page =>
    obtain ⟨page'', hpage', hsame⟩ := hr
    rw [pageAt_eq hpage']
    exact ⟨hc', hsame⟩

/-- The access pass, over pages that the table has: each page is accessed through one that
    is the same as the one of the table. -/
theorem ends_accessPages [Std.Refl same] {α : Type} (access : PageNumber → Page → List α)
    {ns : List PageNumber} (hns : ∀ n ∈ ns, n ∈ among) (hnodup : ns.Nodup)
    (hfound : ∀ n ∈ ns, ∃ page, mmu.table.getPage h n = .ok page) :
    Ends (HitsAgree same among h mmu) (accessPages h mmu access ns)
      (fun out => ∃ view : PageNumber → Page,
        (∀ n ∈ ns, same (view n) (pageAt h mmu.table n)) ∧
        out = ns.flatMap fun n => access n (view n)) fun _ => False := by
  induction ns with
  | nil => exact Ends.pure ⟨pageAt h mmu.table, fun n hn => (by cases hn), rfl⟩
  | cons n ns ih =>
    obtain ⟨hnot, hrest⟩ := List.nodup_cons.1 hnodup
    refine (ends_getPageOrAbort (hns n List.mem_cons_self)
      (hfound n List.mem_cons_self)).bind fun page hsame => ?_
    refine (ih (fun k hk => hns k (List.mem_cons_of_mem _ hk)) hrest
      fun k hk => hfound k (List.mem_cons_of_mem _ hk)).bind fun later hlater => Ends.pure ?_
    obtain ⟨view, hview, rfl⟩ := hlater
    obtain ⟨hself, hothers⟩ := view_cons hnot hsame hview
    refine ⟨Function.update view n page, hself, ?_⟩
    rw [List.flatMap_cons, Function.update_self]
    exact congrArg _ (List.flatMap_congr fun k hk => by rw [hothers k hk])

end RapidArm.Mmu
