import RapidArm.Mmu.Runs

/-!
# TLB coherence

A TLB entry is found again by its identifier token and page number, so it may only
be found by an MMU whose table still resolves this page as it did when the entry
was filled. Every mapping operation keeps this by taking a new token when it changes
its table. `IoMMU::fork` does not: it write-protects the private pages of its own
table, reports that as a change only if the new table is empty, and hands its token
on to the new MMU.

`World.ForkClean` says when this does no harm: no TLB has an entry under the token for
a page that the fork write-protects, and no private object page is still to be faulted
in, separately, in both address spaces.

Results:
* `World.Coherent.step`: a call with a fresh token, a fork only if it is clean, keeps
  coherence.
* `tlb_coherent_run`: in every run of such calls every hit is what the table returns.
* `stale_after_fork`: a run whose fork is not clean and that ends in a stale hit.
-/

namespace RapidArm.Mmu

open RapidArm.Lib

/-! ## The invariant -/

/-- A source that a fork leaves alone. -/
def PageSource.Settled : PageSource → Prop
  | shared _ | priv _ true | object _ true => True
  | priv _ false | object _ false => False

/-- A table whose entries a fork leaves alone. -/
def PageTable.Settled (t : PageTable) : Prop := ∀ p ∈ t.entries, p.2.source.Settled

/-- An entry agrees with the MMUs of a world: each one that has its identifier resolves
    its page number to its page. -/
def World.Agrees (w : World) (entry : TlbEntry) : Prop :=
  ∀ m mmu, w.mmu? m = some mmu → mmu.identifier = entry.ioMmuIdent →
    mmu.table.getPage w.heap entry.virtualPageNumber = .ok entry.page

/-- All TLB entries agree, and MMUs that share a token have one settled table. -/
structure World.Coherent (w : World) : Prop where
  tlb : ∀ t tlb, w.tlb? t = some tlb → ∀ i entry, tlb i = some entry → w.Agrees entry
  shared : ∀ m m' mmu mmu', w.mmu? m = some mmu → w.mmu? m' = some mmu' → m ≠ m' →
    mmu.identifier = mmu'.identifier → mmu.table = mmu'.table ∧ mmu.table.Settled

/-- A fork of MMU `m` does no harm to the TLBs. -/
def World.ForkClean (w : World) (m : ℕ) : Prop :=
  ∀ mmu, w.mmu? m = some mmu →
    (∀ n entry slot, mmu.table.get? n = some entry → entry.source = .object slot false →
      (w.heap.residentPage slot).isSome) ∧
    ∀ t tlb i tlbEntry entry, w.tlb? t = some tlb → tlb i = some tlbEntry →
      tlbEntry.ioMmuIdent = mmu.identifier →
      mmu.table.get? tlbEntry.virtualPageNumber = some entry → entry.source.Settled

/-- The token of a call is allocated at an address distinct from every live token. -/
def World.Fresh (w : World) (call : Op × Token) : Prop := ¬ w.Live call.2

/-- The condition on a call: its token is fresh, and a fork is clean. -/
def World.CallOk (w : World) (call : Op × Token) : Prop :=
  w.Fresh call ∧ ∀ m, call.1 = .fork m → w.ForkClean m

/-- All calls of a run meet a condition, each in the world it starts from. -/
def World.Meets (cond : World → Op × Token → Prop) : World → List (Op × Token) → Prop
  | _, [] => True
  | w, call :: calls => cond w call ∧ Meets cond (w.step call.1 call.2) calls

/-- An invariant that every call meeting the condition keeps holds at the end of every
    run of such calls. -/
theorem World.Meets.invariant {cond : World → Op × Token → Prop} {Inv : World → Prop}
    (hstep : ∀ w call, Inv w → cond w call → Inv (w.step call.1 call.2))
    {w : World} {calls : List (Op × Token)} (hw : Inv w) (hm : World.Meets cond w calls) :
    Inv (w.run calls) := by
  induction calls generalizing w with
  | nil => exact hw
  | cons call calls ih => exact ih (hstep w call hw hm.1) hm.2

theorem World.Meets.and {cond cond' : World → Op × Token → Prop} {w : World}
    {calls : List (Op × Token)} (h : World.Meets cond w calls) (h' : World.Meets cond' w calls) :
    World.Meets (fun w call => cond w call ∧ cond' w call) w calls := by
  induction calls generalizing w with
  | nil => trivial
  | cons call calls ih => exact ⟨⟨h.1, h'.1⟩, ih h.2 h'.2⟩

/-! ## Forking a table -/

/-- What a fork makes of a source whose page is resident. -/
def PageSource.settle (h : Heap) (source : PageSource) : PageSource := (source.fork h).1

theorem settle_of_settled {h : Heap} {source : PageSource} (hs : source.Settled) :
    source.settle h = source := by
  cases source with
  | shared page => rfl
  | priv page wp => cases wp with
    | false => exact hs.elim
    | true => rfl
  | object slot sh => cases sh with
    | false => exact hs.elim
    | true => rfl

/-- A fork of a resident source gives both sides the same settled source. -/
theorem sourceFork_eq {h : Heap} {source : PageSource}
    (hres : ∀ slot, source = .object slot false → (h.residentPage slot).isSome) :
    source.fork h = (source.settle h, source.settle h, h) ∧ (source.settle h).Settled := by
  unfold PageSource.settle
  cases source with
  | shared page => exact ⟨rfl, trivial⟩
  | priv page wp => exact ⟨rfl, trivial⟩
  | object slot sh =>
    cases sh with
    | true => exact ⟨rfl, trivial⟩
    | false =>
      have hsome := hres slot rfl
      unfold Heap.residentPage at hsome
      simp only [PageSource.fork]
      split
      · exact ⟨rfl, trivial⟩
      · rename_i heq
        rw [heq] at hsome
        cases hsome
      · rename_i heq
        rw [heq] at hsome
        cases hsome

theorem forkEntries_eq {h : Heap} {entries : List (PageNumber × PageEntry)}
    (hres : ∀ p ∈ entries, ∀ slot, p.2.source = .object slot false →
      (h.residentPage slot).isSome) :
    let settled := entries.map fun p => (p.1, { p.2 with source := p.2.source.settle h })
    PageTable.forkEntries h entries = (settled, settled, h) := by
  induction entries with
  | nil => rfl
  | cons p entries ih =>
    have hfork := (sourceFork_eq (hres p List.mem_cons_self)).1
    have hrest := ih fun q hq => hres q (List.mem_cons_of_mem _ hq)
    simp only [PageTable.forkEntries, PageEntry.fork, hfork, hrest, List.map_cons]

/-- The settled table. -/
def PageTable.settle (h : Heap) (t : PageTable) : PageTable :=
  t.mapVals fun _ entry => { entry with source := entry.source.settle h }

theorem fork_eq_settle {h : Heap} {t : PageTable}
    (hres : ∀ n entry slot, t.get? n = some entry → entry.source = .object slot false →
      (h.residentPage slot).isSome) :
    t.fork h = (t.settle h, t.settle h, h) ∧ (t.settle h).Settled := by
  have hres' : ∀ p ∈ t.entries, ∀ slot, p.2.source = .object slot false →
      (h.residentPage slot).isSome := fun p hp slot =>
    hres p.1 p.2 slot (PageTable.get?_of_mem_entries hp)
  constructor
  · have heq := forkEntries_eq hres'
    unfold PageTable.fork
    refine Prod.ext (PageTable.ext ?_) (Prod.ext (PageTable.ext ?_) ?_)
    · simp only [heq]
      rfl
    · simp only [heq]
      rfl
    · simp only [heq]
  · intro p hp
    obtain ⟨q, hq, rfl⟩ := List.mem_map.1 hp
    exact (sourceFork_eq (hres' q hq)).2

theorem settle_eq_self {h : Heap} {t : PageTable} (hs : t.Settled) : t.settle h = t := by
  apply PageTable.ext
  show t.entries.map _ = t.entries
  conv_rhs => rw [← List.map_id t.entries]
  refine List.map_congr_left fun p hp => ?_
  simp only [settle_of_settled (hs p hp)]
  rfl

/-! ## Calls keep coherence -/

namespace World

variable {w : World}

theorem getPage_mono {h h' : Heap} (hle : h.Le h') {t : PageTable} {n : PageNumber} {page : Page}
    (hp : t.getPage h n = .ok page) : t.getPage h' n = .ok page := by
  obtain ⟨entry, hget, hpage⟩ := getPage_eq_ok.1 hp
  exact getPage_eq_ok.2 ⟨entry, hget, asPage_mono hle hpage⟩

/-- A token that is not live is on no MMU and on no TLB entry. -/
theorem not_live_mmu {token : Token} (h : ¬ w.Live token) {m : ℕ} {mmu : IoMMU}
    (hm : w.mmu? m = some mmu) : mmu.identifier ≠ token :=
  fun heq => h (.inl ⟨m, mmu, hm, heq⟩)

theorem not_live_tlb {token : Token} (h : ¬ w.Live token) {t : ℕ} {tlb : Tlb}
    (ht : w.tlb? t = some tlb) {i : ℕ} {entry : TlbEntry} (hi : tlb i = some entry) :
    entry.ioMmuIdent ≠ token :=
  fun heq => h (.inr ⟨t, tlb, i, entry, ht, hi, heq⟩)

/-- An entry that agreed still agrees where all MMUs are old ones. -/
theorem Agrees.of_old {w' : World} {entry : TlbEntry} (h : w.Agrees entry)
    (hle : w.heap.Le w'.heap) (hmmu : ∀ m mmu, w'.mmu? m = some mmu → w.mmu? m = some mmu) :
    w'.Agrees entry :=
  fun m mmu hm hident => getPage_mono hle (h m mmu (hmmu m mmu hm) hident)

theorem Coherent.keep {w' : World} (hw : w.Coherent) (hle : w.heap.Le w'.heap)
    (hmmu : ∀ m mmu, w'.mmu? m = some mmu → w.mmu? m = some mmu)
    (htlb : ∀ t tlb, w'.tlb? t = some tlb → w.tlb? t = some tlb ∨ tlb = Tlb.new) :
    w'.Coherent := by
  constructor
  · intro t tlb ht i entry hentry
    rcases htlb t tlb ht with hold | rfl
    · exact (hw.tlb t tlb hold i entry hentry).of_old hle hmmu
    · cases hentry
  · intro m m' mmu mmu' hm hm' hne hident
    exact hw.shared m m' mmu mmu' (hmmu m mmu hm) (hmmu m' mmu' hm') hne hident

theorem Coherent.newMmu {token : Token} (hw : w.Coherent) (hlive : ¬ w.Live token) :
    ({ w with mmus := w.mmus ++ [some ⟨token, .new⟩] } : World).Coherent := by
  have hcases : ∀ m mmu, ({ w with mmus := w.mmus ++ [some ⟨token, .new⟩] } : World).mmu? m =
      some mmu → (m = w.mmus.length ∧ mmu = ⟨token, .new⟩) ∨ w.mmu? m = some mmu := by
    intro m mmu hm
    rw [mmu?_append] at hm
    split_ifs at hm with hlen
    · exact .inl ⟨hlen, (Option.some.inj hm).symm⟩
    · exact .inr hm
  constructor
  · intro t tlb ht i entry hentry m mmu hm hident
    rcases hcases m mmu hm with ⟨-, rfl⟩ | hold
    · exact (not_live_tlb hlive ht hentry hident.symm).elim
    · exact hw.tlb t tlb ht i entry hentry m mmu hold hident
  · intro m m' mmu mmu' hm hm' hne hident
    rcases hcases m mmu hm with ⟨hlen, rfl⟩ | hold <;>
      rcases hcases m' mmu' hm' with ⟨hlen', rfl⟩ | hold'
    · exact (hne (hlen.trans hlen'.symm)).elim
    · exact (not_live_mmu hlive hold' hident.symm).elim
    · exact (not_live_mmu hlive hold hident).elim
    · exact hw.shared m m' mmu mmu' hold hold' hne hident

/-- A new table comes with a new token, or is the old one. -/
theorem Coherent.table {w' : World} {token : Token} (hw : w.Coherent) (hlive : ¬ w.Live token)
    {m : ℕ} {mmu : IoMMU} {modified : Bool} {t : PageTable}
    (hchange : TableChange w w' m mmu ⟨if modified then token else mmu.identifier, t⟩)
    (hsame : modified = false → t = mmu.table) : w'.Coherent := by
  cases modified with
  | false =>
    obtain rfl := hsame rfl
    refine hw.keep hchange.heap ?_ fun k tlb hk => .inl (by rwa [hchange.tlb] at hk)
    intro k x hk
    rcases hchange.mmu_cases hk with ⟨rfl, rfl⟩ | ⟨-, hold⟩
    · exact hchange.old
    · exact hold
  | true =>
    constructor
    · intro k tlb hk i entry hentry k' x hx hident
      rw [hchange.tlb] at hk
      rcases hchange.mmu_cases hx with ⟨-, rfl⟩ | ⟨-, hold⟩
      · exact (not_live_tlb hlive hk hentry hident.symm).elim
      · exact getPage_mono hchange.heap (hw.tlb k tlb hk i entry hentry k' x hold hident)
    · intro k k' x x' hx hx' hne hident
      rcases hchange.mmu_cases hx with ⟨hk, rfl⟩ | ⟨-, hold⟩ <;>
        rcases hchange.mmu_cases hx' with ⟨hk', rfl⟩ | ⟨-, hold'⟩
      · exact (hne (hk.trans hk'.symm)).elim
      · exact (not_live_mmu hlive hold' hident.symm).elim
      · exact (not_live_mmu hlive hold hident).elim
      · exact hw.shared k k' x x' hold hold' hne hident

/-- The identifier after a fork is the old one or one that is not live. -/
theorem forkIdent_cases (token : Token) (mmu : IoMMU) :
    w.forkIdent token mmu = token ∨ w.forkIdent token mmu = mmu.identifier := by
  unfold forkIdent
  split_ifs
  · exact .inl rfl
  · exact .inr rfl

theorem Coherent.fork {token : Token} (hw : w.Coherent) (hlive : ¬ w.Live token) {m : ℕ}
    {mmu : IoMMU} (hold : w.mmu? m = some mmu) (hclean : w.ForkClean m) :
    (w.fork token m).Coherent := by
  obtain ⟨hres, hentries⟩ := hclean mmu hold
  obtain ⟨hfork, hsettled⟩ := fork_eq_settle hres
  have hheap : (w.fork token m).heap = w.heap := by rw [(fork_eq hold).1, hfork]
  -- after the fork an MMU is one of the two, with the settled table, or an old one
  have hcases : ∀ k x, (w.fork token m).mmu? k = some x →
      (x = ⟨w.forkIdent token mmu, mmu.table.settle w.heap⟩) ∨ (k ≠ m ∧ w.mmu? k = some x) := by
    intro k x hk
    rcases fork_mmu_cases hold hk with ⟨-, hx⟩ | ⟨-, hx⟩ | hk
    · rw [hfork] at hx
      exact .inl hx
    · rw [hfork] at hx
      exact .inl hx
    · exact .inr hk
  -- an old MMU that shares the identifier had the table settled before
  have hother : ∀ k x, k ≠ m → w.mmu? k = some x → x.identifier = w.forkIdent token mmu →
      x.table = mmu.table.settle w.heap := by
    intro k x hk hx hident
    rcases forkIdent_cases (w := w) token mmu with htoken | hmmu
    · exact (not_live_mmu hlive hx (hident.trans htoken)).elim
    · obtain ⟨htable, hs⟩ := hw.shared k m x mmu hx hold hk (hident.trans hmmu)
      rw [htable] at hs
      rw [settle_eq_self hs, htable]
  constructor
  · intro t tlb ht i entry hentry k x hx hident
    rw [(fork_eq hold).2.2] at ht
    rw [hheap]
    rcases hcases k x hx with rfl | ⟨-, hold'⟩
    · rcases forkIdent_cases (w := w) token mmu with htoken | hmmu
      · exact (not_live_tlb hlive ht hentry (hident.symm.trans htoken)).elim
      · -- the entry is for a page that the fork leaves alone
        have hpage := hw.tlb t tlb ht i entry hentry m mmu hold (hmmu.symm.trans hident)
        obtain ⟨pe, hget, hasPage⟩ := getPage_eq_ok.1 hpage
        have hset := hentries t tlb i entry pe ht hentry (hident.symm.trans hmmu) hget
        refine getPage_eq_ok.2 ⟨pe, ?_, hasPage⟩
        show (mmu.table.settle w.heap).get? _ = _
        unfold PageTable.settle
        rw [PageTable.get?_mapVals, hget, Option.map_some, settle_of_settled hset]
    · exact hw.tlb t tlb ht i entry hentry k x hold' hident
  · intro k k' x x' hx hx' hne hident
    rcases hcases k x hx with rfl | ⟨hk, hold₁⟩ <;> rcases hcases k' x' hx' with rfl | ⟨hk', hold₂⟩
    · exact ⟨rfl, hsettled⟩
    · exact ⟨(hother k' x' hk' hold₂ hident.symm).symm, hsettled⟩
    · have htable := hother k x hk hold₁ hident
      exact ⟨htable, htable ▸ hsettled⟩
    · exact hw.shared k k' x x' hold₁ hold₂ hne hident

/-- A lookup fills a TLB only with entries that agree. -/
theorem Coherent.keeps_getPage (hw : w.Coherent) {m : ℕ} {mmu : IoMMU}
    (hm : w.mmu? m = some mmu) (n : PageNumber) :
    Keeps (CacheAll w.Agrees) (getPage w.heap mmu n) fun page =>
      mmu.table.getPage w.heap n = .ok page := by
  have hfill : ∀ page, mmu.table.getPage w.heap n = .ok page →
      w.Agrees ⟨mmu.identifier, n, page⟩ := by
    intro page hpage k x hk hident
    by_cases hkm : k = m
    · subst hkm
      rw [hm] at hk
      obtain rfl := Option.some.inj hk
      exact hpage
    · rw [(hw.shared k m x mmu hk hm hkm hident).1]
      exact hpage
  refine (Mmu.keeps_getPage n hfill).mono fun page hpage => ?_
  rcases hpage with hpage | hpage
  · exact hpage
  · exact hpage m mmu hm rfl

theorem Coherent.step {call : Op × Token} (hw : w.Coherent) (hok : w.CallOk call) :
    (w.step call.1 call.2).Coherent := by
  obtain ⟨hlive, hfork⟩ := hok
  cases w.step_change call.1 call.2 with
  | keep heap mmu tlb => exact hw.keep heap mmu tlb
  | newMmu eq =>
    rw [eq]
    exact hw.newMmu hlive
  | table m mmu modified t change same keys => exact hw.table hlive change same
  | fork m mmu old hop eq =>
    rw [eq]
    exact hw.fork hlive old (hfork m hop)
  | access m mmu old c cache heap mmus tlb lookups =>
    have hcache : CacheAll w.Agrees cache :=
      lookups _ (fun n => (hw.keeps_getPage old n).mono fun _ _ => trivial)
        (cacheAll_cache hw.tlb c)
    have hmmu : ∀ k x, (w.step call.1 call.2).mmu? k = some x → w.mmu? k = some x :=
      fun k x hk => by rwa [mmus] at hk
    constructor
    · intro t tlb' ht i entry hentry
      rcases tlb t tlb' ht with hold | hnew
      · exact (hw.tlb t tlb' hold i entry hentry).of_old heap hmmu
      · exact (hcache tlb' hnew i entry hentry).of_old heap hmmu
    · intro k k' x x' hk hk' hne hident
      exact hw.shared k k' x x' (hmmu k x hk) (hmmu k' x' hk') hne hident

theorem coherent_init : World.init.Coherent := by
  constructor
  · intro t tlb h
    cases h
  · intro m m' mmu mmu' h
    cases h

/-! ## Fresh tokens -/

/-- All tokens in use are below `k`. -/
structure TokensBelow (w : World) (k : Token) : Prop where
  mmu : ∀ m mmu, w.mmu? m = some mmu → mmu.identifier < k
  tlb : ∀ t tlb, w.tlb? t = some tlb → ∀ i entry, tlb i = some entry → entry.ioMmuIdent < k

theorem TokensBelow.fresh {k : Token} (hw : w.TokensBelow k) (op : Op) : w.Fresh (op, k) := by
  rintro (⟨m, mmu, hm, heq⟩ | ⟨t, tlb, i, entry, ht, hi, heq⟩)
  · exact (hw.mmu m mmu hm).ne heq
  · exact (hw.tlb t tlb ht i entry hi).ne heq

theorem TokensBelow.step {k : Token} (hw : w.TokensBelow k) (op : Op) :
    (w.step op k).TokensBelow (k + 1) := by
  have hmmu : ∀ m mmu, w.mmu? m = some mmu → mmu.identifier < k + 1 :=
    fun m mmu hm => Nat.lt_succ_of_lt (hw.mmu m mmu hm)
  have htlb : ∀ t tlb, w.tlb? t = some tlb → ∀ i entry, tlb i = some entry →
      entry.ioMmuIdent < k + 1 :=
    fun t tlb ht i entry hi => Nat.lt_succ_of_lt (hw.tlb t tlb ht i entry hi)
  cases w.step_change op k with
  | keep heap mmu tlb =>
    refine ⟨fun m x hm => hmmu m x (mmu m x hm), fun t tlb' ht i entry hi => ?_⟩
    rcases tlb t tlb' ht with hold | rfl
    · exact htlb t tlb' hold i entry hi
    · cases hi
  | newMmu eq =>
    rw [eq]
    refine ⟨fun m x hm => ?_, htlb⟩
    rw [mmu?_append] at hm
    by_cases hlen : m = w.mmus.length
    · rw [if_pos hlen] at hm
      obtain rfl := Option.some.inj hm
      exact Nat.lt_succ_self k
    · rw [if_neg hlen] at hm
      exact hmmu m x hm
  | table m mmu modified t change same keys =>
    refine ⟨fun j x hj => ?_, fun j tlb hj => htlb j tlb (by rwa [change.tlb] at hj)⟩
    rcases change.mmu_cases hj with ⟨-, rfl⟩ | ⟨-, hold⟩
    · cases modified with
      | false => exact hmmu m mmu change.old
      | true => exact Nat.lt_succ_self k
    · exact hmmu j x hold
  | fork m mmu old hop eq =>
    rw [eq]
    have hident : w.forkIdent k mmu < k + 1 := by
      rcases forkIdent_cases (w := w) k mmu with h | h
      · rw [h]
        exact Nat.lt_succ_self k
      · rw [h]
        exact hmmu m mmu old
    refine ⟨fun j x hj => ?_, fun j tlb hj => htlb j tlb (by rwa [(fork_eq old).2.2] at hj)⟩
    rcases fork_mmu_cases old hj with ⟨-, rfl⟩ | ⟨-, rfl⟩ | ⟨-, hold⟩
    · exact hident
    · exact hident
    · exact hmmu j x hold
  | access m mmu old c cache heap mmus tlb lookups =>
    refine ⟨fun j x hj => hmmu j x (by rwa [mmus] at hj), fun t tlb' ht i entry hi => ?_⟩
    have hcache : CacheAll (fun entry => entry.ioMmuIdent < k) cache :=
      lookups _ (fun n => (Mmu.keeps_getPage n fun _ _ => hw.mmu m mmu old).mono fun _ _ => trivial)
        (cacheAll_cache hw.tlb c)
    rcases tlb t tlb' ht with hold | hnew
    · exact htlb t tlb' hold i entry hi
    · exact Nat.lt_succ_of_lt (hcache tlb' hnew i entry hi)

/-- An allocator that never reuses an address allocates fresh tokens: the calls of any
    run, with the numbers from `k` on as their tokens. -/
theorem TokensBelow.meets_fresh {k : Token} (hw : w.TokensBelow k) (ops : List Op) :
    Meets Fresh w (ops.zipIdx k) := by
  induction ops generalizing w k with
  | nil => trivial
  | cons op ops ih => exact ⟨hw.fresh op, ih (hw.step op)⟩

theorem tokensBelow_init : World.init.TokensBelow 0 := by
  constructor
  · intro m mmu h
    cases h
  · intro t tlb h
    cases h

/-- Without TLBs, a fork of a table without object pages is clean. -/
theorem forkClean_of_noTlb {m : ℕ} (htlbs : w.tlbs = [])
    (hsource : ∀ mmu, w.mmu? m = some mmu →
      ∀ p ∈ mmu.table.entries, ∀ slot, p.2.source ≠ .object slot false) : w.ForkClean m := by
  intro mmu hm
  constructor
  · intro n entry slot hget hobj
    exact (hsource mmu hm _ (PageTable.mem_entries_of_get? hget) slot hobj).elim
  · intro t tlb i tlbEntry entry ht
    have hlt := tlb?_lt ht
    rw [htlbs] at hlt
    exact absurd hlt (Nat.not_lt_zero t)

end World

/-- In every run whose tokens are fresh and whose forks are clean, a hit of any TLB for
    any MMU is what the MMU's table returns at that moment. -/
theorem tlb_coherent_run {calls : List (Op × Token)}
    (hok : World.Meets World.CallOk World.init calls) :
    ∀ t tlb m mmu n page, (World.init.run calls).tlb? t = some tlb →
      (World.init.run calls).mmu? m = some mmu → tlb.hit n mmu.identifier = some page →
      mmu.table.getPage (World.init.run calls).heap n = .ok page := by
  have hcoherent : (World.init.run calls).Coherent :=
    hok.invariant (fun w call hw hcall => hw.step hcall) World.coherent_init
  intro t tlb m mmu n page ht hm hhit
  exact hcoherent.tlb t tlb ht _ _ (Tlb.hit_eq_some hhit) m mmu hm rfl

/-- A page is mapped, the MMU is forked, and then both sides fill one TLB. -/
def forkThenLookup : List Op :=
  [.newMmu, .map 0 0 4096 false false (MemProt.READ ||| MemProt.WRITE), .fork 0, .newTlb,
    .lookup 1 (some 0) 0, .lookup 0 (some 0) 0]

/-- The hit for both sides of `forkThenLookup` is the copy-on-write page of their tables. -/
theorem tlb_coherent_forkThenLookup :
    let w := World.init.run (forkThenLookup.zipIdx 0)
    ∃ tlb mmu mmu', w.tlb? 0 = some tlb ∧ w.mmu? 0 = some mmu ∧ w.mmu? 1 = some mmu' ∧
      tlb.hit 0 mmu.identifier = some ⟨.alloc 0, 0b10011, 0⟩ ∧
      mmu.table.getPage w.heap 0 = .ok ⟨.alloc 0, 0b10011, 0⟩ ∧
      mmu'.table.getPage w.heap 0 = .ok ⟨.alloc 0, 0b10011, 0⟩ := by
  have hfork : World.Meets (fun w call => ∀ m, call.1 = .fork m → w.ForkClean m) World.init
      (forkThenLookup.zipIdx 0) := by
    refine ⟨fun m h => ?_, fun m h => ?_, fun m h => ?_, fun m h => ?_, fun m h => ?_,
      fun m h => ?_, trivial⟩ <;> try cases h
    refine World.forkClean_of_noTlb rfl fun mmu hm p hp slot hs => ?_
    obtain rfl := Option.some.inj hm
    obtain rfl := List.mem_singleton.1 hp
    cases hs
  have hok : World.Meets World.CallOk World.init (forkThenLookup.zipIdx 0) :=
    (World.tokensBelow_init.meets_fresh _).and hfork
  refine ⟨_, _, _, rfl, rfl, rfl, by decide, ?_, ?_⟩
  · exact tlb_coherent_run hok 0 _ 0 _ 0 _ rfl rfl (by decide)
  · exact tlb_coherent_run hok 0 _ 1 _ 0 _ rfl rfl (by decide)

/-- A page is mapped, looked up through a TLB, and then the MMU is forked. -/
def lookupThenFork : List Op :=
  [.newMmu, .newTlb, .map 0 0 4096 false false (MemProt.READ ||| MemProt.WRITE),
    .lookup 0 (some 0) 0, .fork 0]

/-- After `lookupThenFork` the TLB still hits, without the `COW` flag, for the MMU that
    was forked and for the new one. -/
theorem stale_after_fork :
    ¬ ∀ calls, World.Meets World.Fresh World.init calls →
      ∀ t tlb m mmu n page, (World.init.run calls).tlb? t = some tlb →
        (World.init.run calls).mmu? m = some mmu → tlb.hit n mmu.identifier = some page →
        mmu.table.getPage (World.init.run calls).heap n = .ok page := by
  intro hclaim
  have hstale := hclaim (lookupThenFork.zipIdx 0) (World.tokensBelow_init.meets_fresh _) 0 _ 1 _ 0
    ⟨.alloc 0, 0b00011, 0⟩ rfl rfl (by decide)
  revert hstale
  decide

end RapidArm.Mmu
