import RapidArm.Lib.Lists
import RapidArm.Lib.Program
import RapidArm.Tar.Entry
import Mathlib.Data.PNat.Basic
import Mathlib.Data.List.Perm.Basic
import Mathlib.Algebra.Order.BigOperators.Group.List

/-!
# The budget of the archive reader

`BudgetCalculator` (`tar_ball.rs`, lines 138–262) as programs over the channels. The slab
of pending operations is a list in the order of its keys; an insertion takes the key that
the slab gives out. Dropping the sender of an operation is a call of its own.

Result: `inner_ensures`. Whatever the channels answer, the current budget and the pending
operations keep their sum but for the chunk of the active sender when it is flushed, and
nothing panics.
-/

namespace RapidArm.Tar

open RapidArm.Lib

/-! ## Channels as the reader sees them -/

/-- The results of `try_send`. -/
inductive TrySend
  | ok
  | disconnected
  | full
  deriving DecidableEq, Repr

/-- The calls of the reader's thread: a new channel for a file, sends on the stream, on a
    channel and on the first channel of several that takes a packet, the end of a sender,
    and the key of a slab of some length. -/
inductive Op
  | channel (file : List Byte)
  | sendEntry (ch : ℕ)
  | sendError
  | send (ch : ℕ) (packet : Packet)
  | trySendFlush (ch : ℕ)
  | selectFlush (chs : List ℕ)
  | dropSender (ch : ℕ)
  | slabKey (len : ℕ)

/-- Their answers; a send answers whether there is a receiver. -/
@[reducible] def Res : Op → Type
  | .channel _ => ℕ
  | .sendEntry _ => Bool
  | .sendError => Bool
  | .send _ _ => Bool
  | .trySendFlush _ => TrySend
  | .selectFlush _ => ℕ
  | .dropSender _ => Unit
  | .slabKey _ => ℕ

/-- Code of the reader's thread. -/
abbrev Reader := Program Op Res

/-- The sender of a channel is in use. -/
def Open (g : List Feed) (ch : ℕ) : Prop := ∃ f, g[ch]? = some f ∧ f.dropped = false

/-- What the reader of an archive with some files may do on its channels, and what it is
    told. It opens a channel for each file in order, sends the bytes of the file in order,
    and drops a sender only when there is nothing left to send. -/
def channels (files : List (List Byte)) : Interface Op Res (List Feed) where
  requires g op :=
    match op with
    | .channel file => g.map Feed.file ++ [file] <+: files
    | .sendError | .slabKey _ => True
    | .sendEntry ch => Open g ch
    | .send ch packet => ∃ f, g[ch]? = some f ∧ f.dropped = false ∧ packet ≠ .newData [] ∧
        f.sent ++ packet.data <+: f.file
    | .trySendFlush ch => Open g ch
    | .selectFlush chs => chs ≠ [] ∧ ∀ ch ∈ chs, Open g ch
    | .dropSender ch => ∃ f, g[ch]? = some f ∧ f.dropped = false ∧ f.Complete
  answers g op r g' :=
    match op, r with
    | .channel file, ch => ch = g.length ∧ g' = g ++ [.new file]
    | .sendEntry ch, (sent : Bool) => g' = if sent then g else g.modify ch fun f =>
      { f with lost := true }
    | .sendError, _ => g' = g
    | .send ch packet, (sent : Bool) =>
      g' = g.modify ch fun f => if sent then f.send packet else { f with lost := true }
    | .trySendFlush _, _ => g' = g
    | .selectFlush chs, (i : ℕ) => i < chs.length ∧ g' = g
    | .dropSender ch, _ => g' = g.modify ch fun f => { f with dropped := true }
    | .slabKey len, (i : ℕ) => i ≤ len ∧ g' = g

def channel (file : List Byte) : Reader ℕ := Program.perform (Op.channel file)

def sendEntry (ch : ℕ) : Reader Bool := Program.perform (Op.sendEntry ch)

def sendError : Reader Bool := Program.perform Op.sendError

def send (ch : ℕ) (packet : Packet) : Reader Bool := Program.perform (Op.send ch packet)

def trySendFlush (ch : ℕ) : Reader TrySend := Program.perform (Op.trySendFlush ch)

def selectFlush (chs : List ℕ) : Reader ℕ := Program.perform (Op.selectFlush chs)

def dropSender (ch : ℕ) : Reader Unit := Program.perform (Op.dropSender ch)

def slabKey (len : ℕ) : Reader ℕ := Program.perform (Op.slabKey len)

def strictAdd (a b : ℕ) : Reader ℕ := do
  .assert (a + b < 2 ^ 64)
  return a + b

def strictSub (a b : ℕ) : Reader ℕ := do
  .assert (b ≤ a)
  return a - b

/-- `NonZero::new`. -/
def nonZero (n : ℕ) : Option ℕ+ := if h : 0 < n then some ⟨n, h⟩ else none

/-- `unwrap`. -/
def unwrap {α : Type} : Option α → Reader α
  | some a => .ret a
  | none => .panic

/-! ## The calculator -/

/-- `BudgetCalculator`. -/
structure BudgetCalculator where
  currentBudget : ℕ
  pendingOperations : List (ℕ+ × ℕ)
  totalBudget : ℕ+

namespace BudgetCalculator

/-- `new`. -/
def new (totalBudget : ℕ+) : BudgetCalculator := ⟨totalBudget, [], totalBudget⟩

/-- `try_refill_budget_from`: whether it was refilled, and the current budget. -/
def tryRefillBudgetFrom (currentBudget : ℕ) (senderBudget : ℕ+) (sender : ℕ) :
    Reader (Bool × ℕ) := do
  match ← trySendFlush sender with
  | .ok | .disconnected => return (true, ← strictAdd currentBudget senderBudget)
  | .full => return (false, currentBudget)

/-- The `retain` of `try_refill_budget`; an operation that is removed drops its sender. -/
def retain (currentBudget : ℕ) : List (ℕ+ × ℕ) → Reader (ℕ × List (ℕ+ × ℕ))
  | [] => return (currentBudget, [])
  | (budget, sender) :: rest => do
    let (sentFlush, currentBudget) ← tryRefillBudgetFrom currentBudget budget sender
    if sentFlush then
      dropSender sender
      retain currentBudget rest
    else
      let (currentBudget, rest) ← retain currentBudget rest
      return (currentBudget, (budget, sender) :: rest)

/-- `try_refill_budget`. -/
def tryRefillBudget (b : BudgetCalculator) : Reader BudgetCalculator := do
  let (currentBudget, pendingOperations) ← retain b.currentBudget b.pendingOperations
  return { b with currentBudget, pendingOperations }

/-- `refill_budget`: waits for one of the pending operations or the sender, the last one
    of the selector. -/
def refillBudget (b : BudgetCalculator) (sender : Option (ℕ+ × ℕ)) :
    Reader (Bool × ℕ+ × BudgetCalculator) := do
  let selector := b.pendingOperations ++ sender.toList
  .assert (b.pendingOperations ≠ [] ∨ sender.isSome)
  let i ← selectFlush (selector.map Prod.snd)
  let (budgetReclaimed, ch) ← unwrap selector[i]?
  if i < b.pendingOperations.length then dropSender ch
  let currentBudget ← strictAdd b.currentBudget budgetReclaimed
  let b' ← tryRefillBudget
      { b with currentBudget, pendingOperations := b.pendingOperations.eraseIdx i }
  return (b.pendingOperations.length ≤ i, ← unwrap (nonZero b'.currentBudget), b')

/-- `get_available_budget_inner`: whether the active sender was flushed, and the budget. -/
def getAvailableBudgetInner (b : BudgetCalculator) (sender : Option (ℕ+ × ℕ)) :
    Reader (Bool × ℕ+ × BudgetCalculator) := do
  let b ← (if b.pendingOperations.length > 8 ∨ b.currentBudget ≤ 1024 then
    tryRefillBudget b else pure b)
  let (flushedActiveSender, currentBudget) ← (match sender with
    | some (budget, sender) => tryRefillBudgetFrom b.currentBudget budget sender
    | none => pure (false, b.currentBudget))
  match nonZero currentBudget with
  | some budget => return (flushedActiveSender, budget, { b with currentBudget })
  | none => refillBudget { b with currentBudget } sender

/-- `get_available_budget`. -/
def getAvailableBudget (b : BudgetCalculator) : Reader (ℕ+ × BudgetCalculator) := do
  let (flushedSender, budget, b) ← getAvailableBudgetInner b none
  .assert (flushedSender = false)
  return (budget, b)

/-- `consume`. -/
def consume (b : BudgetCalculator) (budget : ℕ+) (sender : ℕ) :
    Reader (Bool × ℕ+ × BudgetCalculator) := do
  let currentBudget ← strictSub b.currentBudget budget
  getAvailableBudgetInner { b with currentBudget } (some (budget, sender))

/-- `add_budget`. -/
def addBudget (b : BudgetCalculator) (amt : ℕ+) : Reader BudgetCalculator := do
  let newBudget ← strictAdd b.currentBudget amt
  .assert (newBudget ≤ b.totalBudget)
  return { b with currentBudget := newBudget }

/-- `enqueue`. -/
def enqueue (b : BudgetCalculator) (consumed : ℕ+) (sender : ℕ) : Reader BudgetCalculator := do
  let i ← slabKey b.pendingOperations.length
  return { b with pendingOperations := b.pendingOperations.insertIdx i (consumed, sender) }

/-- The sum of `assert_budget_complete`, which drops each operation. -/
def sumBudget (budget : ℕ) : List (ℕ+ × ℕ) → Reader ℕ
  | [] => return budget
  | (inFlight, sender) :: rest => do
    let budget ← strictAdd budget inFlight
    dropSender sender
    sumBudget budget rest

/-- `assert_budget_complete`. -/
def assertBudgetComplete (b : BudgetCalculator) : Reader Unit := do
  let budget ← sumBudget b.currentBudget b.pendingOperations
  .assert (budget = b.totalBudget)

end BudgetCalculator

/-! ## What the operations keep -/

section

variable {files : List (List Byte)} {g : List Feed}

theorem strictAdd_ensures {a b : ℕ} {post : ℕ → List Feed → Prop} (h : a + b < 2 ^ 64)
    (hpost : post (a + b) g) :
    (strictAdd a b).Ensures (channels files) post g :=
  Program.Ensures.bind (Program.ensures_assert h hpost)

theorem strictSub_ensures {a b : ℕ} {post : ℕ → List Feed → Prop} (h : b ≤ a)
    (hpost : post (a - b) g) :
    (strictSub a b).Ensures (channels files) post g :=
  Program.Ensures.bind (Program.ensures_assert h hpost)

theorem nonZero_pos {n : ℕ} (h : 0 < n) : nonZero n = some ⟨n, h⟩ := dif_pos h

theorem nonZero_zero : nonZero 0 = none := dif_neg (Nat.lt_irrefl 0)

/-- The bytes that some pending operations hold. -/
def pendingBytes (l : List (ℕ+ × ℕ)) : ℕ := (l.map fun p => (p.1 : ℕ)).sum

/-- Some pending operations: each is of another channel, whose sender is in use and has
    nothing left to send. -/
structure PendingOk (g : List Feed) (l : List (ℕ+ × ℕ)) : Prop where
  nodup : (l.map Prod.snd).Nodup
  feed : ∀ p ∈ l, ∃ f, g[p.2]? = some f ∧ f.dropped = false ∧ f.Complete

/-- At most the feeds of some channels changed, and not their files. -/
structure Framed (chs : List ℕ) (g g' : List Feed) : Prop where
  files : g'.map Feed.file = g.map Feed.file
  feed : ∀ ch ∉ chs, g'[ch]? = g[ch]?

theorem Framed.refl (chs : List ℕ) (g : List Feed) : Framed chs g g := ⟨rfl, fun _ _ => rfl⟩

theorem Framed.trans {chs : List ℕ} {g g' g'' : List Feed} (h : Framed chs g g')
    (h' : Framed chs g' g'') :
    Framed chs g g'' :=
  ⟨h'.files.trans h.files, fun ch hch => (h'.feed ch hch).trans (h.feed ch hch)⟩

theorem Framed.mono {chs chs' : List ℕ} {g g' : List Feed} (h : Framed chs g g')
    (hsub : chs ⊆ chs') :
    Framed chs' g g' :=
  ⟨h.files, fun ch hch => h.feed ch fun hmem => hch (hsub hmem)⟩

theorem framed_modify (g : List Feed) (ch : ℕ) {f : Feed → Feed}
    (hf : ∀ feed, (f feed).file = feed.file) :
    Framed [ch] g (g.modify ch f) where
  files := map_modify g ch hf
  feed _ hch' := List.getElem?_modify_ne _ _ fun heq => hch' (List.mem_singleton.2 heq.symm)

theorem PendingOk.frame {l : List (ℕ+ × ℕ)} {chs : List ℕ} {g' : List Feed} (h : PendingOk g l)
    (hframe : Framed chs g g') (hdisjoint : ∀ p ∈ l, p.2 ∉ chs) : PendingOk g' l where
  nodup := h.nodup
  feed p hp := by
    rw [hframe.feed p.2 (hdisjoint p hp)]
    exact h.feed p hp

theorem PendingOk.sublist {l l' : List (ℕ+ × ℕ)} (h : PendingOk g l) (hsub : l'.Sublist l) :
    PendingOk g l' :=
  ⟨h.nodup.sublist (hsub.map _), fun p hp => h.feed p (hsub.mem hp)⟩

theorem PendingOk.open {l : List (ℕ+ × ℕ)} (h : PendingOk g l) {p : ℕ+ × ℕ} (hp : p ∈ l) :
    Open g p.2 := by
  obtain ⟨f, hf, hdropped, -⟩ := h.feed p hp
  exact ⟨f, hf, hdropped⟩

end

namespace BudgetCalculator

variable {files : List (List Byte)} {g : List Feed}

/-- A flush that the channel takes, or has no receiver for, refills the budget. -/
theorem tryRefillBudgetFrom_ensures {currentBudget : ℕ} {senderBudget : ℕ+} {sender : ℕ}
    (hopen : Open g sender) (hsum : currentBudget + senderBudget < 2 ^ 64) :
    (tryRefillBudgetFrom currentBudget senderBudget sender).Ensures (channels files)
      (fun r g' => g' = g ∧ r.2 = currentBudget + if r.1 then (senderBudget : ℕ) else 0) g := by
  refine Program.Ensures.bind (Program.ensures_perform hopen ?_)
  intro r g' hg'
  obtain rfl : g' = g := hg'
  have hrefill : Program.Ensures (channels files) (fun r g'' => g'' = g' ∧
      r.2 = currentBudget + if r.1 then (senderBudget : ℕ) else 0)
      (do return (true, ← strictAdd currentBudget senderBudget)) g' :=
    Program.Ensures.bind (strictAdd_ensures hsum ⟨rfl, rfl⟩)
  cases r with
  | ok => exact hrefill
  | disconnected => exact hrefill
  | full => exact ⟨rfl, rfl⟩

/-- Retaining keeps the sum of the budget and the operations. The induction is on the
    operations, which are of different channels, so that the drop of one leaves the
    others' feeds alone. -/
theorem retain_ensures (l : List (ℕ+ × ℕ)) {currentBudget : ℕ} {g : List Feed} (hl : PendingOk g l)
    (hsum : currentBudget + pendingBytes l < 2 ^ 64) :
    (retain currentBudget l).Ensures (channels files)
    (fun r g' => r.1 + pendingBytes r.2 = currentBudget + pendingBytes l ∧
      r.2.Sublist l ∧ PendingOk g' r.2 ∧ Framed (l.map Prod.snd) g g') g := by
  induction l generalizing currentBudget g with
  | nil => exact ⟨rfl, List.Sublist.refl _, hl, .refl _ _⟩
  | cons p rest ih =>
    obtain ⟨budget, sender⟩ := p
    have hbytes : pendingBytes ((budget, sender) :: rest) = budget + pendingBytes rest :=
      List.sum_cons
    obtain ⟨hnot, hnodup⟩ := List.nodup_cons.1 hl.nodup
    have hrest : PendingOk g rest := hl.sublist (List.sublist_cons_self _ _)
    have hfeed := hl.feed (budget, sender) List.mem_cons_self
    rw [hbytes] at hsum
    refine Program.Ensures.bind
      ((tryRefillBudgetFrom_ensures (hl.open List.mem_cons_self) (by omega)).mono ?_)
    rintro ⟨sentFlush, currentBudget'⟩ g' ⟨rfl, hcurrent⟩
    cases sentFlush with
    | true =>
      have hcurrent' : currentBudget' = currentBudget + budget := hcurrent
      refine Program.Ensures.bind (Program.ensures_perform hfeed ?_)
      intro _ g'' hg''
      have hframe : Framed [sender] g' g'' := by
        rw [show g'' = _ from hg'']
        exact framed_modify _ _ fun _ => rfl
      have hrest' : PendingOk g'' rest := hrest.frame hframe fun p hp hmem =>
        hnot (List.mem_map.2 ⟨p, hp, List.mem_singleton.1 hmem⟩)
      refine (ih hrest' (by omega)).mono ?_
      rintro ⟨currentBudget'', rest'⟩ g₃ ⟨hsum', hsub, hok, hframe'⟩
      refine ⟨?_, hsub.cons _, hok, (hframe.mono ?_).trans (hframe'.mono ?_)⟩
      · show currentBudget'' + pendingBytes rest' = _
        rw [hsum', hcurrent', hbytes]
        omega
      · simp
      · simp
    | false =>
      have hcurrent' : currentBudget' = currentBudget := hcurrent
      refine Program.Ensures.bind ((ih hrest (by omega)).mono ?_)
      rintro ⟨currentBudget'', rest'⟩ g₃ ⟨hsum', hsub, hok, hframe⟩
      refine ⟨?_, hsub.cons_cons _, ⟨?_, ?_⟩, hframe.mono (by simp)⟩
      · have hbytes' : pendingBytes ((budget, sender) :: rest') = budget + pendingBytes rest' :=
          List.sum_cons
        show currentBudget'' + pendingBytes ((budget, sender) :: rest') = _
        have hsum'' : currentBudget'' + pendingBytes rest' = currentBudget' + pendingBytes rest :=
          hsum'
        rw [hbytes', hbytes]
        omega
      · refine List.nodup_cons.2 ⟨fun hmem => hnot ((hsub.map Prod.snd).mem hmem), hok.nodup⟩
      · intro p hp
        rcases List.mem_cons.1 hp with rfl | hp
        · rw [hframe.feed _ hnot]
          exact hfeed
        · exact hok.feed p hp

/-- All bytes that the budget still has or the pending operations hold. -/
def held (b : BudgetCalculator) : ℕ := b.currentBudget + pendingBytes b.pendingOperations

/-- The calculator after some refills: what it holds grew by the bytes of the active
    sender, and only pending operations were dealt with. -/
structure Refilled (b : BudgetCalculator) (extra : ℕ) (g : List Feed) (b' : BudgetCalculator)
   
    (g' : List Feed) : Prop where
  total : b'.totalBudget = b.totalBudget
  held : b'.held = b.held + extra
  sublist : b'.pendingOperations.Sublist b.pendingOperations
  pending : PendingOk g' b'.pendingOperations
  frame : Framed (b.pendingOperations.map Prod.snd) g g'

theorem pendingBytes_sublist {l l' : List (ℕ+ × ℕ)} (h : l'.Sublist l) :
    pendingBytes l' ≤ pendingBytes l :=
  (h.map _).sum_le_sum fun _ _ => Nat.zero_le _

theorem pendingBytes_perm {l l' : List (ℕ+ × ℕ)} (h : l.Perm l') :
    pendingBytes l = pendingBytes l' :=
  (h.map _).sum_eq

/-- Refilling never lowers the current budget. -/
theorem Refilled.current_le {b b' : BudgetCalculator} {extra : ℕ} {g' : List Feed}
    (h : Refilled b extra g b' g') :
    b.currentBudget ≤ b'.currentBudget := by
  have hheld := h.held
  have hpending := pendingBytes_sublist h.sublist
  unfold BudgetCalculator.held at hheld
  omega

theorem tryRefillBudget_ensures {b : BudgetCalculator} (hpending : PendingOk g b.pendingOperations)
    (hheld : b.held < 2 ^ 64) :
    (tryRefillBudget b).Ensures (channels files) (fun b' g' => Refilled b 0 g b' g') g := by
  refine Program.Ensures.bind ((retain_ensures _ hpending hheld).mono ?_)
  rintro ⟨currentBudget, rest⟩ g' ⟨hsum, hsub, hok, hframe⟩
  exact ⟨rfl, hsum, hsub, hok, hframe⟩

/-- The bytes of the active sender, if it was flushed. -/
def flushedBytes (sender : Option (ℕ+ × ℕ)) (flushed : Bool) : ℕ :=
  if flushed then (sender.map fun p => (p.1 : ℕ)).getD 0 else 0

/-- The result of the functions that return a budget: it is the whole current one, and
    only an active sender is flushed. -/
structure Returns (b : BudgetCalculator) (sender : Option (ℕ+ × ℕ)) (g : List Feed)
    (r : Bool × ℕ+ × BudgetCalculator) (g' : List Feed) : Prop where
  refilled : Refilled b (flushedBytes sender r.1) g r.2.2 g'
  budget : (r.2.1 : ℕ) = r.2.2.currentBudget
  active : r.1 → sender.isSome

/-- After the wait: the bytes of the operation that was selected are free. -/
theorem refill_tail {b : BudgetCalculator} {pending : List (ℕ+ × ℕ)} {reclaimed : ℕ+}
    (hpending : PendingOk g pending)
    (hsum : b.currentBudget + reclaimed + pendingBytes pending < 2 ^ 64)
    {flushed : Bool} {post : Bool × ℕ+ × BudgetCalculator → List Feed → Prop}
    (hpost : ∀ b' g' (hpos : 0 < b'.currentBudget),
      Refilled { b with currentBudget := b.currentBudget + reclaimed, pendingOperations := pending }
        0 g b' g' →
        post (flushed, ⟨b'.currentBudget, hpos⟩, b') g') :
    Program.Ensures (channels files) post (do
      let currentBudget ← strictAdd b.currentBudget reclaimed
      let b' ← tryRefillBudget { b with currentBudget, pendingOperations := pending }
      return (flushed, ← unwrap (nonZero b'.currentBudget), b')) g := by
  refine Program.Ensures.bind (strictAdd_ensures (by omega) ?_)
  have hrefill : Program.Ensures (channels files)
      (Refilled
        { b with currentBudget := b.currentBudget + reclaimed, pendingOperations := pending } 0 g)
      (tryRefillBudget
        { b with currentBudget := b.currentBudget + reclaimed, pendingOperations := pending }) g :=
    tryRefillBudget_ensures hpending hsum
  refine Program.Ensures.bind (hrefill.mono ?_)
  intro b' g' hb'
  have hle := hb'.current_le
  have hpos : 0 < b'.currentBudget := by
    have : 0 < (reclaimed : ℕ) := reclaimed.pos
    have : b.currentBudget + reclaimed ≤ b'.currentBudget := hle
    omega
  rw [nonZero_pos hpos]
  exact hpost b' g' hpos hb'

/-- The wait for one of the pending operations or the active sender. -/
theorem refillBudget_ensures {b : BudgetCalculator} {sender : Option (ℕ+ × ℕ)}
    (hpending : PendingOk g b.pendingOperations) (hopen : ∀ p ∈ sender, Open g p.2)
    (hsome : b.pendingOperations ≠ [] ∨ sender.isSome)
    (hheld : b.held + flushedBytes sender true < 2 ^ 64) :
    (refillBudget b sender).Ensures (channels files) (Returns b sender g) g := by
  unfold held at hheld
  refine Program.Ensures.bind (Program.ensures_assert hsome ?_)
  refine Program.Ensures.bind (Program.ensures_perform ⟨?_, ?_⟩ ?_)
  · rcases hsome with hne | hsender
    · simp [hne]
    · obtain ⟨p, rfl⟩ := Option.isSome_iff_exists.1 hsender
      simp
  · intro ch hch
    obtain ⟨p, hp, rfl⟩ := List.mem_map.1 hch
    rcases List.mem_append.1 hp with hp | hp
    · exact hpending.open hp
    · exact hopen p (Option.mem_toList.1 hp)
  · intro (i : ℕ) g' hanswer
    obtain ⟨hi, rfl⟩ := hanswer
    rw [List.length_map, List.length_append] at hi
    by_cases hlt : i < b.pendingOperations.length
    · -- a pending operation is removed, and its sender dropped
      have hget : (b.pendingOperations ++ sender.toList)[i]? = some b.pendingOperations[i] := by
        rw [List.getElem?_append_left hlt, List.getElem?_eq_getElem hlt]
      have hperm := pendingBytes_perm (List.getElem_cons_eraseIdx_perm hlt)
      have hcons : pendingBytes (b.pendingOperations[i] :: b.pendingOperations.eraseIdx i) =
          b.pendingOperations[i].1 + pendingBytes (b.pendingOperations.eraseIdx i) := List.sum_cons
      have hmem : b.pendingOperations[i] ∈ b.pendingOperations := List.getElem_mem hlt
      have hnodup : b.pendingOperations[i].2 ∉ (b.pendingOperations.eraseIdx i).map Prod.snd := by
        have hall := ((List.getElem_cons_eraseIdx_perm hlt).map Prod.snd).nodup_iff.2 hpending.nodup
        exact (List.nodup_cons.1 hall).1
      have hdecide : decide (b.pendingOperations.length ≤ i) = false := decide_eq_false (by omega)
      simp only [hget, hlt, if_true, hdecide]
      refine Program.Ensures.bind ?_
      show Program.Ensures (channels files) _ _ g'
      refine Program.Ensures.bind (Program.ensures_perform (hpending.feed _ hmem) ?_)
      intro _ g'' hg''
      have hframe : Framed [b.pendingOperations[i].2] g' g'' := by
        rw [show g'' = _ from hg'']
        exact framed_modify _ _ fun _ => rfl
      have hrest : PendingOk g'' (b.pendingOperations.eraseIdx i) :=
        (hpending.sublist (List.eraseIdx_sublist _ _)).frame hframe fun p hp hin =>
          hnodup (List.mem_map.2 ⟨p, hp, List.mem_singleton.1 hin⟩)
      have hone : [b.pendingOperations[i].2] ⊆ b.pendingOperations.map Prod.snd :=
        List.cons_subset.2 ⟨List.mem_map_of_mem hmem, List.nil_subset _⟩
      refine refill_tail hrest (by omega) ?_
      intro b' g₃ hpos hb'
      have hheld' := hb'.held
      refine ⟨⟨hb'.total, ?_, hb'.sublist.trans (List.eraseIdx_sublist _ _), hb'.pending,
        (hframe.mono hone).trans (hb'.frame.mono ?_)⟩, rfl, fun hflushed => nomatch hflushed⟩
      · show b'.held = b.currentBudget + pendingBytes b.pendingOperations + 0
        rw [hheld']
        show b.currentBudget + b.pendingOperations[i].1 + pendingBytes
            (b.pendingOperations.eraseIdx i) + 0 = _
        omega
      · exact ((List.eraseIdx_sublist _ _).map Prod.snd).subset
    · -- the active sender is the last one of the selector
      obtain ⟨p, rfl⟩ : ∃ p, sender = some p := by
        cases sender with
        | none => exact absurd hi (by simpa using hlt)
        | some p => exact ⟨p, rfl⟩
      have hilast : i = b.pendingOperations.length := by
        have hlast : i < b.pendingOperations.length + 1 := hi
        omega
      subst hilast
      have hget : (b.pendingOperations ++ (some p).toList)[b.pendingOperations.length]? =
          some p := by
        rw [List.getElem?_append_right (Nat.le_refl _), Nat.sub_self]
        rfl
      have hdecide : decide (b.pendingOperations.length ≤ b.pendingOperations.length) = true :=
        decide_eq_true (Nat.le_refl _)
      have herase : b.pendingOperations.eraseIdx b.pendingOperations.length = b.pendingOperations :=
        List.eraseIdx_of_length_le (Nat.le_refl _)
      have hbytes : flushedBytes (some p) true = p.1 := rfl
      simp only [hget, hlt, if_false, hdecide, herase]
      refine Program.Ensures.bind ?_
      show Program.Ensures (channels files) _ _ g'
      refine refill_tail hpending (by omega) ?_
      intro b' g₃ hpos hb'
      have hheld' := hb'.held
      refine ⟨⟨hb'.total, ?_, hb'.sublist, hb'.pending, hb'.frame⟩, rfl, fun _ => rfl⟩
      show b'.held = b.currentBudget + pendingBytes b.pendingOperations + flushedBytes (some p) true
      rw [hheld', hbytes]
      show b.currentBudget + p.1 + pendingBytes b.pendingOperations + 0 = _
      omega

theorem Refilled.refl {b : BudgetCalculator} (hpending : PendingOk g b.pendingOperations) :
    Refilled b 0 g b g :=
  ⟨rfl, rfl, List.Sublist.refl _, hpending, .refl _ _⟩

theorem Refilled.trans {b b' b'' : BudgetCalculator} {extra extra' : ℕ} {g' g'' : List Feed}
    (h : Refilled b extra g b' g') (h' : Refilled b' extra' g' b'' g'') :
    Refilled b (extra + extra') g b'' g'' where
  total := h'.total.trans h.total
  held := by rw [h'.held, h.held, Nat.add_assoc]
  sublist := h'.sublist.trans h.sublist
  pending := h'.pending
  frame := h.frame.trans (h'.frame.mono (h.sublist.map Prod.snd).subset)

/-- The second half of `get_available_budget_inner`: return the current budget, or wait. -/
theorem inner_tail {b : BudgetCalculator} {sender : Option (ℕ+ × ℕ)}
    (hpending : PendingOk g b.pendingOperations) (hopen : ∀ p ∈ sender, Open g p.2)
    (hpos : 0 < b.held + flushedBytes sender true)
    (hheld : b.held + flushedBytes sender true < 2 ^ 64) {flushed : Bool} {current : ℕ}
    (hcurrent : current = b.currentBudget + flushedBytes sender flushed)
    (hactive : flushed → sender.isSome) :
    Program.Ensures (channels files) (Returns b sender g) (match nonZero current with
      | some budget => return (flushed, budget, { b with currentBudget := current })
      | none => refillBudget { b with currentBudget := current } sender) g := by
  rcases Nat.eq_zero_or_pos current with rfl | hcur
  · rw [nonZero_zero]
    have hb : { b with currentBudget := 0 } = b := by
      have hzero : b.currentBudget = 0 := by omega
      rw [← hzero]
    rw [hb]
    refine refillBudget_ensures hpending hopen ?_ hheld
    by_cases hsender : sender = none
    · left
      rintro hnil
      rw [hsender] at hpos
      unfold held at hpos
      have hbytes : pendingBytes b.pendingOperations = 0 := by rw [hnil]; rfl
      have hnone : flushedBytes none true = 0 := rfl
      omega
    · exact .inr (Option.isSome_iff_ne_none.2 hsender)
  · rw [nonZero_pos hcur]
    refine ⟨⟨rfl, ?_, List.Sublist.refl _, hpending, .refl _ _⟩, rfl, hactive⟩
    show current + pendingBytes b.pendingOperations =
      b.currentBudget + pendingBytes b.pendingOperations + flushedBytes sender flushed
    omega

/-- `get_available_budget_inner`, which every other operation goes through. -/
theorem inner_ensures {b : BudgetCalculator} {sender : Option (ℕ+ × ℕ)}
    (hpending : PendingOk g b.pendingOperations) (hopen : ∀ p ∈ sender, Open g p.2)
    (hactive : ∀ p ∈ sender, p.2 ∉ b.pendingOperations.map Prod.snd)
    (hpos : 0 < b.held + flushedBytes sender true)
    (hheld : b.held + flushedBytes sender true < 2 ^ 64) :
    (getAvailableBudgetInner b sender).Ensures (channels files) (Returns b sender g) g := by
  have hfirst : Program.Ensures (channels files) (fun b' g' => Refilled b 0 g b' g')
      (if b.pendingOperations.length > 8 ∨ b.currentBudget ≤ 1024 then tryRefillBudget b else
        pure b) g := by
    by_cases hc : b.pendingOperations.length > 8 ∨ b.currentBudget ≤ 1024
    · rw [if_pos hc]
      exact tryRefillBudget_ensures hpending (by omega)
    · rw [if_neg hc]
      exact Refilled.refl hpending
  refine Program.Ensures.bind (hfirst.mono ?_)
  intro b' g' hb'
  have hheld' := hb'.held
  have hopen' : ∀ p ∈ sender, Open g' p.2 := by
    intro p hp
    obtain ⟨f, hf, hdropped⟩ := hopen p hp
    exact ⟨f, (hb'.frame.feed _ (hactive p hp)).trans hf, hdropped⟩
  have hsecond : Program.Ensures (channels files)
      (fun r g'' => g'' = g' ∧ r.2 = b'.currentBudget + flushedBytes sender r.1 ∧
        (r.1 → sender.isSome))
      (match sender with
        | some (budget, sender) => tryRefillBudgetFrom b'.currentBudget budget sender
        | none => pure (false, b'.currentBudget)) g' := by
    cases sender with
    | none => exact ⟨rfl, rfl, fun hflushed => nomatch hflushed⟩
    | some p =>
      have hbytes : flushedBytes (some p) true = p.1 := rfl
      unfold held at hheld'
      have hsum : b'.currentBudget + p.1 < 2 ^ 64 := by
        unfold held at hheld
        omega
      refine (tryRefillBudgetFrom_ensures (hopen' p rfl) hsum).mono ?_
      rintro r g'' ⟨hg, hcurrent⟩
      exact ⟨hg, hcurrent, fun _ => rfl⟩
  refine Program.Ensures.bind (hsecond.mono ?_)
  rintro ⟨flushed, current⟩ g'' ⟨rfl, hcurrent, hflushed⟩
  refine (inner_tail hb'.pending hopen' (by omega) (by omega) hcurrent hflushed).mono ?_
  rintro r g₃ ⟨hrefilled, hbudget, hactive'⟩
  have htrans := hb'.trans hrefilled
  rw [Nat.zero_add] at htrans
  exact ⟨htrans, hbudget, hactive'⟩

/-! ## The operations of the reader's loop -/

/-- The bytes in flight. -/
def flightBytes : Option ℕ+ → ℕ
  | some n => n
  | none => 0

/-- The budget of the loop is balanced: what it holds and the chunk in flight are the
    total budget. -/
structure Balanced (b : BudgetCalculator) (inFlight : Option ℕ+) (g : List Feed) : Prop where
  total : (b.totalBudget : ℕ) < 2 ^ 64
  balance : b.currentBudget + flightBytes inFlight + pendingBytes b.pendingOperations =
    b.totalBudget
  pending : PendingOk g b.pendingOperations

/-- `get_available_budget`, between entries. -/
theorem getAvailableBudget_ensures {b : BudgetCalculator} (h : Balanced b none g) :
    (getAvailableBudget b).Ensures (channels files)
    (fun r g' => Balanced r.2 none g' ∧ (r.1 : ℕ) = r.2.currentBudget ∧
      r.2.pendingOperations.Sublist b.pendingOperations ∧
        Framed (b.pendingOperations.map Prod.snd) g g') g := by
  have hbalance := h.balance
  have htotal := h.total
  have hpos := b.totalBudget.pos
  have hnone : flushedBytes none true = 0 := rfl
  have hheld : b.held = b.totalBudget := hbalance
  have hinner : (getAvailableBudgetInner b none).Ensures (channels files) (Returns b none g) g :=
    inner_ensures h.pending (by simp) (by simp) (by omega) (by omega)
  refine Program.Ensures.bind (hinner.mono ?_)
  rintro ⟨flushed, budget, b'⟩ g' ⟨hrefilled, hbudget, hactive⟩
  have hfalse : flushed = false := Bool.eq_false_iff.2 fun hflushed => nomatch hactive hflushed
  have hheld' := hrefilled.held
  subst hfalse
  refine Program.Ensures.bind (Program.ensures_assert rfl ?_)
  refine ⟨⟨?_, ?_, hrefilled.pending⟩, hbudget, hrefilled.sublist, hrefilled.frame⟩
  · rw [hrefilled.total]
    exact htotal
  · rw [hrefilled.total, ← hheld]
    exact hheld'

/-- `consume` of the chunk that was just sent, with what was in flight before already
    returned: the chunk is in flight, unless it is flushed. -/
theorem consume_ensures {b : BudgetCalculator} (h : Balanced b none g) {n : ℕ+}
    (hn : (n : ℕ) ≤ b.currentBudget) {ch : ℕ} (hopen : Open g ch)
    (hactive : ch ∉ b.pendingOperations.map Prod.snd) :
    (consume b n ch).Ensures (channels files)
    (fun r g' => Balanced r.2.2 (if r.1 then none else some n) g' ∧
      (r.2.1 : ℕ) = r.2.2.currentBudget ∧ r.2.2.pendingOperations.Sublist b.pendingOperations ∧
      Framed (b.pendingOperations.map Prod.snd) g g') g := by
  have hbalance := h.balance
  have htotal := h.total
  have hpos := b.totalBudget.pos
  have hbytes : flushedBytes (some (n, ch)) true = n := rfl
  refine Program.Ensures.bind (strictSub_ensures hn ?_)
  have hheld : held { b with currentBudget := b.currentBudget - n } + n = b.totalBudget := by
    show b.currentBudget - n + pendingBytes b.pendingOperations + n = b.totalBudget
    have hzero : flightBytes none = 0 := rfl
    omega
  have hinner : (getAvailableBudgetInner
      { b with currentBudget := b.currentBudget - n } (some (n, ch))).Ensures
      (channels files) (Returns
        { b with currentBudget := b.currentBudget - n } (some (n, ch)) g) g := by
    refine inner_ensures h.pending ?_ ?_ (by omega) (by omega)
    · intro p hp
      cases hp
      exact hopen
    · intro p hp
      cases hp
      exact hactive
  refine hinner.mono ?_
  rintro ⟨flushed, budget, b'⟩ g' ⟨hrefilled, hbudget, -⟩
  have hheld' : b'.held = held
      { b with currentBudget := b.currentBudget - n } + flushedBytes (some (n, ch)) flushed :=
    hrefilled.held
  refine ⟨⟨?_, ?_, hrefilled.pending⟩, hbudget, hrefilled.sublist, hrefilled.frame⟩
  · rw [hrefilled.total]
    exact htotal
  · have htotal' : b'.totalBudget = b.totalBudget := hrefilled.total
    show b'.currentBudget + flightBytes (if flushed then none else
      some n) + pendingBytes b'.pendingOperations =
      b'.totalBudget
    rw [htotal', ← hheld]
    have hsum : b'.held = b'.currentBudget + pendingBytes b'.pendingOperations := rfl
    cases flushed with
    | true =>
      have hflight : flightBytes (if true then none else some n) = 0 := rfl
      omega
    | false =>
      have hflight : flightBytes (if false then none else some n) = n := rfl
      have hnot : flushedBytes (some (n, ch)) false = 0 := rfl
      omega

/-- `add_budget` of what is in flight. -/
theorem addBudget_ensures {b : BudgetCalculator} {n : ℕ+} (h : Balanced b (some n) g)
    {post : BudgetCalculator → List Feed → Prop}
    (hpost : Balanced { b with currentBudget := b.currentBudget + n } none g →
      post { b with currentBudget := b.currentBudget + n } g) :
    (addBudget b n).Ensures (channels files) post g := by
  have hbalance := h.balance
  have htotal := h.total
  have hflight : flightBytes (some n) = n := rfl
  refine Program.Ensures.bind (strictAdd_ensures (by omega) ?_)
  refine Program.Ensures.bind (Program.ensures_assert (by omega) ?_)
  refine hpost ⟨htotal, ?_, h.pending⟩
  show b.currentBudget + n + 0 + pendingBytes b.pendingOperations = b.totalBudget
  omega

/-- `enqueue` of what is in flight, with a channel that has nothing left to send. -/
theorem enqueue_ensures {b : BudgetCalculator} {n : ℕ+} (h : Balanced b (some n) g) {ch : ℕ}
    (hfeed : ∃ f, g[ch]? = some f ∧ f.dropped = false ∧ f.Complete)
    (hactive : ch ∉ b.pendingOperations.map Prod.snd) :
    (enqueue b n ch).Ensures (channels files) (fun b' g' => g' = g ∧ Balanced b' none g) g := by
  refine Program.Ensures.bind (Program.ensures_perform trivial ?_)
  intro (i : ℕ) g' hanswer
  obtain ⟨hi, rfl⟩ := hanswer
  have hperm := List.perm_insertIdx (n, ch) b.pendingOperations hi
  have hbytes := pendingBytes_perm hperm
  have hcons : pendingBytes ((n, ch) :: b.pendingOperations) =
      n + pendingBytes b.pendingOperations := List.sum_cons
  have hbalance := h.balance
  have hflight : flightBytes (some n) = n := rfl
  refine ⟨rfl, h.total, ?_, ?_, ?_⟩
  · show b.currentBudget + 0 + pendingBytes (b.pendingOperations.insertIdx i (n, ch)) =
        b.totalBudget
    omega
  · exact (hperm.map Prod.snd).nodup_iff.2 (List.nodup_cons.2 ⟨hactive, h.pending.nodup⟩)
  · intro p hp
    rcases List.mem_cons.1 (hperm.subset hp) with rfl | hp
    · exact hfeed
    · exact h.pending.feed p hp

/-- The sum over the operations, whose senders are dropped one after the other. -/
theorem sumBudget_ensures (l : List (ℕ+ × ℕ)) {budget : ℕ} {g : List Feed} (hl : PendingOk g l)
    (hsum : budget + pendingBytes l < 2 ^ 64) :
    (sumBudget budget l).Ensures (channels files) (fun r _ => r = budget + pendingBytes l) g := by
  induction l generalizing budget g with
  | nil => exact rfl
  | cons p rest ih =>
    obtain ⟨inFlight, sender⟩ := p
    have hbytes : pendingBytes ((inFlight, sender) :: rest) = inFlight + pendingBytes rest :=
      List.sum_cons
    obtain ⟨hnot, -⟩ := List.nodup_cons.1 hl.nodup
    refine Program.Ensures.bind (strictAdd_ensures (by omega) ?_)
    refine Program.Ensures.bind (Program.ensures_perform (hl.feed _ List.mem_cons_self) ?_)
    intro _ g' hg'
    have hframe : Framed [sender] g g' := by
      rw [show g' = _ from hg']
      exact framed_modify _ _ fun _ => rfl
    have hrest : PendingOk g' rest :=
      (hl.sublist (List.sublist_cons_self _ _)).frame hframe fun p hp hin =>
      hnot (List.mem_map.2 ⟨p, hp, List.mem_singleton.1 hin⟩)
    refine (ih hrest (by omega)).mono ?_
    rintro r g'' rfl
    omega

/-- `assert_budget_complete`, at the end. -/
theorem assertBudgetComplete_ensures {b : BudgetCalculator} (h : Balanced b none g) :
    (assertBudgetComplete b).Ensures (channels files) (fun _ _ => True) g := by
  have hbalance : b.currentBudget + 0 + pendingBytes b.pendingOperations = b.totalBudget :=
    h.balance
  have htotal := h.total
  refine Program.Ensures.bind ((sumBudget_ensures _ h.pending (by omega)).mono ?_)
  rintro r g' rfl
  exact Program.ensures_assert (by omega) trivial

end BudgetCalculator

end RapidArm.Tar
