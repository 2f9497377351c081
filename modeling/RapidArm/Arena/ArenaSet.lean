import Mathlib.Data.Finset.Sort
import Mathlib.Data.Fintype.Basic
import Mathlib.Order.Interval.Finset.Fin
import RapidArm.Lib.Except

/-!
# `ArenaSet`

The set of handles of `jit-compiler-core/src/arena.rs` (lines 312–407): a vector of words with
one bit for each handle. `reserve` takes a number of bits, and `insert` passes it the number of
words it needs. A handle of a later word than those the set was created with is therefore out of
bounds, except that the first word is always there.

Results:
* `insert_ok`, `insert_error`: an insertion panics exactly on a handle without room.
* `contains_remove`, `iter_eq`: the other operations are those of a finite set.
-/

namespace RapidArm.Arena

open RapidArm.Lib

/-- The panics of the set. -/
inductive SetPanic
  | indexOutOfBounds
  | handleOverflow
  deriving DecidableEq, Repr

/-- `RawHandle` (lines 22–73), by its index; the source stores the index plus one in a
    `NonZero<u32>`. -/
abbrev RawHandle := Fin (2 ^ 32 - 1)

/-- `RawHandle::new`. -/
def RawHandle.new (index : ℕ) : Except SetPanic RawHandle :=
  if h : index < 2 ^ 32 - 1 then .ok ⟨index, h⟩ else .error .handleOverflow

/-- `ArenaSet` (line 312): the words. -/
structure ArenaSet where
  words : List (BitVec 64)
  deriving DecidableEq, Repr

namespace ArenaSet

/-- `ArenaSet::reserve` (lines 331–336). -/
def reserve (s : ArenaSet) (capacity : ℕ) : ArenaSet :=
  let words := (capacity + 63) / 64
  if s.words.length < words then ⟨s.words ++ List.replicate (words - s.words.length) 0⟩ else s

/-- `ArenaSet::with_capacity`. -/
def withCapacity (capacity : ℕ) : ArenaSet := reserve ⟨[]⟩ capacity

/-- `ArenaSet::new`. -/
def new : ArenaSet := withCapacity 0

/-- `ArenaSet::index_and_mask` (lines 348–353). -/
def indexAndMask (key : ℕ) : ℕ × BitVec 64 := (key / 64, 1#64 <<< (key % 64))

/-- `ArenaSet::insert` (lines 355–363). -/
def insert (s : ArenaSet) (key : ℕ) : Except SetPanic (ArenaSet × Bool) :=
  let (index, mask) := indexAndMask key
  let s := s.reserve (index + 1)
  match s.words[index]? with
  | none => .error .indexOutOfBounds
  | some word =>
    let wasThere := word &&& mask
    .ok (⟨s.words.set index (word ||| mask)⟩, wasThere = 0)

/-- `ArenaSet::contains` (lines 365–369). -/
def contains (s : ArenaSet) (key : ℕ) : Bool :=
  let (index, mask) := indexAndMask key
  let row := s.words[index]?.getD 0
  (row &&& mask) ≠ 0

/-- `ArenaSet::remove` (lines 371–380). -/
def remove (s : ArenaSet) (key : ℕ) : ArenaSet × Bool :=
  let (index, mask) := indexAndMask key
  match s.words[index]? with
  | none => (s, false)
  | some oldRow => (⟨s.words.set index (oldRow &&& ~~~mask)⟩, (oldRow &&& mask) ≠ 0)

/-- The bits of the words, each one masked (lines 383–389). -/
def masked (s : ArenaSet) : List (BitVec 64) :=
  s.words.flatMap fun bits => (List.range 64).map fun i => bits &&& (1#64 <<< i)

/-- `ArenaSet::iter` (lines 382–394). -/
def iter (s : ArenaSet) : Except SetPanic (List RawHandle) :=
  (s.masked.zipIdx.filterMap fun (mask, i) => if mask ≠ 0 then some i else none).mapM RawHandle.new

/-- `ArenaSet::from_iter` (lines 397–406): `lower` is the lower size hint of the iterator. -/
def fromIter (lower : ℕ) (keys : List ℕ) : Except SetPanic ArenaSet :=
  keys.foldlM (fun s key => do
    let (s, _) ← s.insert key
    return s) (withCapacity lower)

/-! ## Bits -/

/-- The number of handles a set of this capacity has room for. -/
def room (capacity : ℕ) : ℕ := 64 * max 1 ((capacity + 63) / 64)

theorem and_mask_eq_zero {word : BitVec 64} {i : ℕ} (hi : i < 64) :
    word &&& (1#64 <<< i) = 0 ↔ word.getLsbD i = false := by
  rw [← BitVec.twoPow_eq, BitVec.and_twoPow]
  constructor
  · intro h
    by_contra hbit
    rw [Bool.not_eq_false] at hbit
    rw [if_pos hbit] at h
    have := congrArg (fun w => BitVec.getLsbD w i) h
    simp [hi] at this
  · intro h
    simp [h]

theorem contains_eq (s : ArenaSet) (key : ℕ) :
    s.contains key = (s.words[key / 64]?.getD 0).getLsbD (key % 64) := by
  have hlt : key % 64 < 64 := Nat.mod_lt _ (by decide)
  show decide ((s.words[key / 64]?.getD 0) &&& (1#64 <<< (key % 64)) ≠ 0) = _
  rw [Bool.eq_iff_iff, decide_eq_true_iff, ne_eq, and_mask_eq_zero hlt, Bool.not_eq_false]

theorem contains_none {s : ArenaSet} {key : ℕ} (h : s.words.length ≤ key / 64) :
    s.contains key = false := by
  rw [contains_eq, List.getElem?_eq_none h]
  simp

theorem reserve_contains (s : ArenaSet) (capacity key : ℕ) :
    (s.reserve capacity).contains key = s.contains key := by
  unfold reserve
  dsimp only
  split_ifs with h
  · rw [contains_eq, contains_eq, List.getElem?_append]
    split_ifs with hlt
    · rfl
    · rw [List.getElem?_eq_none (Nat.le_of_not_lt hlt), List.getElem?_replicate]
      split_ifs <;> simp
  · rfl

theorem reserve_length (s : ArenaSet) (capacity : ℕ) :
    (s.reserve capacity).words.length = max s.words.length ((capacity + 63) / 64) := by
  unfold reserve
  dsimp only
  split_ifs with h
  · simp only [List.length_append, List.length_replicate]
    omega
  · omega

theorem withCapacity_length (capacity : ℕ) :
    (withCapacity capacity).words.length = (capacity + 63) / 64 := by
  simp [withCapacity, reserve_length]

theorem withCapacity_contains (capacity key : ℕ) :
    (withCapacity capacity).contains key = false := by
  unfold withCapacity
  rw [reserve_contains]
  exact contains_none (Nat.zero_le _)

/-! ## Insertion and removal -/

/-- The word of a handle without room is missing even after `reserve`. -/
theorem insert_error {s : ArenaSet} {key : ℕ} (h : 64 * max 1 s.words.length ≤ key) :
    s.insert key = .error .indexOutOfBounds := by
  have hnone : (s.reserve (key / 64 + 1)).words[key / 64]? = none := by
    rw [List.getElem?_eq_none_iff, reserve_length]
    omega
  unfold insert indexAndMask
  simp only [hnone]

theorem insert_ok {s : ArenaSet} {key : ℕ} (h : key < 64 * max 1 s.words.length) :
    ∃ s', s.insert key = .ok (s', !s.contains key) ∧
      s'.words.length = max 1 s.words.length ∧
      ∀ k, s'.contains k = (decide (k = key) || s.contains k) := by
  have hlen : (s.reserve (key / 64 + 1)).words.length = max 1 s.words.length := by
    rw [reserve_length]
    omega
  have hlt : key / 64 < (s.reserve (key / 64 + 1)).words.length := by
    rw [hlen]
    omega
  have hget := List.getElem?_eq_getElem hlt
  have hmod : key % 64 < 64 := Nat.mod_lt _ (by decide)
  generalize hword : (s.reserve (key / 64 + 1)).words[key / 64] = word at hget
  refine ⟨⟨(s.reserve (key / 64 + 1)).words.set (key / 64) (word ||| 1#64 <<< (key % 64))⟩, ?_,
    ?_, ?_⟩
  · unfold insert indexAndMask
    simp only [hget]
    have hthere := contains_eq (s.reserve (key / 64 + 1)) key
    rw [reserve_contains, hget] at hthere
    rw [hthere, Option.getD_some, Except.ok.injEq, Prod.mk.injEq]
    refine ⟨rfl, ?_⟩
    rw [Bool.eq_iff_iff, decide_eq_true_iff, and_mask_eq_zero hmod, Bool.not_eq_true']
  · rw [List.length_set, hlen]
  · intro k
    rw [← reserve_contains s (key / 64 + 1) k, contains_eq, contains_eq, List.getElem?_set]
    by_cases hindex : key / 64 = k / 64
    · -- the word that changes
      rw [if_pos hindex, if_pos hlt, ← hindex, hget, Option.getD_some, Option.getD_some,
        BitVec.getLsbD_or, ← BitVec.twoPow_eq, BitVec.getLsbD_twoPow, Bool.or_comm]
      congr 1
      rw [Bool.eq_iff_iff]
      simp only [hmod, decide_true, Bool.true_and, decide_eq_true_eq]
      omega
    · rw [if_neg hindex]
      have hne : k ≠ key := by
        rintro rfl
        exact hindex rfl
      simp [hne]

theorem remove_length (s : ArenaSet) (key : ℕ) :
    (s.remove key).1.words.length = s.words.length := by
  unfold remove indexAndMask
  cases h : s.words[key / 64]? with
  | none => simp only [h]
  | some row => simp only [h, List.length_set]

theorem remove_snd (s : ArenaSet) (key : ℕ) : (s.remove key).2 = s.contains key := by
  unfold remove contains indexAndMask
  cases h : s.words[key / 64]? with
  | none => simp [h]
  | some row => simp [h]

theorem contains_remove (s : ArenaSet) (key k : ℕ) :
    (s.remove key).1.contains k = (decide (k ≠ key) && s.contains k) := by
  have hmod : key % 64 < 64 := Nat.mod_lt _ (by decide)
  cases h : s.words[key / 64]? with
  | none =>
    have hrun : (s.remove key).1 = s := by
      unfold remove indexAndMask
      simp only [h]
    rw [hrun]
    by_cases hk : k = key
    · subst hk
      rw [contains_none (List.getElem?_eq_none_iff.1 h), Bool.and_false]
    · simp [hk]
  | some row =>
    have hlt := (List.getElem?_eq_some_iff.1 h).1
    have hrun : (s.remove key).1.words =
        s.words.set (key / 64) (row &&& ~~~(1#64 <<< (key % 64))) := by
      unfold remove indexAndMask
      simp only [h]
    rw [contains_eq, contains_eq, hrun, List.getElem?_set]
    by_cases hindex : key / 64 = k / 64
    · rw [if_pos hindex, if_pos hlt, ← hindex, h, Option.getD_some, Option.getD_some,
        BitVec.getLsbD_and, BitVec.getLsbD_not, ← BitVec.twoPow_eq, BitVec.getLsbD_twoPow,
        Bool.and_comm]
      congr 1
      have hkmod : k % 64 < 64 := Nat.mod_lt _ (by decide)
      rw [Bool.eq_iff_iff]
      simp only [hmod, hkmod, decide_true, Bool.true_and, Bool.not_eq_true',
        decide_eq_false_iff_not, decide_eq_true_eq]
      omega
    · rw [if_neg hindex]
      have hne : k ≠ key := by
        rintro rfl
        exact hindex rfl
      simp [hne]

/-! ## Iteration -/

/-- The positions at which a list has an element with a property. -/
theorem filterMap_zipIdx {α : Type} (p : α → Bool) (l : List α) :
    (l.zipIdx.filterMap fun (x, i) => if p x then some i else none) =
      (List.range l.length).filter fun i => (l[i]?.map p).getD false := by
  induction l using List.reverseRecOn with
  | nil => rfl
  | append_singleton l x ih =>
    rw [List.zipIdx_append, List.filterMap_append, ih, List.length_append, List.length_singleton,
      List.range_succ, List.filter_append]
    congr 1
    · refine List.filter_congr fun i hi => ?_
      rw [List.getElem?_append_left (List.mem_range.1 hi)]
    · cases hp : p x with
      | true => simp [hp]
      | false => simp [hp]

theorem masked_length (s : ArenaSet) : s.masked.length = 64 * s.words.length := by
  simp [masked, List.length_flatMap, mul_comm]

/-- The words one after the other, bit by bit. -/
theorem masked_eq (s : ArenaSet) :
    s.masked = (List.range (64 * s.words.length)).map fun k =>
      (s.words[k / 64]?.getD 0) &&& (1#64 <<< (k % 64)) := by
  obtain ⟨words⟩ := s
  show (words.flatMap fun bits => (List.range 64).map fun i => bits &&& (1#64 <<< i)) = _
  induction words using List.reverseRecOn with
  | nil => rfl
  | append_singleton words word ih =>
    rw [List.flatMap_append, ih, List.flatMap_singleton, List.length_append, List.length_singleton,
      Nat.mul_add, List.range_add, List.map_append, List.map_map]
    congr 1
    · refine List.map_congr_left fun k hk => ?_
      have hk : k < 64 * words.length := List.mem_range.1 hk
      have hlt : k / 64 < words.length := by omega
      rw [List.getElem?_append_left hlt]
    · refine List.map_congr_left fun i hi => ?_
      have hi := List.mem_range.1 hi
      show _ = (_ &&& (1#64 <<< ((64 * words.length + i) % 64)))
      rw [show (64 * words.length + i) / 64 = words.length by omega,
        show (64 * words.length + i) % 64 = i by omega]
      simp

/-- The members of a set of handles, in ascending order. -/
theorem iter_eq {s : ArenaSet} {set : Finset RawHandle}
    (h : ∀ k, s.contains k = true ↔ ∃ handle ∈ set, handle.val = k) :
    s.iter = .ok (set.sort (· ≤ ·)) := by
  have hlist : (s.masked.zipIdx.filterMap fun (mask, i) => if mask ≠ 0 then some i else none) =
      (set.sort (· ≤ ·)).map Fin.val := by
    have hfilter := filterMap_zipIdx (fun mask : BitVec 64 => decide (mask ≠ 0)) s.masked
    simp only [decide_eq_true_eq] at hfilter
    rw [hfilter]
    -- both lists ascend strictly and have the same members
    refine List.Pairwise.eq_of_mem_iff (r := (· < ·)) ?_ ?_ fun k => ?_
    · exact List.pairwise_lt_range.filter _
    · exact List.pairwise_map.2 set.sortedLT_sort.pairwise
    · have hbits : ((s.masked[k]?.map fun mask => decide (mask ≠ 0)).getD false) =
          s.contains k := by
        rw [masked_eq, List.getElem?_map]
        by_cases hlt : k < 64 * s.words.length
        · rw [List.getElem?_eq_getElem (by simpa using hlt), List.getElem_range]
          rfl
        · rw [List.getElem?_eq_none (by simpa using hlt), contains_none (by omega)]
          rfl
      rw [List.mem_filter, hbits, List.mem_range, masked_length, List.mem_map, h]
      simp only [Finset.mem_sort]
      refine and_iff_right_of_imp fun hk => ?_
      by_contra hge
      rw [← h, contains_none (by omega)] at hk
      cases hk
  unfold iter
  rw [hlist]
  -- no bit stands for an index that is not a handle
  have hnew : ∀ handles : List RawHandle, (handles.map Fin.val).mapM RawHandle.new =
      .ok handles := by
    intro handles
    induction handles with
    | nil => rfl
    | cons handle handles ih =>
      have hone : RawHandle.new handle.val = .ok handle := by
        unfold RawHandle.new
        rw [dif_pos handle.isLt]
      rw [List.map_cons, List.mapM_cons, hone, ok_bind, ih, ok_bind]
      rfl
  exact hnew _

/-! ## Sequences of calls -/

/-- A call on the set; the first three replace it. The lower size hint of an iterator is
    whatever the iterator says. -/
inductive Call
  | new
  | withCapacity (capacity : ℕ)
  | fromIter (lower : ℕ) (keys : List RawHandle)
  | insert (key : RawHandle)
  | remove (key : RawHandle)
  | contains (key : RawHandle)
  | iter
  deriving Repr

/-- What a call returns. -/
inductive Answer
  | unit
  | bool (b : Bool)
  | keys (l : List RawHandle)
  deriving DecidableEq, Repr

namespace Call

/-- A call on an `ArenaSet`. -/
def run (s : ArenaSet) : Call → Except SetPanic (ArenaSet × Answer)
  | new => .ok (ArenaSet.new, .unit)
  | withCapacity capacity => .ok (ArenaSet.withCapacity capacity, .unit)
  | fromIter lower keys => do
    let s ← ArenaSet.fromIter lower (keys.map Fin.val)
    return (s, .unit)
  | insert key => do
    let (s, isNew) ← s.insert key
    return (s, .bool isNew)
  | remove key => .ok ((s.remove key).1, .bool (s.remove key).2)
  | contains key => .ok (s, .bool (s.contains key))
  | iter => do
    let keys ← s.iter
    return (s, .keys keys)

/-- The same call on a finite set. -/
def onFinset (set : Finset RawHandle) : Call → Finset RawHandle × Answer
  | new => (∅, .unit)
  | withCapacity _ => (∅, .unit)
  | fromIter _ keys => (keys.toFinset, .unit)
  | insert key => (Insert.insert key set, .bool (key ∉ set))
  | remove key => (set.erase key, .bool (key ∈ set))
  | contains key => (set, .bool (key ∈ set))
  | iter => (set, .keys (set.sort (· ≤ ·)))

/-- The handles a set of this room has room for, after the call. -/
def roomAfter (n : ℕ) : Call → ℕ
  | new => room 0
  | withCapacity capacity => room capacity
  | fromIter lower _ => room lower
  | _ => n

/-- The set has room for the handles that the call inserts. -/
def HasRoom (n : ℕ) : Call → Prop
  | fromIter lower keys => ∀ key ∈ keys, key.val < room lower
  | insert key => key.val < n
  | _ => True

instance (n : ℕ) (call : Call) : Decidable (HasRoom n call) := by
  cases call <;> unfold HasRoom <;> infer_instance

end Call

/-- The answers to a sequence of calls. -/
def runCalls (s : ArenaSet) : List Call → Except SetPanic (List Answer)
  | [] => .ok []
  | call :: calls => do
    let (s, answer) ← call.run s
    let answers ← runCalls s calls
    return answer :: answers

/-- The answers of a finite set. -/
def finsetAnswers (set : Finset RawHandle) : List Call → List Answer
  | [] => []
  | call :: calls => (call.onFinset set).2 :: finsetAnswers (call.onFinset set).1 calls

/-- Every handle inserted by one of the calls finds room. -/
def CallsHaveRoom (n : ℕ) : List Call → Prop
  | [] => True
  | call :: calls => call.HasRoom n ∧ CallsHaveRoom (call.roomAfter n) calls

/-- The set stands for a finite set and has room for the handles below `n`. -/
structure Represents (s : ArenaSet) (set : Finset RawHandle) (n : ℕ) : Prop where
  contains : ∀ k, s.contains k = true ↔ ∃ handle ∈ set, handle.val = k
  room : 64 * max 1 s.words.length = n

theorem Represents.contains_eq {s : ArenaSet} {set : Finset RawHandle} {n : ℕ}
    (h : s.Represents set n) (key : RawHandle) : s.contains key = decide (key ∈ set) := by
  rw [Bool.eq_iff_iff, h.contains, decide_eq_true_iff]
  constructor
  · rintro ⟨handle, hmem, heq⟩
    rwa [Fin.val_injective heq] at hmem
  · exact fun hmem => ⟨key, hmem, rfl⟩

theorem represents_withCapacity (capacity : ℕ) :
    (withCapacity capacity).Represents ∅ (ArenaSet.room capacity) where
  contains k := by simp [withCapacity_contains]
  room := by rw [withCapacity_length, ArenaSet.room]

theorem Represents.insert {s : ArenaSet} {set : Finset RawHandle} {n : ℕ}
    (h : s.Represents set n) {key : RawHandle} (hroom : key.val < n) :
    ∃ s', s.insert key = .ok (s', decide (key ∉ set)) ∧
      s'.Represents (Insert.insert key set) n := by
  obtain ⟨s', hrun, hlen, hcontains⟩ := @insert_ok s key (by rw [h.room]; exact hroom)
  refine ⟨s', ?_, ⟨fun k => ?_, ?_⟩⟩
  · rw [hrun, h.contains_eq, decide_not]
  · rw [hcontains, Bool.or_eq_true, decide_eq_true_iff, h.contains]
    constructor
    · rintro (rfl | ⟨handle, hmem, rfl⟩)
      · exact ⟨key, Finset.mem_insert_self _ _, rfl⟩
      · exact ⟨handle, Finset.mem_insert_of_mem hmem, rfl⟩
    · rintro ⟨handle, hmem, rfl⟩
      rcases Finset.mem_insert.1 hmem with rfl | hmem
      · exact .inl rfl
      · exact .inr ⟨handle, hmem, rfl⟩
  · rw [← h.room, hlen]
    omega

theorem Represents.insert_panics {s : ArenaSet} {set : Finset RawHandle} {n : ℕ}
    (h : s.Represents set n) {key : RawHandle} (hroom : ¬ key.val < n) :
    s.insert key = .error .indexOutOfBounds :=
  insert_error (by rw [h.room]; exact Nat.le_of_not_lt hroom)

theorem Represents.remove {s : ArenaSet} {set : Finset RawHandle} {n : ℕ}
    (h : s.Represents set n) (key : RawHandle) : (s.remove key).1.Represents (set.erase key) n where
  contains k := by
    rw [contains_remove, Bool.and_eq_true, decide_eq_true_iff, h.contains]
    constructor
    · rintro ⟨hne, handle, hmem, rfl⟩
      exact ⟨handle, Finset.mem_erase.2 ⟨fun heq => hne (congrArg Fin.val heq), hmem⟩, rfl⟩
    · rintro ⟨handle, hmem, rfl⟩
      obtain ⟨hne, hmem⟩ := Finset.mem_erase.1 hmem
      exact ⟨fun heq => hne (Fin.val_injective heq), handle, hmem, rfl⟩
  room := by rw [remove_length, h.room]

/-- Insertions one after the other, as far as there is room. -/
theorem Represents.insertAll {s : ArenaSet} {set : Finset RawHandle} {n : ℕ}
    (h : s.Represents set n) (keys : List RawHandle) :
    (∀ key ∈ keys, key.val < n) ∧
        (∃ s', (keys.map Fin.val).foldlM (fun s key => do
            let (s, _) ← s.insert key
            return s) s = .ok s' ∧ s'.Represents (set ∪ keys.toFinset) n) ∨
      (¬ ∀ key ∈ keys, key.val < n) ∧
        (keys.map Fin.val).foldlM (fun s key => do
            let (s, _) ← s.insert key
            return s) s = .error SetPanic.indexOutOfBounds := by
  induction keys generalizing s set with
  | nil => exact .inl ⟨by simp, s, rfl, by simpa using h⟩
  | cons key keys ih =>
    rw [List.map_cons, List.foldlM_cons, List.forall_mem_cons]
    by_cases hroom : key.val < n
    · obtain ⟨s₁, hrun, h₁⟩ := h.insert hroom
      rw [hrun, ok_bind]
      have hset : Insert.insert key set ∪ keys.toFinset = set ∪ (key :: keys).toFinset := by
        rw [List.toFinset_cons, Finset.union_insert, Finset.insert_union]
      rcases ih h₁ with ⟨hall, s', hrest, h'⟩ | ⟨hnot, hrest⟩
      · exact .inl ⟨⟨hroom, hall⟩, s', hrest, hset ▸ h'⟩
      · exact .inr ⟨fun hall => hnot hall.2, hrest⟩
    · rw [h.insert_panics hroom]
      exact .inr ⟨fun hall => hroom hall.1, rfl⟩

/-- One call: with room it answers like a finite set, and without it panics. -/
theorem Represents.run {s : ArenaSet} {set : Finset RawHandle} {n : ℕ} (h : s.Represents set n)
    (call : Call) :
    (call.HasRoom n → ∃ s', call.run s = .ok (s', (call.onFinset set).2) ∧
        s'.Represents (call.onFinset set).1 (call.roomAfter n)) ∧
      (¬ call.HasRoom n → call.run s = .error .indexOutOfBounds) := by
  cases call with
  | new => exact ⟨fun _ => ⟨_, rfl, represents_withCapacity 0⟩, fun hno => (hno trivial).elim⟩
  | withCapacity capacity =>
    exact ⟨fun _ => ⟨_, rfl, represents_withCapacity capacity⟩, fun hno => (hno trivial).elim⟩
  | fromIter lower keys =>
    have hall := (represents_withCapacity lower).insertAll keys
    rw [Finset.empty_union] at hall
    constructor
    · intro hroom
      rcases hall with ⟨-, s', hrun, h'⟩ | ⟨hnot, -⟩
      · exact ⟨s', bind_eq_ok.2 ⟨s', hrun, rfl⟩, h'⟩
      · exact (hnot hroom).elim
    · intro hno
      rcases hall with ⟨hroom, -⟩ | ⟨-, hrun⟩
      · exact (hno hroom).elim
      · show (ArenaSet.fromIter lower (keys.map Fin.val) >>= fun s => pure (s, Answer.unit)) = _
        rw [show ArenaSet.fromIter lower (keys.map Fin.val) = .error .indexOutOfBounds from hrun]
        rfl
  | insert key =>
    constructor
    · intro hroom
      obtain ⟨s', hrun, h'⟩ := h.insert hroom
      exact ⟨s', bind_eq_ok.2 ⟨_, hrun, rfl⟩, h'⟩
    · intro hno
      show (s.insert key >>= fun p => pure (p.1, Answer.bool p.2)) = _
      rw [h.insert_panics hno]
      rfl
  | remove key =>
    refine ⟨fun _ => ⟨_, ?_, h.remove key⟩, fun hno => (hno trivial).elim⟩
    show Except.ok ((s.remove key).1, Answer.bool (s.remove key).2) = _
    rw [remove_snd, h.contains_eq]
    rfl
  | contains key =>
    refine ⟨fun _ => ⟨s, ?_, h⟩, fun hno => (hno trivial).elim⟩
    show Except.ok (s, Answer.bool (s.contains key)) = _
    rw [h.contains_eq]
    rfl
  | iter =>
    exact ⟨fun _ => ⟨s, bind_eq_ok.2 ⟨_, iter_eq h.contains, rfl⟩, h⟩,
      fun hno => (hno trivial).elim⟩

/-- A sequence of calls: the answers are those of a finite set exactly if every insertion finds
    room; otherwise the first one that does not panics. -/
theorem Represents.runCalls {s : ArenaSet} {set : Finset RawHandle} {n : ℕ} (h : s.Represents set n)
    (calls : List Call) :
    (CallsHaveRoom n calls → runCalls s calls = .ok (finsetAnswers set calls)) ∧
      (¬ CallsHaveRoom n calls → runCalls s calls = .error .indexOutOfBounds) := by
  induction calls generalizing s set n with
  | nil => exact ⟨fun _ => rfl, fun hno => (hno trivial).elim⟩
  | cons call calls ih =>
    obtain ⟨hok, hpanic⟩ := h.run call
    by_cases hroom : call.HasRoom n
    · obtain ⟨s', hrun, h'⟩ := hok hroom
      obtain ⟨hrest, hrestPanic⟩ := ih h'
      constructor
      · intro hall
        unfold ArenaSet.runCalls
        rw [hrun, ok_bind]
        dsimp only
        rw [hrest hall.2]
        rfl
      · intro hno
        unfold ArenaSet.runCalls
        rw [hrun, ok_bind]
        dsimp only
        rw [hrestPanic fun hall => hno ⟨hroom, hall⟩]
        rfl
    · refine ⟨fun hall => (hroom hall.1).elim, fun _ => ?_⟩
      unfold ArenaSet.runCalls
      rw [hpanic hroom]
      rfl

end ArenaSet

end RapidArm.Arena
