import Mathlib.Data.List.Basic
import Mathlib.Tactic.Ring

/-!
# Ranges cut at block boundaries

The positions `a`, `a + 1`, … of a range, cut at the multiples of a block size: one
piece for each block that the range meets, in ascending order.
-/

namespace RapidArm.Lib

/-- The first position of the range from `a` on in block `p`. -/
def blockStart (size a p : ℕ) : ℕ := max a (p * size)

/-- The end of the range of `len` positions from `a` on in block `p`. -/
def blockEnd (size a len p : ℕ) : ℕ := min (a + len) ((p + 1) * size)

/-- How many blocks a non-empty range meets. -/
def blockCount (size a len : ℕ) : ℕ := (a + len - 1) / size - a / size + 1

variable {size : ℕ}

/-- The range that is left after the first block starts at the next multiple. -/
theorem blockCount_next (hsize : 0 < size) {a len : ℕ} (hlong : (a / size + 1) * size < a + len) :
    blockCount size a len =
      blockCount size ((a / size + 1) * size) (a + len - (a / size + 1) * size) + 1 := by
  unfold blockCount
  rw [Nat.add_sub_of_le (le_of_lt hlong), Nat.mul_div_cancel _ hsize]
  have hle : a / size + 1 ≤ (a + len - 1) / size := (Nat.le_div_iff_mul_le hsize).2 (by omega)
  omega

theorem blockCount_one (hsize : 0 < size) {a len : ℕ} (hlen : 0 < len)
    (hshort : a + len ≤ (a / size + 1) * size) : blockCount size a len = 1 := by
  unfold blockCount
  have hle : (a + len - 1) / size ≤ a / size := by
    rw [← Nat.lt_succ_iff, Nat.div_lt_iff_lt_mul hsize]
    exact lt_of_lt_of_le (by omega) hshort
  have hge : a / size ≤ (a + len - 1) / size := Nat.div_le_div_right (by omega)
  omega

/-- A non-empty range is the concatenation of its pieces. -/
theorem range'_eq_flatMap_blocks (hsize : 0 < size) {a len : ℕ} (hlen : 0 < len) :
    List.range' a len = (List.range' (a / size) (blockCount size a len)).flatMap fun p =>
      List.range' (blockStart size a p) (blockEnd size a len p - blockStart size a p) := by
  induction hn : blockCount size a len generalizing a len with
  | zero => simp [blockCount] at hn
  | succ n ih =>
    have hfirst : a < (a / size + 1) * size := by
      rw [mul_comm]
      exact Nat.lt_mul_div_succ a hsize
    have hstart : blockStart size a (a / size) = a :=
      max_eq_left (Nat.div_mul_le_self a size)
    rw [List.range'_succ, List.flatMap_cons, hstart]
    by_cases hlong : (a / size + 1) * size < a + len
    · -- the first block is full, and the rest is a range of its own
      have hend : blockEnd size a len (a / size) = (a / size + 1) * size :=
        min_eq_right (le_of_lt hlong)
      have hrest := @ih ((a / size + 1) * size) (a + len - (a / size + 1) * size)
        (by omega) (by rw [blockCount_next hsize hlong] at hn; omega)
      rw [Nat.mul_div_cancel _ hsize] at hrest
      have hpieces : ∀ p ∈ List.range' (a / size + 1) n,
          List.range' (blockStart size a p) (blockEnd size a len p - blockStart size a p) =
            List.range' (blockStart size ((a / size + 1) * size) p)
              (blockEnd size ((a / size + 1) * size) (a + len - (a / size + 1) * size) p -
                blockStart size ((a / size + 1) * size) p) := by
        intro p hp
        have hle : (a / size + 1) * size ≤ p * size :=
          Nat.mul_le_mul_right size (List.mem_range'_1.1 hp).1
        have hs : blockStart size a p = blockStart size ((a / size + 1) * size) p := by
          unfold blockStart
          omega
        have he : blockEnd size a len p =
            blockEnd size ((a / size + 1) * size) (a + len - (a / size + 1) * size) p := by
          unfold blockEnd
          omega
        rw [hs, he]
      rw [hend, List.flatMap_congr hpieces, ← hrest]
      generalize (a / size + 1) * size = b at hfirst hlong
      have happend : List.range' a (b - a) ++ List.range' (a + (b - a)) (a + len - b) =
          List.range' a (b - a + (a + len - b)) := List.range'_append_1
      rw [Nat.add_sub_of_le (le_of_lt hfirst)] at happend
      rw [happend]
      congr 1
      omega
    · have hend : blockEnd size a len (a / size) = a + len := min_eq_left (Nat.le_of_not_lt hlong)
      have hone := blockCount_one hsize hlen (Nat.le_of_not_lt hlong)
      obtain rfl : n = 0 := by omega
      rw [hend, Nat.add_sub_cancel_left]
      simp

/-- The same for a function of the positions. -/
theorem map_range_eq_flatMap_blocks {β : Type*} (hsize : 0 < size) {a len : ℕ} (hlen : 0 < len)
    (f : ℕ → β) :
    (List.range len).map (fun i => f (a + i)) =
      (List.range' (a / size) (blockCount size a len)).flatMap fun p =>
        (List.range (blockEnd size a len p - blockStart size a p)).map fun j =>
          f (blockStart size a p + j) := by
  have hrange := congrArg (List.map f) (range'_eq_flatMap_blocks hsize (a := a) hlen)
  rw [List.range'_eq_map_range, List.map_map, List.map_flatMap] at hrange
  refine Eq.trans hrange (List.flatMap_congr fun p _ => ?_)
  rw [List.range'_eq_map_range, List.map_map]
  rfl

/-- The blocks of a range are those of its positions. -/
theorem mem_blocks_iff (hsize : 0 < size) {a len : ℕ} (hlen : 0 < len) {p : ℕ} :
    p ∈ List.range' (a / size) (blockCount size a len) ↔ ∃ i < len, (a + i) / size = p := by
  rw [List.mem_range'_1]
  unfold blockCount
  have hle : a / size ≤ (a + len - 1) / size := Nat.div_le_div_right (by omega)
  constructor
  · rintro ⟨hge, hlt⟩
    -- the first position of the block, or of the range
    have hp : p ≤ (a + len - 1) / size := by omega
    have hmul : p * size ≤ a + len - 1 := (Nat.le_div_iff_mul_le hsize).1 hp
    rcases Nat.lt_or_ge a (p * size) with hlow | hhigh
    · refine ⟨p * size - a, by omega, ?_⟩
      rw [Nat.add_sub_of_le (le_of_lt hlow), Nat.mul_div_cancel _ hsize]
    · refine ⟨0, hlen, ?_⟩
      have hdiv : p ≤ a / size := (Nat.le_div_iff_mul_le hsize).2 hhigh
      rw [Nat.add_zero]
      omega
  · rintro ⟨i, hi, rfl⟩
    have hlow : a / size ≤ (a + i) / size := Nat.div_le_div_right (by omega)
    have hhigh : (a + i) / size ≤ (a + len - 1) / size := Nat.div_le_div_right (by omega)
    omega

end RapidArm.Lib
