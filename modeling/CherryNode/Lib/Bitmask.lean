import Mathlib

/-!
# A `u64` as a set of indices below 64

A bitmask `x : UInt64` holds the index `i < 64` when bit `i` is set
(`x.toBitVec.getLsbD i`).  Setting the bit of `j` adds `j` (`getLsbD_or_bit`),
clearing it removes `j` (`getLsbD_and_not_bit`), and `trailingOnes`, Rust's
`u64::trailing_ones`, is the least index not held (`trailingOnes_not_mem`).
A mask holding only the indices of a list has its least free index at most the
list's length (`trailingOnes_le_length`).
-/

namespace Bitmask

/-- `1 << j`. -/
def bit (j : Nat) : UInt64 := 1 <<< j.toUInt64

variable {i j : Nat}

theorem getLsbD_or_bit (x : UInt64) (hi : i < 64) (hj : j < 64) :
    (x ||| bit j).toBitVec.getLsbD i = (x.toBitVec.getLsbD i || decide (i = j)) := by
  simp only [bit, UInt64.toBitVec_or, UInt64.toBitVec_shiftLeft, BitVec.getLsbD_or]
  simp [Nat.mod_eq_of_lt hj, hi]
  by_cases h : i = j
  · simp [h]
  · simp [h]
    omega

theorem getLsbD_and_not_bit (x : UInt64) (hi : i < 64) (hj : j < 64) :
    (x &&& ~~~bit j).toBitVec.getLsbD i = (x.toBitVec.getLsbD i && !decide (i = j)) := by
  simp [bit, UInt64.toBitVec_and, UInt64.toBitVec_not, UInt64.toBitVec_shiftLeft, hi, Nat.mod_eq_of_lt hj]
  by_cases h : i = j
  · simp [h]
  · simp [h]
    omega

/-- The number of set bits from bit `i` up, before the first clear one,
counting at most `n` of them. -/
def trailingOnesFrom (x : UInt64) : Nat → Nat → Nat
  | 0, i => i
  | n + 1, i => if x.toBitVec.getLsbD i = true then trailingOnesFrom x n (i + 1) else i

/-- `u64::trailing_ones`. -/
def trailingOnes (x : UInt64) : Nat := trailingOnesFrom x 64 0

theorem trailingOnesFrom_spec (x : UInt64) (n i : Nat) :
    i ≤ trailingOnesFrom x n i ∧ trailingOnesFrom x n i ≤ i + n ∧
      (∀ j, i ≤ j → j < trailingOnesFrom x n i → x.toBitVec.getLsbD j = true) ∧
      (trailingOnesFrom x n i < i + n → x.toBitVec.getLsbD (trailingOnesFrom x n i) = false) := by
  induction n generalizing i with
  | zero => exact ⟨Nat.le_refl i, by simp [trailingOnesFrom], fun j hij hj => absurd hj (by simp [trailingOnesFrom]; omega),
      fun h => absurd h (by simp [trailingOnesFrom])⟩
  | succ n ih =>
    by_cases hbit : x.toBitVec.getLsbD i = true
    · -- bit `i` is set: the count goes on from `i + 1`
      obtain ⟨hle, hbound, hset, hclear⟩ := ih (i + 1)
      simp only [trailingOnesFrom, hbit, if_true]
      refine ⟨by omega, by omega, fun j hij hj => ?_, fun h => hclear (by omega)⟩
      rcases Nat.eq_or_lt_of_le hij with rfl | hij
      · exact hbit
      · exact hset j hij hj
    · rw [trailingOnesFrom, if_neg hbit]
      exact ⟨Nat.le_refl i, by omega, fun j hij hj => absurd hj (by omega), fun _ => by simpa using hbit⟩

theorem getLsbD_of_lt_trailingOnes (x : UInt64) {j : Nat} (hj : j < trailingOnes x) :
    x.toBitVec.getLsbD j = true :=
  (trailingOnesFrom_spec x 64 0).2.2.1 j (Nat.zero_le j) hj

theorem trailingOnes_not_mem (x : UInt64) (h : trailingOnes x < 64) :
    x.toBitVec.getLsbD (trailingOnes x) = false :=
  (trailingOnesFrom_spec x 64 0).2.2.2 h

theorem trailingOnes_le (x : UInt64) : trailingOnes x ≤ 64 :=
  (trailingOnesFrom_spec x 64 0).2.1

/-- A mask holding only indices of a list: its least free index is at most the
list's length. -/
theorem trailingOnes_le_length (x : UInt64) {l : List Nat}
    (hmem : ∀ i < 64, x.toBitVec.getLsbD i = true → i ∈ l) : trailingOnes x ≤ l.length := by
  -- the indices below `trailingOnes x` are distinct members of `l`
  have hsub : List.range (trailingOnes x) ⊆ l := fun j hj => by
    have hj := List.mem_range.mp hj
    exact hmem j (by have := trailingOnes_le x; omega) (getLsbD_of_lt_trailingOnes x hj)
  have := (List.nodup_range).length_le_of_subset hsub
  simpa using this

end Bitmask
