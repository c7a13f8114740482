import Mathlib

/-!
# The value of a list of digits

A number written in base `b` as a list of digits, least significant first, has
the value `Nat.ofDigits b`.  Long arithmetic on such lists needs, beyond
Mathlib: the value after one digit is overwritten (`ofDigits_set`), the value of
the first `j` digits and the digits from `d` on, digit by digit
(`ofDigits_take_succ`, `ofDigits_drop`), and the list written most significant
digit first, as the limbs of a big integer are stored (`set_reverse`).
-/

namespace Digits

variable {b : Nat}

/-- Overwriting digit `i` trades its weight for the new digit's. -/
theorem ofDigits_set {l : List Nat} {i : Nat} (hi : i < l.length) (d : Nat) :
    Nat.ofDigits b (l.set i d) + l.getD i 0 * b ^ i = Nat.ofDigits b l + d * b ^ i := by
  have hsplit : l = l.take i ++ l[i] :: l.drop (i + 1) := by
    rw [← List.drop_eq_getElem_cons hi, List.take_append_drop]
  have htake : (l.take i).length = i := List.length_take_of_le (Nat.le_of_lt hi)
  rw [List.set_eq_take_append_cons_drop, if_pos hi, List.getD_eq_getElem?_getD, List.getElem?_eq_getElem hi,
    Option.getD_some]
  conv_rhs => rw [hsplit]
  simp only [Nat.ofDigits_append, Nat.ofDigits_cons, htake]
  ring

/-- One more digit adds its weight; past the end it adds nothing. -/
theorem ofDigits_take_succ (l : List Nat) (j : Nat) :
    Nat.ofDigits b (l.take (j + 1)) = Nat.ofDigits b (l.take j) + l.getD j 0 * b ^ j := by
  rw [List.take_add_one]
  cases h : l[j]? with
  | none =>
    rw [List.getD_eq_getElem?_getD, h]
    simp
  | some d =>
    have hj : j < l.length := (List.getElem?_eq_some_iff.mp h).1
    rw [List.getD_eq_getElem?_getD, h, Nat.ofDigits_append, List.length_take_of_le (Nat.le_of_lt hj)]
    simp [Nat.mul_comm]

/-- The digits from `d` on: digit `d`, then the digits from `d + 1` on. -/
theorem ofDigits_drop (l : List Nat) (d : Nat) :
    Nat.ofDigits b (l.drop d) = l.getD d 0 + b * Nat.ofDigits b (l.drop (d + 1)) := by
  rw [List.getD_eq_getElem?_getD]
  cases h : l[d]? with
  | none =>
    have hd : l.length ≤ d := List.getElem?_eq_none_iff.mp h
    simp [List.drop_eq_nil_of_le hd, List.drop_eq_nil_of_le (Nat.le_succ_of_le hd)]
  | some x =>
    have hd : d < l.length := (List.getElem?_eq_some_iff.mp h).1
    rw [List.drop_eq_getElem_cons hd, Nat.ofDigits_cons, (List.getElem?_eq_some_iff.mp h).2]
    rfl

theorem ofDigits_map_range' (N : Nat) (m : Nat) :
    ∀ j, Nat.ofDigits b ((List.range' j m).map fun d => N / b ^ d % b) = N / b ^ j % b ^ m := by
  induction m with
  | zero => simp [Nat.mod_one]
  | succ m ih =>
    intro j
    rw [List.range'_succ, List.map_cons, Nat.ofDigits_cons, ih (j + 1), pow_succ' b m, Nat.mod_mul,
      pow_succ, ← Nat.div_div_eq_div_mul]

/-! ### Digits stored most significant first -/

theorem ofDigits_reverse_replicate_append (k : Nat) (l : List Nat) :
    Nat.ofDigits b (List.replicate k 0 ++ l).reverse = Nat.ofDigits b l.reverse := by
  rw [List.reverse_append, List.reverse_replicate, Nat.ofDigits_append_replicate_zero]

theorem pow_le_ofDigits_reverse_cons {a : Nat} (ha : a ≠ 0) (l : List Nat) :
    b ^ l.length ≤ Nat.ofDigits b (a :: l).reverse := by
  rw [Nat.ofDigits_reverse_cons]
  exact le_add_left (Nat.le_mul_of_pos_right _ (Nat.pos_of_ne_zero ha))

theorem ofDigits_lt_of_digit_lt (hb : 1 < b) {a c : Nat} (hac : a < c) {l r : List Nat}
    (hl : ∀ d ∈ l, d < b) (hlen : l.length = r.length) :
    Nat.ofDigits b l.reverse + b ^ l.length * a < Nat.ofDigits b r.reverse + b ^ r.length * c := by
  have hL : Nat.ofDigits b l.reverse < b ^ l.length := by
    simpa using Nat.ofDigits_lt_base_pow_length hb (l := l.reverse) (by simpa using hl)
  have hstep : b ^ l.length * a + b ^ l.length ≤ b ^ l.length * c := by
    rw [← Nat.mul_succ]
    exact Nat.mul_le_mul_left _ hac
  rw [← hlen]
  omega

theorem compare_add_right (x y t : Nat) : compare (x + t) (y + t) = compare x y := by
  rcases lt_trichotomy x y with h | rfl | h
  · rw [compare_lt_iff_lt.mpr h, compare_lt_iff_lt.mpr (by omega)]
  · rw [compare_eq_iff_eq.mpr rfl, compare_eq_iff_eq.mpr rfl]
  · rw [compare_gt_iff_gt.mpr h, compare_gt_iff_gt.mpr (by omega)]

theorem compare_eq_compare_ofDigits (hb : 1 < b) :
    ∀ {l r : List Nat}, (∀ d ∈ l, d < b) → (∀ d ∈ r, d < b) → l.length = r.length →
      compare l r = compare (Nat.ofDigits b l.reverse) (Nat.ofDigits b r.reverse)
  | [], [], _, _, _ => by simp
  | [], _ :: _, _, _, hlen => absurd hlen (by simp)
  | _ :: _, [], _, _, hlen => absurd hlen (by simp)
  | a :: l, c :: r, hl, hr, hlen => by
    have hl' : ∀ d ∈ l, d < b := fun d hd => hl d (List.mem_cons_of_mem _ hd)
    have hr' : ∀ d ∈ r, d < b := fun d hd => hr d (List.mem_cons_of_mem _ hd)
    have hlen' : l.length = r.length := by simpa using hlen
    rw [List.compare_cons_cons, compare_eq_compare_ofDigits hb hl' hr' hlen', Nat.ofDigits_reverse_cons,
      Nat.ofDigits_reverse_cons]
    -- the leading digits decide, unless they are equal
    rcases lt_trichotomy a c with hac | rfl | hac
    · rw [compare_lt_iff_lt.mpr hac,
        compare_lt_iff_lt.mpr (ofDigits_lt_of_digit_lt hb hac hl' hlen')]
      rfl
    · rw [compare_eq_iff_eq.mpr rfl, hlen', compare_add_right]
      rfl
    · rw [compare_gt_iff_gt.mpr hac,
        compare_gt_iff_gt.mpr (ofDigits_lt_of_digit_lt hb hac hr' hlen'.symm)]
      rfl

/-- Overwriting the digit `i` places from the end of a list is overwriting
digit `i` of the reversed list. -/
theorem set_reverse {α : Type} {l : List α} {i : Nat} (hi : i < l.length) (a : α) :
    (l.set (l.length - 1 - i) a).reverse = l.reverse.set i a := by
  apply List.ext_getElem
  · simp
  · intro k hk _
    simp only [List.length_reverse, List.length_set] at hk
    rw [List.getElem_reverse, List.getElem_set, List.getElem_set, List.getElem_reverse]
    simp only [List.length_set]
    split_ifs with h1 h2 h2
    · rfl
    · omega
    · omega
    · rfl

end Digits
