import Mathlib

/-!
# Invariant rules for counting loops

`for j in 0..n { body }` over a state is `(List.range n).foldl body s`, and
`for j in (0..n).rev()` is the same fold over the reversed range.  An
invariant indexed by the loop counter that holds before the loop and that
every round keeps holds after it: counting up from `0` to `n`, or down from
`n` to `0`.
-/

namespace ForLoop

variable {σ : Type}

theorem range_invariant {n : Nat} (body : σ → Nat → σ) (P : Nat → σ → Prop) {s : σ} (h0 : P 0 s)
    (hstep : ∀ j s, j < n → P j s → P (j + 1) (body s j)) : P n ((List.range n).foldl body s) := by
  induction n with
  | zero => simpa using h0
  | succ n ih =>
    rw [List.range_succ, List.foldl_append, List.foldl_cons, List.foldl_nil]
    exact hstep n _ (Nat.lt_succ_self n) (ih fun j s hj => hstep j s (Nat.lt_succ_of_lt hj))

theorem range_reverse_invariant {n : Nat} (body : σ → Nat → σ) (P : Nat → σ → Prop) {s : σ} (hn : P n s)
    (hstep : ∀ j s, j < n → P (j + 1) s → P j (body s j)) : P 0 ((List.range n).reverse.foldl body s) := by
  induction n generalizing s with
  | zero => simpa using hn
  | succ n ih =>
    rw [List.range_succ, List.reverse_append, List.reverse_singleton, List.singleton_append, List.foldl_cons]
    exact ih (hstep n s (Nat.lt_succ_self n) hn) fun j s hj => hstep j s (Nat.lt_succ_of_lt hj)

end ForLoop
