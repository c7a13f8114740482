import Mathlib
import CherryNode.ForkTree.Basic

/-!
# What a failed call leaves of the fork tree

`import` searches before it writes, so an error leaves the tree
(`import_error_eq`, `import_atomic`).  `finalize` and `finalize_with_descendent_if` take the
roots with `mem::take` and push them back in a loop whose
`is_descendent_of(..)?` may fail: the error keeps only the roots pushed before
it (`retainRoots_error`), so an error of `finalize` leaves the tree or has lost
a root (`finalize_error`).  `prune` fails alike over the new root's children,
and `finalize_with_ancestors` opens ancestor roots in place before asking about
the next root.
-/

set_option linter.dupNamespace false

namespace ForkTree

open EStateRun

variable {H N V E : Type} [DecidableEq H] [LinearOrder N]

namespace ForkTree

omit [LinearOrder N] in
theorem finalizeRoot_apply {ε : Type} (hash : H) (tree : ForkTree H N V) :
    (finalizeRoot hash : EStateM ε (ForkTree H N V) (Option V)) tree =
      match tree.roots.find? (·.hash = hash) with
      | some node => .ok (some node.data) ⟨node.children, some node.number⟩
      | none => .ok none tree := by
  simp only [finalizeRoot, finalizeRootAt, bind_apply, get_apply]
  cases tree.roots.find? (·.hash = hash) <;> rfl

variable {hash : H} {tree t' : ForkTree H N V} {number : N} {e : Error E}

/-- `import` changes nothing before its search has succeeded. -/
theorem import_error_eq {data : V} {isDescendentOf : H → H → Except E Bool}
    (h : ForkTree.«import» hash number data isDescendentOf tree = .error e t') : t' = tree := by
  simp only [ForkTree.«import», bind_apply, get_apply] at h
  split at h
  · -- `Error::Revert`
    simp only [bind_apply, throw_apply] at h
    cases h
    rfl
  · -- the search failed; had it succeeded, the tree would be written and no error returned
    cases hr : importRoots hash number data isDescendentOf tree.roots with
    | error e' =>
      simp only [hr, throw_apply] at h
      cases h
      rfl
    | ok r => cases r <;> simp [hr] at h

omit [DecidableEq H] [LinearOrder N] in
/-- The rebuild loop over taken roots keeps, on an error, the roots it pushed
before: a sublist of those it was given, without at least the one it failed on. -/
theorem retainRoots_error (retains : Node H N V → Except (Error E) Bool) :
    ∀ (roots : List (Node H N V)) (changed : Bool) (tree t' : ForkTree H N V) (e : Error E),
      retainRoots retains roots changed tree = .error e t' →
        ∃ kept, t' = { tree with roots := tree.roots ++ kept } ∧ kept.Sublist roots ∧
          kept.length < roots.length
  | [], _, _, _, _, h => by simp [retainRoots] at h
  | root :: roots, changed, tree, t', e, h => by
    simp only [retainRoots, bind_apply] at h
    cases hr : retains root with
    | error e' =>
      -- the root it failed on is lost with the rest
      simp only [hr, ofExcept_error] at h
      cases h
      exact ⟨[], by simp, List.nil_sublist _, by simp⟩
    | ok stays =>
      cases stays with
      | false =>
        simp only [hr, ofExcept_ok, Bool.false_eq_true, if_false] at h
        obtain ⟨kept, rfl, hsub, hlen⟩ := retainRoots_error retains roots true tree t' e h
        exact ⟨kept, rfl, hsub.cons root, by simp only [List.length_cons]; omega⟩
      | true =>
        simp only [hr, ofExcept_ok, if_true, bind_apply, modify_apply] at h
        obtain ⟨kept, rfl, hsub, hlen⟩ := retainRoots_error retains roots changed _ t' e h
        exact ⟨root :: kept, by simp, hsub.cons_cons root, by simp only [List.length_cons]; omega⟩

/-- An error of `finalize` leaves the tree as it was, or comes from the rebuild
loop and has lost at least one root. -/
theorem finalize_error {isDescendentOf : H → H → Except E Bool}
    (h : finalize hash number isDescendentOf tree = .error e t') :
    t' = tree ∨
      (t'.roots.Sublist tree.roots ∧ t'.roots.length < tree.roots.length ∧
        t'.bestFinalizedNumber = tree.bestFinalizedNumber) := by
  simp only [finalize, bind_apply, get_apply] at h
  split at h
  · -- `Error::Revert`
    simp only [bind_apply, throw_apply] at h
    cases h
    exact .inl rfl
  · simp only [bind_apply] at h
    rw [finalizeRoot_apply] at h
    cases hfind : tree.roots.find? (·.hash = hash) with
    | some node => simp [hfind] at h
    | none =>
      simp only [hfind, get_apply, bind_apply, set_apply] at h
      cases hcheck : checkUnfinalized (· < number) hash isDescendentOf tree.roots with
      | error e' =>
        -- the check runs before the roots are taken
        simp only [hcheck, ofExcept_error] at h
        cases h
        exact .inl rfl
      | ok u =>
        simp only [hcheck, ofExcept_ok] at h
        cases hloop : retainRoots (finalizeRetains hash number isDescendentOf) tree.roots false
            { tree with roots := [] } with
        | ok changed t'' => simp [hloop] at h
        | error e' t'' =>
          simp only [hloop] at h
          cases h
          obtain ⟨kept, rfl, hsub, hlen⟩ := retainRoots_error _ _ _ _ _ _ hloop
          exact .inr ⟨by simpa using hsub, by simpa using hlen, rfl⟩

/-- Whatever the tree and the lookup, `import` returns `Ok`, or an error with
the tree, roots and best finalized number, exactly as it was. -/
theorem import_atomic (hash : H) (number : N) (data : V) (isDescendentOf : H → H → Except E Bool)
    (tree : ForkTree H N V) :
    (∃ inserted t', ForkTree.«import» hash number data isDescendentOf tree = .ok inserted t') ∨
      ∃ e, ForkTree.«import» hash number data isDescendentOf tree = .error e tree := by
  cases h : ForkTree.«import» hash number data isDescendentOf tree with
  | ok inserted t' => exact .inl ⟨inserted, t', rfl⟩
  | error e t' =>
    obtain rfl := import_error_eq h
    exact .inr ⟨e, rfl⟩

end ForkTree

/-! ## Failing lookups -/

/-- One root, block 1 at number 5. -/
def oneRoot : ForkTree Nat Nat Nat := ⟨[⟨1, 5, 0, []⟩], none⟩

/-- A lookup that always fails. -/
def lookupFails (_ _ : Nat) : Except Unit Bool := .error ()

/-- One branch 1 → 2 → 3, at numbers 1, 2, 3; only 1 has data 0. -/
def oneBranch : ForkTree Nat Nat Nat := ⟨[⟨1, 1, 0, [⟨2, 2, 1, [⟨3, 3, 1, []⟩]⟩]⟩], none⟩

/-- A lookup that fails for block 2 as the ancestor, and finds every other block an ancestor. -/
def lookupOfTwoFails (base _ : Nat) : Except Unit Bool := if base = 2 then .error () else .ok true

theorem failed_lookup_changes_tree :
    ForkTree.finalize 2 3 lookupFails oneRoot = .error (.client ()) ⟨[], none⟩ ∧
      ForkTree.finalizeWithDescendentIf 2 3 lookupFails (fun _ => false) oneRoot =
        .error (.client ()) ⟨[], none⟩ ∧
      ForkTree.prune 4 4 lookupOfTwoFails (· = 0) oneBranch = .error (.client ()) ⟨[], none⟩ ∧
      ForkTree.finalizeWithAncestors 9 9 lookupOfTwoFails oneBranch =
        .error (.client ()) ⟨[⟨2, 2, 1, [⟨3, 3, 1, []⟩]⟩], none⟩ := by
  refine ⟨rfl, rfl, rfl, ?_⟩
  -- the loop is by well-founded recursion: unfold its two rounds
  show ForkTree.finalizeWithAncestorsLoop 9 9 lookupOfTwoFails 0 false oneBranch = _
  rw [ForkTree.finalizeWithAncestorsLoop]
  simp [oneBranch, ForkTree.rootAncestry, lookupOfTwoFails, List.swapRemove]
  rw [ForkTree.finalizeWithAncestorsLoop]
  simp [ForkTree.rootAncestry, lookupOfTwoFails]

theorem finalize_error_oneRoot :
    ForkTree.finalize 2 3 lookupFails oneRoot = .error (.client ()) ⟨[], none⟩ ∧
      (⟨[], none⟩ : ForkTree Nat Nat Nat).roots.length < oneRoot.roots.length :=
  ⟨rfl, ((ForkTree.finalize_error (rfl : ForkTree.finalize 2 3 lookupFails oneRoot = _)).resolve_left
    (by simp [oneRoot])).2.1⟩

end ForkTree
