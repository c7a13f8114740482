import Mathlib

/-!
# Loops over distinct keys that act key by key

A loop that visits items with distinct keys and, at each item, may fail
(`Option`) or change the state only where that item's key is concerned, acts
on each key as one step would, whatever the order of the items: a key visited
is updated once from what it was before the loop, and any other key is left
as it was (`foldlM_pointwise`).  What "where a key is concerned" means is a
projection `proj k` of the state; `Pointwise` says a step at item `i` leaves
every other projection alone and moves `proj (key i)` as `upd i` does.
-/

namespace PointwiseFold

variable {σ ι κ τ : Type}

/-- A step at `i` changes what `proj j` sees only for `j = key i`, and there it
succeeds, and gives, what `upd i` gives from what `proj (key i)` saw. -/
structure Pointwise (step : σ → ι → Option σ) (key : ι → κ) (proj : κ → σ → τ) (upd : ι → τ → Option τ) :
    Prop where
  frame : ∀ s i s', step s i = some s' → ∀ j, j ≠ key i → proj j s' = proj j s
  at_self : ∀ s i, (step s i).map (proj (key i)) = upd i (proj (key i) s)

variable {step : σ → ι → Option σ} {key : ι → κ} {proj : κ → σ → τ} {upd : ι → τ → Option τ}

theorem Pointwise.step_eq_some (h : Pointwise step key proj upd) {s : σ} {i : ι} {r : τ}
    (hr : upd i (proj (key i) s) = some r) : ∃ s', step s i = some s' ∧ proj (key i) s' = r := by
  have hmap := h.at_self s i
  rw [hr] at hmap
  cases hs : step s i with
  | none => rw [hs] at hmap; cases hmap
  | some s' =>
    rw [hs, Option.map_some] at hmap
    exact ⟨s', rfl, Option.some.inj hmap⟩

theorem foldlM_invariant (Q : σ → Prop) (hQ : ∀ s i s', Q s → step s i = some s' → Q s') :
    ∀ (items : List ι) (s s' : σ), Q s → items.foldlM step s = some s' → Q s' := by
  intro items
  induction items with
  | nil =>
    intro s s' hs h
    cases h
    exact hs
  | cons i rest ih =>
    intro s s' hs h
    rw [List.foldlM_cons] at h
    cases hstep : step s i with
    | none => rw [hstep] at h; cases h
    | some s₁ =>
      rw [hstep] at h
      exact ih s₁ s' (hQ s i s₁ hs hstep) h

theorem foldlM_some (f : σ → ι → σ) : ∀ (items : List ι) (s : σ),
    items.foldlM (fun s i => some (f s i)) s = some (items.foldl f s) := by
  intro items
  induction items with
  | nil => intro s; rfl
  | cons i rest ih =>
    intro s
    rw [List.foldlM_cons, List.foldl_cons]
    exact ih (f s i)

theorem mapM_eq_filterMap {f : ι → Option τ} : ∀ (items : List ι), (∀ i ∈ items, (f i).isSome) →
    items.mapM f = some (items.filterMap f)
  | [], _ => rfl
  | i :: rest, h => by
    obtain ⟨b, hb⟩ := Option.isSome_iff_exists.mp (h i List.mem_cons_self)
    rw [List.mapM_cons, hb, mapM_eq_filterMap rest fun j hj => h j (List.mem_cons_of_mem _ hj),
      List.filterMap_cons_some hb]
    rfl

/-- **The loop, key by key.**  If each item's update succeeds from where the
loop starts, the loop succeeds; each key visited ends as its item's update
made it from where it started, and any other key is unchanged. -/
theorem foldlM_pointwise (h : Pointwise step key proj upd) :
    ∀ (items : List ι) (s : σ), (items.map key).Nodup → (∀ i ∈ items, (upd i (proj (key i) s)).isSome) →
      ∃ s', items.foldlM step s = some s' ∧
        (∀ i ∈ items, upd i (proj (key i) s) = some (proj (key i) s')) ∧
        (∀ j, j ∉ items.map key → proj j s' = proj j s) := by
  intro items
  induction items with
  | nil =>
    intro s _ _
    exact ⟨s, rfl, fun _ hi => absurd hi List.not_mem_nil, fun _ _ => rfl⟩
  | cons i rest ih =>
    intro s hnd hok
    rw [List.map_cons, List.nodup_cons] at hnd
    obtain ⟨hi, hnd'⟩ := hnd
    obtain ⟨r, hr⟩ := Option.isSome_iff_exists.mp (hok i List.mem_cons_self)
    obtain ⟨s₁, hs₁, hr₁⟩ := h.step_eq_some hr
    -- the items still to visit see at `s₁` what they saw at `s`
    have hsame : ∀ j ∈ rest, proj (key j) s₁ = proj (key j) s := fun j hj =>
      h.frame s i s₁ hs₁ (key j) (fun hji => hi (hji ▸ List.mem_map_of_mem hj))
    have hrest : ∀ j ∈ rest, (upd j (proj (key j) s₁)).isSome := fun j hj => by
      rw [hsame j hj]
      exact hok j (List.mem_cons_of_mem _ hj)
    obtain ⟨s', hs', hvisited, hother⟩ := ih s₁ hnd' hrest
    refine ⟨s', by rw [List.foldlM_cons, hs₁]; exact hs', fun j hj => ?_, fun j hj => ?_⟩
    · rcases List.mem_cons.mp hj with rfl | hj
      · -- the first item: no later item has its key
        rw [hr, hother (key j) hi, hr₁]
      · rw [← hsame j hj]
        exact hvisited j hj
    · rw [List.map_cons, List.mem_cons, not_or] at hj
      rw [hother j hj.2, h.frame s i s₁ hs₁ j hj.1]

end PointwiseFold
