import Mathlib
import CherryNode.Lib.PointwiseFold

/-!
# Ordered maps: the shape of Rust's `BTreeMap`

An `OrdMap κ ν` is an association list whose keys are strictly increasing; the
field `sorted` carries that invariant, so a map with a repeated key cannot be
built.  Lookups, insertion (which replaces), removal, `split_off`, `append`
and the first and last entries behave as the `BTreeMap` operations of the same
names, and iteration is `toList`, in increasing key order.

The lemmas are the read-after-write equations (`get?_insert`, `get?_erase`),
the key set after a write, and the facts about `first?` and `last?` that queue
code built on a `BTreeMap` relies on.
-/

/-- A finite map with strictly increasing keys. -/
structure OrdMap (κ ν : Type) [LinearOrder κ] where
  toList : List (κ × ν)
  sorted : (toList.map Prod.fst).Pairwise (· < ·)

namespace OrdMap

variable {κ ν : Type} [LinearOrder κ]

/-- `==` on an ordered key is equality. -/
theorem lawfulBEq : LawfulBEq κ := inferInstance

theorem ext_toList {m m' : OrdMap κ ν} (h : m.toList = m'.toList) : m = m' := by
  cases m; cases m'; cases h; rfl

instance [DecidableEq ν] : DecidableEq (OrdMap κ ν) := fun m m' =>
  decidable_of_iff (m.toList = m'.toList) ⟨ext_toList, fun h => h ▸ rfl⟩

def empty : OrdMap κ ν := ⟨[], List.Pairwise.nil⟩

instance : EmptyCollection (OrdMap κ ν) := ⟨empty⟩

def keys (m : OrdMap κ ν) : List κ := m.toList.map Prod.fst

def size (m : OrdMap κ ν) : Nat := m.toList.length

def get? (m : OrdMap κ ν) (k : κ) : Option ν := (m.toList.find? (·.1 == k)).map Prod.snd

def contains (m : OrdMap κ ν) (k : κ) : Bool := (m.get? k).isSome

/-- The entry of least key (`iter().next()`). -/
def first? (m : OrdMap κ ν) : Option (κ × ν) := m.toList.head?

/-- The entry of greatest key (`iter().rev().next()`). -/
def last? (m : OrdMap κ ν) : Option (κ × ν) := m.toList.getLast?

/-- Insertion into a key-sorted list, replacing an equal key. -/
def insertList (k : κ) (v : ν) : List (κ × ν) → List (κ × ν)
  | [] => [(k, v)]
  | (k', v') :: t =>
    if k < k' then (k, v) :: (k', v') :: t
    else if k = k' then (k, v) :: t
    else (k', v') :: insertList k v t

theorem keys_insertList_subset (k : κ) (v : ν) :
    ∀ (l : List (κ × ν)) (x : κ), x ∈ (insertList k v l).map Prod.fst → x = k ∨ x ∈ l.map Prod.fst
  | [], x, h => by simp [insertList] at h; exact .inl h
  | (k', v') :: t, x, h => by
    simp only [insertList] at h
    split_ifs at h with h1 h2
    · simpa using h
    · subst h2; simpa using h
    · simp only [List.map_cons, List.mem_cons] at h
      rcases h with rfl | h
      · simp
      · rcases keys_insertList_subset k v t x h with h | h
        · exact .inl h
        · simp [h]

theorem sorted_insertList (k : κ) (v : ν) :
    ∀ l : List (κ × ν), (l.map Prod.fst).Pairwise (· < ·) →
      ((insertList k v l).map Prod.fst).Pairwise (· < ·)
  | [], _ => by simp [insertList]
  | (k', v') :: t, h => by
    rw [List.map_cons, List.pairwise_cons] at h
    simp only [insertList]
    split_ifs with h1 h2
    · simp only [List.map_cons, List.pairwise_cons, List.mem_cons]
      refine ⟨?_, h.1, h.2⟩
      rintro x (rfl | hx)
      · exact h1
      · exact lt_trans h1 (h.1 x hx)
    · subst h2
      simpa using h
    · simp only [List.map_cons, List.pairwise_cons]
      refine ⟨?_, sorted_insertList k v t h.2⟩
      intro x hx
      rcases keys_insertList_subset k v t x hx with rfl | hx
      · exact lt_of_le_of_ne (not_lt.mp h1) (Ne.symm h2)
      · exact h.1 x hx

/-- `BTreeMap::insert`: a new key is added, an existing key's value replaced. -/
def insert (m : OrdMap κ ν) (k : κ) (v : ν) : OrdMap κ ν :=
  ⟨insertList k v m.toList, sorted_insertList k v _ m.sorted⟩

/-- `BTreeMap::remove`. -/
def erase (m : OrdMap κ ν) (k : κ) : OrdMap κ ν :=
  ⟨m.toList.filter (·.1 != k), by
    refine List.Pairwise.sublist ?_ m.sorted
    exact List.Sublist.map _ List.filter_sublist⟩

/-! ## Lookups after writes -/

@[simp] theorem get?_empty (k : κ) : (empty : OrdMap κ ν).get? k = none := rfl

@[simp] theorem contains_empty (k : κ) : (empty : OrdMap κ ν).contains k = false := rfl

theorem get?_insertList (k k' : κ) (v : ν) :
    ∀ l : List (κ × ν), ((insertList k v l).find? (·.1 == k')).map Prod.snd =
      if k = k' then some v else (l.find? (·.1 == k')).map Prod.snd
  | [] => by by_cases h : k = k' <;> simp [insertList, h]
  | (k'', v'') :: t => by
    by_cases h1 : k < k''
    · simp only [insertList, if_pos h1]
      by_cases h2 : k = k' <;> simp [h2]
    · by_cases h2 : k = k''
      · subst h2
        simp only [insertList, if_neg h1]
        by_cases h3 : k = k' <;> simp [h3]
      · simp only [insertList, if_neg h1, if_neg h2]
        by_cases h3 : k'' = k'
        · subst h3; simp [h2]
        · simp [h3, get?_insertList k k' v t]

@[simp] theorem get?_insert (m : OrdMap κ ν) (k k' : κ) (v : ν) :
    (m.insert k v).get? k' = if k = k' then some v else m.get? k' :=
  get?_insertList k k' v m.toList

@[simp] theorem get?_erase (m : OrdMap κ ν) (k k' : κ) :
    (m.erase k).get? k' = if k = k' then none else m.get? k' := by
  unfold get? erase
  simp only
  generalize m.toList = l
  induction l with
  | nil => simp
  | cons e t ih =>
    by_cases h1 : e.1 = k
    · rw [List.filter_cons_of_neg (by simp [h1]), ih]
      by_cases h2 : k = k'
      · simp [h2]
      · simp [h2, h1]
    · rw [List.filter_cons_of_pos (by simp [h1])]
      by_cases h3 : e.1 = k'
      · have h2 : k ≠ k' := fun h => h1 (h3.trans h.symm)
        simp [h3, h2]
      · have : (e.1 == k') = false := by simpa using h3
        simp only [List.find?_cons, this, ih]

theorem get?_insert_self (m : OrdMap κ ν) (k : κ) (v : ν) : (m.insert k v).get? k = some v := by
  simp

theorem get?_insert_of_ne (m : OrdMap κ ν) {k k' : κ} (v : ν) (h : k ≠ k') :
    (m.insert k v).get? k' = m.get? k' := by
  simp [h]

@[simp] theorem contains_insert (m : OrdMap κ ν) (k k' : κ) (v : ν) :
    (m.insert k v).contains k' = (k = k' || m.contains k') := by
  by_cases h : k = k' <;> simp [contains, h]

@[simp] theorem contains_erase (m : OrdMap κ ν) (k k' : κ) :
    (m.erase k).contains k' = (k != k' && m.contains k') := by
  by_cases h : k = k' <;> simp [contains, h]

/-! ## Keys and entries -/

theorem keys_nodup (m : OrdMap κ ν) : m.keys.Nodup :=
  m.sorted.imp (fun h => ne_of_lt h)

variable {m : OrdMap κ ν} {k : κ} {v : ν}

theorem mem_toList_of_get? (h : m.get? k = some v) :
    (k, v) ∈ m.toList := by
  unfold get? at h
  obtain ⟨e, he, rfl⟩ := Option.map_eq_some_iff.mp h
  have hk : e.1 = k := by simpa using List.find?_some he
  have := List.mem_of_find?_eq_some he
  rw [← hk]; exact this

theorem get?_of_mem_toList (h : (k, v) ∈ m.toList) :
    m.get? k = some v := by
  have hnd := m.sorted
  unfold get?
  generalize m.toList = l at h hnd
  induction l with
  | nil => simp at h
  | cons e t ih =>
    rw [List.map_cons, List.pairwise_cons] at hnd
    rcases List.mem_cons.mp h with rfl | ht
    · simp
    · have hne : e.1 ≠ k := ne_of_lt (hnd.1 k (List.mem_map_of_mem ht))
      simp [hne, ih ht hnd.2]

theorem get?_eq_some_iff (m : OrdMap κ ν) (k : κ) (v : ν) :
    m.get? k = some v ↔ (k, v) ∈ m.toList :=
  ⟨mem_toList_of_get?, get?_of_mem_toList⟩

theorem forall_get?_iff (m : OrdMap κ ν) (P : κ → ν → Prop) :
    (∀ k v, m.get? k = some v → P k v) ↔ ∀ e ∈ m.toList, P e.1 e.2 := by
  constructor
  · intro h e he
    exact h e.1 e.2 (get?_of_mem_toList he)
  · intro h k v hkv
    exact h (k, v) (mem_toList_of_get? hkv)

theorem mem_keys (m : OrdMap κ ν) (k : κ) : k ∈ m.keys ↔ m.contains k = true := by
  unfold keys contains
  constructor
  · intro h
    obtain ⟨⟨k', v⟩, hm, rfl⟩ := List.mem_map.mp h
    simp [get?_of_mem_toList hm]
  · intro h
    obtain ⟨v, hv⟩ := Option.isSome_iff_exists.mp h
    exact List.mem_map_of_mem (f := Prod.fst) (mem_toList_of_get? hv)

theorem contains_iff_exists (m : OrdMap κ ν) (k : κ) : m.contains k = true ↔ ∃ v, m.get? k = some v :=
  Option.isSome_iff_exists

/-! ## Sizes, and the first and last entries -/

theorem size_eq_length_keys (m : OrdMap κ ν) : m.size = m.keys.length := by
  simp [size, keys]

theorem mem_keys_insert (m : OrdMap κ ν) (k a : κ) (v : ν) :
    a ∈ (m.insert k v).keys ↔ a = k ∨ a ∈ m.keys := by
  rw [mem_keys, mem_keys, contains_insert]
  by_cases h : k = a
  · subst h; simp
  · simp [h, Ne.symm h]

theorem mem_keys_erase (m : OrdMap κ ν) (k a : κ) :
    a ∈ (m.erase k).keys ↔ a ≠ k ∧ a ∈ m.keys := by
  rw [mem_keys, mem_keys, contains_erase]
  by_cases h : k = a
  · subst h; simp
  · simp [h, Ne.symm h]

theorem get?_foldl_erase {α : Type} (key : α → κ) :
    ∀ (l : List α) (m : OrdMap κ ν) (k : κ),
      (l.foldl (fun m a => m.erase (key a)) m).get? k = if k ∈ l.map key then none else m.get? k
  | [], m, k => by simp
  | a :: l, m, k => by
    rw [List.foldl_cons, get?_foldl_erase key l, get?_erase]
    by_cases h1 : k ∈ l.map key
    · simp [h1]
    · by_cases h2 : key a = k
      · simp [h1, h2]
      · simp [h1, h2, Ne.symm h2]

theorem get?_foldl_erase_keys (l : List κ) (m : OrdMap κ ν) (k : κ) :
    (l.foldl erase m).get? k = if k ∈ l then none else m.get? k := by
  simpa using get?_foldl_erase id l m k

theorem get?_foldl_insert_const (v : ν) :
    ∀ (l : List κ) (m : OrdMap κ ν) (k : κ),
      (l.foldl (fun m k' => m.insert k' v) m).get? k = if k ∈ l then some v else m.get? k
  | [], m, k => by simp
  | k' :: l, m, k => by
    rw [List.foldl_cons, get?_foldl_insert_const v l, get?_insert]
    by_cases hk : k ∈ l
    · simp [hk]
    · by_cases hk' : k' = k
      · simp [hk, hk']
      · simp [hk, hk', Ne.symm hk']

theorem size_insert_of_not_contains {m : OrdMap κ ν} {k : κ} (h : m.contains k = false) (v : ν) :
    (m.insert k v).size = m.size + 1 := by
  have hk : k ∉ m.keys := by rw [mem_keys]; simp [h]
  have hperm : (m.insert k v).keys.Perm (k :: m.keys) := by
    rw [List.perm_ext_iff_of_nodup (keys_nodup _) (List.nodup_cons.mpr ⟨hk, keys_nodup m⟩)]
    intro a
    rw [mem_keys_insert, List.mem_cons]
  rw [size_eq_length_keys, size_eq_length_keys, hperm.length_eq, List.length_cons]

theorem size_insert_of_contains (h : m.contains k = true) (v : ν) :
    (m.insert k v).size = m.size := by
  have hk : k ∈ m.keys := (mem_keys m k).mpr h
  have hperm : (m.insert k v).keys.Perm m.keys := by
    rw [List.perm_ext_iff_of_nodup (keys_nodup _) (keys_nodup m)]
    intro a
    rw [mem_keys_insert]
    constructor
    · rintro (rfl | ha)
      · exact hk
      · exact ha
    · exact .inr
  rw [size_eq_length_keys, size_eq_length_keys, hperm.length_eq]

theorem size_erase_of_contains (h : m.contains k = true) :
    (m.erase k).size + 1 = m.size := by
  have hk : k ∉ (m.erase k).keys := by rw [mem_keys_erase]; simp
  have hperm : m.keys.Perm (k :: (m.erase k).keys) := by
    rw [List.perm_ext_iff_of_nodup (keys_nodup m)
      (List.nodup_cons.mpr ⟨hk, keys_nodup _⟩)]
    intro a
    rw [List.mem_cons, mem_keys_erase]
    by_cases hak : a = k
    · subst hak; simp [(mem_keys m a).mpr h]
    · simp [hak]
  rw [size_eq_length_keys, size_eq_length_keys, hperm.length_eq, List.length_cons]

theorem size_eq_of_contains {ν' : Type} {m' : OrdMap κ ν'}
    (h : ∀ k, m'.contains k = m.contains k) : m'.size = m.size := by
  rw [size_eq_length_keys, size_eq_length_keys]
  apply List.Perm.length_eq
  rw [List.perm_ext_iff_of_nodup (keys_nodup _) (keys_nodup _)]
  intro k
  rw [mem_keys, mem_keys, h]

theorem size_insert_le (m : OrdMap κ ν) (k : κ) (v : ν) : (m.insert k v).size ≤ m.size + 1 := by
  cases h : m.contains k
  · exact Nat.le_of_eq (size_insert_of_not_contains h v)
  · rw [size_insert_of_contains h v]
    exact Nat.le_succ _

theorem size_pos_of_get? (h : m.get? k = some v) : 0 < m.size := by
  have hk : k ∈ m.keys := (mem_keys m k).mpr ((contains_iff_exists m k).mpr ⟨v, h⟩)
  rw [size_eq_length_keys]
  exact List.length_pos_of_mem hk

theorem get?_of_first?{m : OrdMap κ ν} {k : κ} {v : ν} (h : m.first? = some (k, v)) :
    m.get? k = some v :=
  get?_of_mem_toList (List.mem_of_mem_head? h)

theorem get?_of_last? (h : m.last? = some (k, v)) :
    m.get? k = some v :=
  get?_of_mem_toList (List.mem_of_getLast? h)

theorem last?_eq_none_iff (m : OrdMap κ ν) : m.last? = none ↔ m.toList = [] :=
  List.getLast?_eq_none_iff

theorem toList_erase_of_last? (h : m.last? = some (k, v)) :
    (m.erase k).toList = m.toList.dropLast := by
  obtain ⟨ys, hys⟩ := List.getLast?_eq_some_iff.mp h
  have hsorted := m.sorted
  rw [hys, List.map_append, List.pairwise_append] at hsorted
  -- every key before the last one is smaller than it
  have hlt : ∀ e ∈ ys, e.1 < k := fun e he =>
    hsorted.2.2 e.1 (List.mem_map_of_mem he) k (by simp)
  unfold erase
  simp only [hys, List.filter_append, List.dropLast_concat]
  rw [List.filter_eq_self.mpr fun e he => by simpa using ne_of_lt (hlt e he)]
  simp

end OrdMap
namespace OrdMap

variable {κ ν : Type} [LinearOrder κ]

theorem values_nodup (m : OrdMap κ ν)
    (h : ∀ k k' v, m.get? k = some v → m.get? k' = some v → k = k') :
    (m.toList.map Prod.snd).Nodup := by
  apply List.Nodup.map_on _ (List.Nodup.of_map Prod.fst m.keys_nodup)
  intro x hx y hy hxy
  have hk : x.1 = y.1 :=
    h x.1 y.1 x.2 (get?_of_mem_toList hx) (by rw [hxy]; exact get?_of_mem_toList hy)
  exact Prod.ext hk hxy

theorem toList_nodup (m : OrdMap κ ν) : m.toList.Nodup :=
  List.Nodup.of_map Prod.fst m.keys_nodup

theorem ext_get? {m m' : OrdMap κ ν} (h : ∀ k, m.get? k = m'.get? k) : m = m' := by
  apply ext_toList
  have hmem : ∀ e : κ × ν, e ∈ m.toList ↔ e ∈ m'.toList := fun e => by
    rw [← get?_eq_some_iff, ← get?_eq_some_iff, h]
  have hperm : m.toList.Perm m'.toList := (List.perm_ext_iff_of_nodup m.toList_nodup m'.toList_nodup).mpr hmem
  exact hperm.eq_of_pairwise (fun _ _ _ _ h₁ h₂ => absurd (h₁.trans h₂) (lt_irrefl _))
    (List.pairwise_map.mp m.sorted) (List.pairwise_map.mp m'.sorted)

variable {m : OrdMap κ ν} {k : κ} {v : ν}

theorem insert_of_get? (h : m.get? k = some v) : m.insert k v = m :=
  ext_get? fun k' => by
    rw [get?_insert]
    split_ifs with hk
    · rw [← hk, h]
    · rfl

theorem insert_insert (m : OrdMap κ ν) (k : κ) (v v' : ν) : (m.insert k v).insert k v' = m.insert k v' :=
  ext_get? fun k' => by
    simp only [get?_insert]
    split_ifs <;> rfl

theorem mem_toList_erase (m : OrdMap κ ν) (k : κ) (e : κ × ν) :
    e ∈ (m.erase k).toList ↔ e.1 ≠ k ∧ e ∈ m.toList := by
  obtain ⟨a, b⟩ := e
  rw [← get?_eq_some_iff, ← get?_eq_some_iff, get?_erase]
  by_cases h : k = a
  · subst h; simp
  · simp [h, Ne.symm h]

theorem toList_insert_perm (m : OrdMap κ ν) (k : κ) (v : ν) :
    (m.insert k v).toList.Perm ((k, v) :: (m.erase k).toList) := by
  have hk : (k, v) ∉ (m.erase k).toList := by simp [mem_toList_erase]
  rw [List.perm_ext_iff_of_nodup (toList_nodup _) (List.nodup_cons.mpr ⟨hk, toList_nodup _⟩)]
  rintro ⟨a, b⟩
  rw [List.mem_cons, mem_toList_erase, ← get?_eq_some_iff, ← get?_eq_some_iff, get?_insert]
  by_cases h : k = a
  · subst h; simp [eq_comm]
  · simp [h, Ne.symm h]

theorem toList_perm_of_get? (h : m.get? k = some v) :
    m.toList.Perm ((k, v) :: (m.erase k).toList) := by
  have hk : (k, v) ∉ (m.erase k).toList := by simp [mem_toList_erase]
  rw [List.perm_ext_iff_of_nodup (toList_nodup _) (List.nodup_cons.mpr ⟨hk, toList_nodup _⟩)]
  rintro ⟨a, b⟩
  rw [List.mem_cons, mem_toList_erase, ← get?_eq_some_iff]
  by_cases hka : k = a
  · subst hka
    rw [h]
    simp [eq_comm]
  · simp [Ne.symm hka]

theorem toList_erase_of_get?_none (h : m.get? k = none) :
    (m.erase k).toList = m.toList := by
  apply List.filter_eq_self.mpr
  rintro ⟨a, b⟩ hab
  have hne : a ≠ k := by
    rintro rfl
    rw [get?_of_mem_toList hab] at h
    cases h
  simpa using hne

theorem erase_of_get?_none (h : m.get? k = none) : m.erase k = m :=
  ext_toList (toList_erase_of_get?_none h)

theorem keys_insert_perm (m : OrdMap κ ν) (k : κ) (v : ν) :
    (m.insert k v).keys.Perm (k :: (m.erase k).keys) :=
  (toList_insert_perm m k v).map Prod.fst

theorem keys_perm_of_get? (h : m.get? k = some v) :
    m.keys.Perm (k :: (m.erase k).keys) :=
  (toList_perm_of_get? h).map Prod.fst

/-! ## Sums over the values

Over `ℕ`, with the value at the written key counted on the other side so that
no subtraction appears. -/

theorem sum_values_erase (m : OrdMap κ ν) (k : κ) (f : ν → ℕ) :
    ((m.erase k).toList.map fun e => f e.2).sum + ((m.get? k).map f).getD 0 =
      (m.toList.map fun e => f e.2).sum := by
  cases h : m.get? k with
  | none => simp [toList_erase_of_get?_none h]
  | some v =>
    rw [((toList_perm_of_get? h).map _).sum_nat, List.map_cons, List.sum_cons]
    simp [Nat.add_comm]

theorem sum_values_insert (m : OrdMap κ ν) (k : κ) (v : ν) (f : ν → ℕ) :
    ((m.insert k v).toList.map fun e => f e.2).sum = ((m.erase k).toList.map fun e => f e.2).sum + f v := by
  rw [((toList_insert_perm m k v).map _).sum_nat, List.map_cons, List.sum_cons, Nat.add_comm]

theorem sum_getD_le_sum_values (f : ν → ℕ) :
    ∀ (m : OrdMap κ ν) {ks : List κ}, ks.Nodup →
      (ks.map fun k => ((m.get? k).map f).getD 0).sum ≤ (m.toList.map fun e => f e.2).sum
  | _, [], _ => by simp
  | m, k :: ks, hnd => by
    obtain ⟨hk, hks⟩ := List.nodup_cons.mp hnd
    -- the other keys read the same values once `k` is erased
    have hrest : (ks.map fun k' => ((m.get? k').map f).getD 0) =
        ks.map fun k' => (((m.erase k).get? k').map f).getD 0 :=
      List.map_congr_left fun k' hk' => by
        have hne : k ≠ k' := fun h => hk (h ▸ hk')
        rw [get?_erase, if_neg hne]
    have hih := sum_getD_le_sum_values f (m.erase k) hks
    have herase := sum_values_erase m k f
    rw [List.map_cons, List.sum_cons, hrest]
    omega

/-! ## Every entry at once: `iter_mut` and `retain` -/

section Rebuild

variable {ν' : Type}

/-- Every value changed by `f` (`iter_mut` with a closure that cannot fail). -/
def mapValues (f : ν → ν') (m : OrdMap κ ν) : OrdMap κ ν' :=
  ⟨m.toList.map fun kv => (kv.1, f kv.2), by rw [List.map_map]; exact m.sorted⟩

@[simp] theorem get?_mapValues (f : ν → ν') (m : OrdMap κ ν) (k : κ) :
    (m.mapValues f).get? k = (m.get? k).map f := by
  cases h : m.get? k with
  | some v =>
    apply get?_of_mem_toList
    exact List.mem_map_of_mem (f := fun kv : κ × ν => (kv.1, f kv.2)) (mem_toList_of_get? h)
  | none =>
    cases h' : (m.mapValues f).get? k with
    | none => rfl
    | some w =>
      obtain ⟨⟨k', v⟩, hmem, hkv⟩ := List.mem_map.mp (mem_toList_of_get? h')
      obtain ⟨rfl, -⟩ := Prod.mk.inj hkv
      rw [get?_of_mem_toList hmem] at h
      cases h

/-- Every entry rebuilt into a new map: `f` fails (`none`), drops the entry
(`some none`) or keeps it with a new value, as `retain_map` and `iter_mut` run
a closure that may panic. -/
def filterMapM (f : κ → ν → Option (Option ν')) (m : OrdMap κ ν) : Option (OrdMap κ ν') :=
  m.toList.foldlM (fun acc kv => (f kv.1 kv.2).map fun r => match r with
    | some v => acc.insert kv.1 v
    | none => acc) empty

theorem filterMapM_pointwise (f : κ → ν → Option (Option ν')) :
    PointwiseFold.Pointwise
      (fun (acc : OrdMap κ ν') (kv : κ × ν) => (f kv.1 kv.2).map fun r => match r with
        | some v => acc.insert kv.1 v
        | none => acc)
      Prod.fst (fun k acc => acc.get? k) (fun kv t => (f kv.1 kv.2).map (·.or t)) where
  frame acc kv acc' h j hj := by
    obtain ⟨r, -, rfl⟩ := Option.map_eq_some_iff.mp h
    cases r with
    | some v => exact get?_insert_of_ne acc v (Ne.symm hj)
    | none => rfl
  at_self acc kv := by
    rw [Option.map_map]
    congr 1
    funext r
    cases r with
    | some v => exact get?_insert_self acc kv.1 v
    | none => rfl

/-- **`filterMapM` entry by entry**: it fails only where `f` fails, and keeps
at each key what `f` makes of the entry. -/
theorem filterMapM_spec (f : κ → ν → Option (Option ν')) (m : OrdMap κ ν)
    (hf : ∀ k v, m.get? k = some v → (f k v).isSome) :
    ∃ m', m.filterMapM f = some m' ∧ ∀ k, m'.get? k = (m.get? k).bind fun v => (f k v).join := by
  obtain ⟨m', hm', hin, hout⟩ := PointwiseFold.foldlM_pointwise (filterMapM_pointwise f) m.toList empty
    (keys_nodup m) fun kv hkv => by
      rw [Option.isSome_map]
      exact hf kv.1 kv.2 (get?_of_mem_toList hkv)
  refine ⟨m', hm', fun k => ?_⟩
  cases hk : m.get? k with
  | none =>
    refine hout k fun hmem => ?_
    obtain ⟨v, hv⟩ := (contains_iff_exists m k).mp ((mem_keys m k).mp hmem)
    rw [hk] at hv
    cases hv
  | some v =>
    have hkv := hin (k, v) (mem_toList_of_get? hk)
    obtain ⟨r, hr⟩ := Option.isSome_iff_exists.mp (hf k v hk)
    dsimp only at hkv
    rw [hr, Option.map_some, get?_empty, Option.or_none] at hkv
    rw [Option.bind_some, hr, Option.join_some, Option.some.inj hkv]

theorem filterMapM_forall (f : κ → ν → Option (Option ν')) (m : OrdMap κ ν) (P : ν' → Prop)
    (hf : ∀ k v, m.get? k = some v → ∃ r, f k v = some r ∧ ∀ v', r = some v' → P v') :
    ∃ m', m.filterMapM f = some m' ∧ ∀ k v', m'.get? k = some v' → P v' := by
  obtain ⟨m', hm', hget⟩ := filterMapM_spec f m fun k v hkv => by
    obtain ⟨r, hr, -⟩ := hf k v hkv
    rw [hr]
    rfl
  refine ⟨m', hm', fun k v' hkv' => ?_⟩
  rw [hget k] at hkv'
  cases hkv : m.get? k with
  | none =>
    rw [hkv] at hkv'
    cases hkv'
  | some v =>
    obtain ⟨r, hr, hP⟩ := hf k v hkv
    rw [hkv, Option.bind_some, hr, Option.join_some] at hkv'
    exact hP v' hkv'

/-- The entries `f` keeps, under their keys, with the new values (`filter_map`
over a `BTreeMap`'s entries, collected back into a map). -/
def filterMap (f : κ → ν → Option ν') (m : OrdMap κ ν) : OrdMap κ ν' :=
  ⟨m.toList.filterMap fun kv => (f kv.1 kv.2).map (kv.1, ·), by
    rw [List.pairwise_map]
    refine List.Pairwise.filterMap _ ?_ (List.pairwise_map.mp m.sorted)
    intro a a' h b hb b' hb'
    obtain ⟨_, -, rfl⟩ := Option.map_eq_some_iff.mp hb
    obtain ⟨_, -, rfl⟩ := Option.map_eq_some_iff.mp hb'
    exact h⟩

@[simp] theorem get?_filterMap (f : κ → ν → Option ν') (m : OrdMap κ ν) (k : κ) :
    (m.filterMap f).get? k = (m.get? k).bind (f k) := by
  apply Option.ext
  intro w
  rw [get?_eq_some_iff, Option.bind_eq_some_iff]
  simp only [filterMap, List.mem_filterMap, Option.map_eq_some_iff, Prod.mk.injEq]
  constructor
  · rintro ⟨⟨k', v⟩, hmem, w', hf, rfl, rfl⟩
    exact ⟨v, get?_of_mem_toList hmem, hf⟩
  · rintro ⟨v, hv, hf⟩
    exact ⟨(k, v), mem_toList_of_get? hv, w, hf, rfl, rfl⟩

/-- `split_off(key)`: the entries below `key`, which stay (first), and those
from `key` on, which go (second). -/
def splitOff (m : OrdMap κ ν) (k : κ) : OrdMap κ ν × OrdMap κ ν :=
  (m.filterMap fun k' v => if k' < k then some v else none,
    m.filterMap fun k' v => if k ≤ k' then some v else none)

theorem get?_splitOff_fst (m : OrdMap κ ν) (k k' : κ) :
    (m.splitOff k).1.get? k' = if k' < k then m.get? k' else none := by
  rw [splitOff, get?_filterMap]
  split_ifs with h <;> cases m.get? k' <;> simp

theorem get?_splitOff_snd (m : OrdMap κ ν) (k k' : κ) :
    (m.splitOff k).2.get? k' = if k ≤ k' then m.get? k' else none := by
  rw [splitOff, get?_filterMap]
  split_ifs with h <;> cases m.get? k' <;> simp

/-- `append(other)`: every entry of `other` moved in, replacing an equal key. -/
def append (m other : OrdMap κ ν) : OrdMap κ ν := other.toList.foldl (fun m e => m.insert e.1 e.2) m

theorem get?_foldl_insert :
    ∀ (l : List (κ × ν)), (l.map Prod.fst).Nodup → ∀ (m : OrdMap κ ν) (k : κ),
      (l.foldl (fun m e => m.insert e.1 e.2) m).get? k = ((l.find? (·.1 == k)).map Prod.snd).or (m.get? k)
  | [], _, m, k => by simp
  | e :: l, hnd, m, k => by
    rw [List.map_cons, List.nodup_cons] at hnd
    rw [List.foldl_cons, get?_foldl_insert l hnd.2, get?_insert]
    by_cases hk : e.1 = k
    · -- no later entry has the key of `e`
      have hnone : l.find? (·.1 == k) = none := by
        rw [List.find?_eq_none]
        intro x hx hxk
        exact hnd.1 (hk ▸ (beq_iff_eq.mp hxk) ▸ List.mem_map_of_mem hx)
      simp [hk, hnone]
    · simp [hk]

theorem get?_foldl_insert_toList (src m : OrdMap κ ν) (k : κ) :
    (src.toList.foldl (fun m e => m.insert e.1 e.2) m).get? k = (src.get? k).or (m.get? k) :=
  get?_foldl_insert src.toList src.keys_nodup m k

theorem get?_append (m other : OrdMap κ ν) (k : κ) : (m.append other).get? k = (other.get? k).or (m.get? k) :=
  get?_foldl_insert_toList other m k

theorem append_splitOff (m : OrdMap κ ν) (k : κ) : (m.splitOff k).1.append (m.splitOff k).2 = m := by
  apply ext_get?
  intro k'
  rw [get?_append, get?_splitOff_fst, get?_splitOff_snd]
  by_cases h : k ≤ k'
  · rw [if_pos h, if_neg (not_lt.mpr h)]
    cases m.get? k' <;> rfl
  · rw [if_neg h, if_pos (lt_of_not_ge h)]
    rfl

section FilterMapAll

variable {f : κ → ν → Option ν'} {m : OrdMap κ ν}

theorem filterMap_toList_head? (hf : ∀ k v, m.get? k = some v → (f k v).isSome) :
    (m.filterMap f).first? = m.first?.bind fun kv => (f kv.1 kv.2).map (kv.1, ·) := by
  unfold first? filterMap
  rw [List.head?_filterMap]
  cases h : m.toList with
  | nil => rfl
  | cons kv t =>
    have hkv : kv ∈ m.toList := h ▸ List.mem_cons_self
    obtain ⟨w, hw⟩ := Option.isSome_iff_exists.mp (hf kv.1 kv.2 (get?_of_mem_toList hkv))
    simp [hw]

theorem filterMap_toList_getLast? (hf : ∀ k v, m.get? k = some v → (f k v).isSome) :
    (m.filterMap f).last? = m.last?.bind fun kv => (f kv.1 kv.2).map (kv.1, ·) := by
  unfold last? filterMap
  -- the last kept entry is the head of the reversed list
  rw [← List.head?_reverse, ← List.filterMap_reverse, List.head?_filterMap, ← List.head?_reverse]
  cases h : m.toList.reverse with
  | nil => rfl
  | cons kv t =>
    have hkv : kv ∈ m.toList := List.mem_reverse.mp (h ▸ List.mem_cons_self)
    obtain ⟨w, hw⟩ := Option.isSome_iff_exists.mp (hf kv.1 kv.2 (get?_of_mem_toList hkv))
    simp [hw]

theorem size_filterMap (hf : ∀ k v, m.get? k = some v → (f k v).isSome) : (m.filterMap f).size = m.size := by
  show (m.toList.filterMap fun kv => (f kv.1 kv.2).map (kv.1, ·)).length = m.toList.length
  have hall : ∀ kv ∈ m.toList, ((f kv.1 kv.2).map (kv.1, ·)).isSome := fun kv hkv => by
    rw [Option.isSome_map]
    exact hf kv.1 kv.2 (get?_of_mem_toList hkv)
  generalize m.toList = l at hall ⊢
  induction l with
  | nil => rfl
  | cons kv l ih =>
    obtain ⟨w, hw⟩ := Option.isSome_iff_exists.mp (hall kv List.mem_cons_self)
    rw [List.filterMap_cons, hw, List.length_cons, List.length_cons,
      ih fun x hx => hall x (List.mem_cons_of_mem kv hx)]

end FilterMapAll

end Rebuild

end OrdMap

/-! ## Lists of pairs with distinct keys -/

namespace List

variable {κ ν : Type} [DecidableEq κ]

variable {l : List (κ × ν)}

theorem filter_fst_eq_nil {k : κ} (hk : k ∉ l.map Prod.fst) :
    l.filter (fun x => x.1 == k) = [] := by
  apply filter_eq_nil_iff.mpr
  intro y hy hyk
  rw [beq_iff_eq] at hyk
  exact hk (hyk ▸ mem_map_of_mem hy)

theorem filter_fst_eq_of_mem (hnd : (l.map Prod.fst).Nodup) {e : κ × ν} (he : e ∈ l) :
    l.filter (fun x => x.1 == e.1) = [e] := by
  induction l with
  | nil => simp at he
  | cons x l ih =>
    rw [map_cons, nodup_cons] at hnd
    rcases mem_cons.mp he with rfl | hl
    · -- `e` is the head: no later entry has its key
      simp [filter_fst_eq_nil hnd.1]
    · have hne : x.1 ≠ e.1 := by
        rintro h
        exact hnd.1 (h ▸ mem_map_of_mem hl)
      simp [hne, ih hnd.2 hl]

theorem filter_fst_not_mem_append {l₁ l₂ : List (κ × ν)} (hnd : ((l₁ ++ l₂).map Prod.fst).Nodup) :
    (l₁ ++ l₂).filter (fun x => decide (x.1 ∉ l₁.map Prod.fst)) = l₂ := by
  rw [map_append, nodup_append] at hnd
  rw [filter_append, filter_eq_nil_iff.mpr, filter_eq_self.mpr, nil_append]
  · intro y hy
    have : y.1 ∉ l₁.map Prod.fst := fun h => hnd.2.2 y.1 h y.1 (mem_map_of_mem hy) rfl
    exact decide_eq_true this
  · intro y hy
    simpa using mem_map_of_mem (f := Prod.fst) hy

end List
