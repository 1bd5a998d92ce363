import Mathlib.Data.List.Sort
import Mathlib.Algebra.BigOperators.Group.List.Basic
import Mathlib.Algebra.GroupWithZero.Nat

/-!
# Finite maps keyed by natural numbers

A map is its list of entries in strictly increasing key order, so two maps with the same lookups
are equal and the entries can be read in key order. The operations are those of an ordered map:
lookup, insertion, removal, the last entry and the last entry below a key. `total` adds up a
weight over the entries; the two update rules of `total` are what accounting arguments use.
-/

/-- A finite map, stored as its entries in increasing key order. -/
structure KeyMap (α : Type) where
  entries : List (ℕ × α)
  sorted : entries.Pairwise (fun a b ↦ a.1 < b.1)

namespace KeyMap

variable {α : Type}

def empty : KeyMap α := ⟨[], List.Pairwise.nil⟩

def findIn (key : ℕ) : List (ℕ × α) → Option α
  | [] => none
  | (k, value) :: rest => if k = key then some value else findIn key rest

def find? (m : KeyMap α) (key : ℕ) : Option α := findIn key m.entries

def contains (m : KeyMap α) (key : ℕ) : Bool := (m.find? key).isSome

def insertIn (key : ℕ) (value : α) : List (ℕ × α) → List (ℕ × α)
  | [] => [(key, value)]
  | (k, v) :: rest =>
    if key < k then (key, value) :: (k, v) :: rest
    else if key = k then (key, value) :: rest
    else (k, v) :: insertIn key value rest

def keys (m : KeyMap α) : List ℕ := m.entries.map Prod.fst

def size (m : KeyMap α) : ℕ := m.entries.length

/-- The entry with the greatest key. -/
def last? (m : KeyMap α) : Option (ℕ × α) := m.entries.getLast?

/-- The entry with the greatest key below `bound`. -/
def below? (m : KeyMap α) (bound : ℕ) : Option (ℕ × α) :=
  (m.entries.filter (fun e ↦ e.1 < bound)).getLast?

theorem mem_insertIn {key : ℕ} {value : α} {l : List (ℕ × α)} {e : ℕ × α} :
    e ∈ insertIn key value l → e = (key, value) ∨ e ∈ l := by
  induction l with
  | nil => simp [insertIn]
  | cons head rest ih =>
    obtain ⟨k, v⟩ := head
    unfold insertIn
    split_ifs <;> simp <;> grind

theorem insertIn_sorted {key : ℕ} {value : α} {l : List (ℕ × α)}
    (h : l.Pairwise (fun a b ↦ a.1 < b.1)) :
    (insertIn key value l).Pairwise (fun a b ↦ a.1 < b.1) := by
  induction l with
  | nil => simp [insertIn]
  | cons head rest ih =>
    obtain ⟨k, v⟩ := head
    rw [List.pairwise_cons] at h
    unfold insertIn
    split_ifs with hlt heq
    · refine List.pairwise_cons.mpr ⟨?_, List.pairwise_cons.mpr h⟩
      intro e he
      rcases List.mem_cons.mp he with rfl | he
      · exact hlt
      · exact hlt.trans (h.1 e he)
    · subst heq
      exact List.pairwise_cons.mpr h
    · refine List.pairwise_cons.mpr ⟨?_, ih h.2⟩
      intro e he
      rcases mem_insertIn he with rfl | he
      · dsimp only
        omega
      · exact h.1 e he

def insert (m : KeyMap α) (key : ℕ) (value : α) : KeyMap α :=
  ⟨insertIn key value m.entries, insertIn_sorted m.sorted⟩

def erase (m : KeyMap α) (key : ℕ) : KeyMap α :=
  ⟨m.entries.filter (fun e ↦ e.1 ≠ key), m.sorted.filter _⟩

/-- Keep the entries whose key satisfies `keep`. -/
def filterKeys (m : KeyMap α) (keep : ℕ → Bool) : KeyMap α :=
  ⟨m.entries.filter (fun e ↦ keep e.1), m.sorted.filter _⟩

/-! ## Lookup rules -/

@[ext] theorem ext {m m' : KeyMap α} (h : m.entries = m'.entries) : m = m' := by
  cases m
  cases m'
  simp_all

theorem findIn_eq_some_iff {l : List (ℕ × α)} (h : l.Pairwise (fun a b ↦ a.1 < b.1))
    {key : ℕ} {value : α} : findIn key l = some value ↔ (key, value) ∈ l := by
  induction l with
  | nil => simp [findIn]
  | cons head rest ih =>
    obtain ⟨k, v⟩ := head
    rw [List.pairwise_cons] at h
    rw [findIn, List.mem_cons, Prod.mk.injEq]
    split_ifs with heq
    · subst heq
      constructor
      · intro hv
        exact Or.inl ⟨rfl, (Option.some.inj hv).symm⟩
      · rintro (⟨_, rfl⟩ | hmem)
        · rfl
        · exact absurd (h.1 _ hmem) (lt_irrefl _)
    · rw [ih h.2]
      constructor
      · exact Or.inr
      · rintro (⟨rfl, _⟩ | hmem)
        · exact absurd rfl heq
        · exact hmem

theorem find?_eq_some_iff {m : KeyMap α} {key : ℕ} {value : α} :
    m.find? key = some value ↔ (key, value) ∈ m.entries :=
  findIn_eq_some_iff m.sorted

@[simp] theorem find?_empty (key : ℕ) : (empty : KeyMap α).find? key = none := rfl

theorem findIn_insertIn (key : ℕ) (value : α) (l : List (ℕ × α)) (k : ℕ) :
    findIn k (insertIn key value l) = if k = key then some value else findIn k l := by
  induction l with
  | nil => simp [insertIn, findIn, eq_comm]
  | cons head rest ih =>
    obtain ⟨k', v⟩ := head
    unfold insertIn
    split_ifs <;> simp only [findIn, ih] <;> grind

theorem find?_insert (m : KeyMap α) (key : ℕ) (value : α) (k : ℕ) :
    (m.insert key value).find? k = if k = key then some value else m.find? k :=
  findIn_insertIn key value m.entries k

@[simp] theorem find?_insert_self (m : KeyMap α) (key : ℕ) (value : α) :
    (m.insert key value).find? key = some value := by
  rw [find?_insert, if_pos rfl]

theorem find?_insert_of_ne {m : KeyMap α} {key k : ℕ} {value : α} (h : k ≠ key) :
    (m.insert key value).find? k = m.find? k := by
  rw [find?_insert, if_neg h]

theorem find?_filterKeys (m : KeyMap α) (keep : ℕ → Bool) (k : ℕ) :
    (m.filterKeys keep).find? k = if keep k then m.find? k else none := by
  apply Option.ext
  intro value
  rw [find?_eq_some_iff, filterKeys, List.mem_filter]
  split_ifs with h <;> simp [find?_eq_some_iff, h]

theorem find?_erase (m : KeyMap α) (key k : ℕ) :
    (m.erase key).find? k = if k = key then none else m.find? k := by
  have h := find?_filterKeys m (fun e ↦ decide (e ≠ key)) k
  by_cases hk : k = key
  · simpa [hk, erase, filterKeys] using h
  · simpa [hk, erase, filterKeys] using h

@[simp] theorem find?_erase_self (m : KeyMap α) (key : ℕ) : (m.erase key).find? key = none := by
  rw [find?_erase, if_pos rfl]

theorem find?_erase_of_ne {m : KeyMap α} {key k : ℕ} (h : k ≠ key) :
    (m.erase key).find? k = m.find? k := by
  rw [find?_erase, if_neg h]

theorem mem_keys_iff {m : KeyMap α} {key : ℕ} : key ∈ m.keys ↔ (m.find? key).isSome := by
  rw [Option.isSome_iff_exists]
  simp [keys, find?_eq_some_iff]

theorem keys_nodup (m : KeyMap α) : m.keys.Nodup := by
  unfold keys
  exact List.pairwise_map.mpr (m.sorted.imp fun h ↦ Nat.ne_of_lt h)

theorem contains_iff {m : KeyMap α} {key : ℕ} :
    m.contains key = true ↔ ∃ value, m.find? key = some value :=
  Option.isSome_iff_exists

/-- Sorted entry lists with the same members are equal. -/
theorem eq_of_find?_eq {m m' : KeyMap α} (h : ∀ key, m.find? key = m'.find? key) : m = m' := by
  apply ext
  have hmem : ∀ e, e ∈ m.entries ↔ e ∈ m'.entries := by
    rintro ⟨key, value⟩
    rw [← find?_eq_some_iff, h key, find?_eq_some_iff]
  have hnodup : ∀ m : KeyMap α, m.entries.Nodup := fun m ↦
    m.sorted.imp fun hlt heq ↦ by simp [heq] at hlt
  have hperm : m.entries.Perm m'.entries :=
    (List.perm_ext_iff_of_nodup (hnodup m) (hnodup m')).mpr hmem
  exact hperm.eq_of_pairwise (fun a b _ _ hab hba ↦ absurd hba (lt_asymm hab)) m.sorted m'.sorted

theorem insert_of_find? {m : KeyMap β} {key : ℕ} {value : β} (h : m.find? key = some value) :
    m.insert key value = m := by
  apply eq_of_find?_eq
  intro k
  rw [find?_insert]
  split_ifs with hk
  · rw [hk, h]
  · rfl

theorem insert_insert (m : KeyMap β) (key : ℕ) (first second : β) :
    (m.insert key first).insert key second = m.insert key second := by
  apply eq_of_find?_eq
  intro k
  rw [find?_insert, find?_insert, find?_insert]
  split_ifs <;> rfl

/-! ## Weights -/

/-- The sum of a weight over all entries. -/
def total (weight : ℕ → α → ℕ) (m : KeyMap α) : ℕ :=
  (m.entries.map (fun e ↦ weight e.1 e.2)).sum

theorem sum_insertIn (weight : ℕ → α → ℕ) (key : ℕ) (value : α) {l : List (ℕ × α)}
    (h : l.Pairwise (fun a b ↦ a.1 < b.1)) :
    ((insertIn key value l).map (fun e ↦ weight e.1 e.2)).sum + (findIn key l).elim 0 (weight key) =
      (l.map (fun e ↦ weight e.1 e.2)).sum + weight key value := by
  induction l with
  | nil => simp [insertIn, findIn]
  | cons head rest ih =>
    obtain ⟨k, v⟩ := head
    have hrest := ih (List.pairwise_cons.mp h).2
    unfold insertIn
    split_ifs with hlt heq
    · have hnone : findIn key ((k, v) :: rest) = none := by
        rw [Option.eq_none_iff_forall_ne_some]
        intro value' hvalue
        rw [findIn_eq_some_iff h] at hvalue
        rcases List.mem_cons.mp hvalue with heq | hmem
        · simp only [Prod.mk.injEq] at heq
          omega
        · have := (List.pairwise_cons.mp h).1 _ hmem
          dsimp only at this
          omega
      rw [hnone]
      simp only [List.map_cons, List.sum_cons, Option.elim_none]
      omega
    · subst heq
      simp only [findIn, List.map_cons, List.sum_cons, if_true, Option.elim_some]
      omega
    · simp only [findIn, List.map_cons, List.sum_cons, if_neg (Ne.symm heq)]
      omega

theorem total_insert (weight : ℕ → α → ℕ) (m : KeyMap α) (key : ℕ) (value : α) :
    total weight (m.insert key value) + (m.find? key).elim 0 (weight key) =
      total weight m + weight key value :=
  sum_insertIn weight key value m.sorted

theorem insertIn_filter {key : ℕ} {value : α} {l : List (ℕ × α)}
    (h : l.Pairwise (fun a b ↦ a.1 < b.1)) (hfind : findIn key l = some value) :
    insertIn key value (l.filter (fun e ↦ e.1 ≠ key)) = l := by
  have hsorted := h.filter (fun e ↦ decide (e.1 ≠ key))
  have hins : (insertIn key value (l.filter (fun e ↦ decide (e.1 ≠ key)))).Pairwise
      (fun a b ↦ a.1 < b.1) := insertIn_sorted hsorted
  have key_eq := @eq_of_find?_eq α ⟨_, hins⟩ ⟨l, h⟩
    (by
      intro k
      change findIn k (insertIn key value (l.filter _)) = findIn k l
      rw [findIn_insertIn]
      split_ifs with hk
      · rw [hk, hfind]
      · have := find?_erase_of_ne (m := ⟨l, h⟩) hk
        simpa only [find?, erase] using this)
  exact congrArg KeyMap.entries key_eq

theorem total_erase (weight : ℕ → α → ℕ) (m : KeyMap α) (key : ℕ) :
    total weight (m.erase key) + (m.find? key).elim 0 (weight key) = total weight m := by
  cases hfind : m.find? key with
  | none =>
    have : m.erase key = m := by
      apply eq_of_find?_eq
      intro k
      rw [find?_erase]
      split_ifs with hk
      · rw [hk, hfind]
      · rfl
    simp [this]
  | some value =>
    have hback : (m.erase key).insert key value = m := by
      apply ext
      exact insertIn_filter m.sorted hfind
    have h := total_insert weight (m.erase key) key value
    rw [hback, find?_erase_self, Option.elim_none] at h
    simp only [Option.elim_some]
    omega

theorem weight_le_total (weight : ℕ → α → ℕ) {m : KeyMap α} {key : ℕ} {value : α}
    (h : m.find? key = some value) : weight key value ≤ total weight m := by
  have := total_erase weight m key
  rw [h, Option.elim_some] at this
  omega

theorem two_weights_le_total (weight : ℕ → α → ℕ) {m : KeyMap α} {k k' : ℕ} {v v' : α}
    (h : m.find? k = some v) (h' : m.find? k' = some v') (hne : k ≠ k') :
    weight k v + weight k' v' ≤ total weight m := by
  have herase := total_erase weight m k
  rw [h, Option.elim_some] at herase
  have hle : weight k' v' ≤ total weight (m.erase k) := by
    apply weight_le_total weight
    rw [find?_erase_of_ne (Ne.symm hne)]
    exact h'
  omega

/-- Replacing the value of a key. -/
theorem total_replace (weight : ℕ → α → ℕ) {m : KeyMap α} {key : ℕ} {old : α} (new : α)
    (h : m.find? key = some old) :
    total weight (m.insert key new) + weight key old = total weight m + weight key new := by
  have := total_insert weight m key new
  rwa [h, Option.elim_some] at this

/-- Adding a key. -/
theorem total_add (weight : ℕ → α → ℕ) {m : KeyMap α} {key : ℕ} (new : α)
    (h : m.find? key = none) : total weight (m.insert key new) = total weight m + weight key new := by
  have := total_insert weight m key new
  rwa [h, Option.elim_none] at this

/-- Removing a key. -/
theorem total_remove (weight : ℕ → α → ℕ) {m : KeyMap α} {key : ℕ} {old : α}
    (h : m.find? key = some old) : total weight (m.erase key) + weight key old = total weight m := by
  have := total_erase weight m key
  rwa [h, Option.elim_some] at this

theorem insertIn_of_lt {key : ℕ} {value : α} {l : List (ℕ × α)} (h : ∀ e ∈ l, e.1 < key) :
    insertIn key value l = l ++ [(key, value)] := by
  induction l with
  | nil => rfl
  | cons e rest ih =>
    have hlt : e.1 < key := h e List.mem_cons_self
    rw [insertIn, if_neg (by omega), if_neg (by omega), ih fun e he ↦ h e (List.mem_cons_of_mem _ he), List.cons_append]

theorem entries_foldl_insert (l : List (ℕ × α)) (hsorted : l.Pairwise (fun a b ↦ a.1 < b.1)) (m : KeyMap α)
    (hbelow : ∀ a ∈ m.entries, ∀ b ∈ l, a.1 < b.1) :
    (l.foldl (fun acc e ↦ acc.insert e.1 e.2) m).entries = m.entries ++ l := by
  induction l generalizing m with
  | nil => exact (List.append_nil _).symm
  | cons e rest ih =>
    have hinsert : (m.insert e.1 e.2).entries = m.entries ++ [e] :=
      insertIn_of_lt fun a ha ↦ hbelow a ha e List.mem_cons_self
    rw [List.pairwise_cons] at hsorted
    rw [List.foldl_cons, ih hsorted.2, hinsert, List.append_assoc, List.singleton_append]
    intro a ha b hb
    rw [hinsert, List.mem_append, List.mem_singleton] at ha
    rcases ha with ha | rfl
    · exact hbelow a ha b (List.mem_cons_of_mem _ hb)
    · exact hsorted.1 b hb

/-- The map is what inserting its entries in order gives. -/
theorem foldl_insert_entries (m : KeyMap α) : m.entries.foldl (fun acc e ↦ acc.insert e.1 e.2) empty = m := by
  apply KeyMap.ext
  rw [entries_foldl_insert m.entries m.sorted empty (by simp [empty])]
  rfl

theorem size_eq_total (m : KeyMap α) : m.size = m.total (fun _ _ ↦ 1) := by
  unfold size total
  simp

theorem size_insert (m : KeyMap α) (key : ℕ) (value : α) :
    m.size ≤ (m.insert key value).size ∧ (m.insert key value).size ≤ m.size + 1 := by
  have h := total_insert (fun _ _ ↦ 1) m key value
  rw [← size_eq_total, ← size_eq_total] at h
  cases hfind : m.find? key with
  | none => simp [hfind] at h; omega
  | some old => simp [hfind] at h; omega

theorem size_erase (m : KeyMap α) (key : ℕ) : (m.erase key).size ≤ m.size ∧ m.size ≤ (m.erase key).size + 1 := by
  have h := total_erase (fun _ _ ↦ 1) m key
  rw [← size_eq_total, ← size_eq_total] at h
  cases hfind : m.find? key with
  | none => simp [hfind] at h; omega
  | some old => simp [hfind] at h; omega

theorem size_insert_of_none {m : KeyMap α} {key : ℕ} (value : α) (h : m.find? key = none) :
    (m.insert key value).size = m.size + 1 := by
  have hadd := total_add (fun _ _ ↦ 1) value h
  rwa [← size_eq_total, ← size_eq_total] at hadd

theorem size_erase_of_some {m : KeyMap α} {key : ℕ} {value : α} (h : m.find? key = some value) :
    (m.erase key).size + 1 = m.size := by
  have hremove := total_remove (fun _ _ ↦ 1) h
  rwa [← size_eq_total, ← size_eq_total] at hremove

end KeyMap
