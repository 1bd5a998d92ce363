import Mathlib.Data.Set.Lattice
import Mathlib.Order.Interval.Set.Defs
import LinuxFile.Library.KeyMap

/-!
# Sets of numbers kept as ranges

A map from starts to lengths stands for a set of numbers. When its ranges are nonempty and no two of them touch, it
is determined by the set: its entries are the runs of the set, the ranges that cannot be made longer. Taking a range
out and putting one in are then the set operations, as long as what is put in touches nothing.
-/

/-- The numbers in the ranges of a map. -/
def KeyMap.cells (m : KeyMap ℕ) : Set ℕ := {b | ∃ s n, m.find? s = some n ∧ s ≤ b ∧ b < s + n}

/-- A range of the set that cannot be made longer. -/
structure IsRun (cells : Set ℕ) (s n : ℕ) : Prop where
  positive : 0 < n
  inside : ∀ b, s ≤ b → b < s + n → b ∈ cells
  before : ∀ b, b + 1 = s → b ∉ cells
  behind : s + n ∉ cells

/-- Nonempty ranges with a gap between any two of them. -/
structure Gapped (m : KeyMap ℕ) : Prop where
  positive : ∀ {s n}, m.find? s = some n → 0 < n
  apart : ∀ {s n t k}, m.find? s = some n → m.find? t = some k → s < t → s + n < t

/-- A range and the numbers next to it are free of the set. -/
def ClearRange (cells : Set ℕ) (s n : ℕ) : Prop := ∀ b ∈ cells, b + 1 < s ∨ s + n < b

namespace Gapped

variable {m : KeyMap ℕ} {s n : ℕ}

theorem mem_cells (h : m.find? s = some n) {b : ℕ} (hs : s ≤ b) (hb : b < s + n) : b ∈ m.cells := ⟨s, n, h, hs, hb⟩

/-- Two ranges with a common number are the same. -/
theorem eq_of_mem (h : Gapped m) {t k b : ℕ} (hs : m.find? s = some n) (ht : m.find? t = some k)
    (hsb : s ≤ b ∧ b < s + n) (htb : t ≤ b ∧ b < t + k) : s = t ∧ n = k := by
  rcases Nat.lt_trichotomy s t with hlt | heq | hgt
  · have := h.apart hs ht hlt
    omega
  · subst heq
    rw [hs] at ht
    exact ⟨rfl, Option.some.inj ht⟩
  · have := h.apart ht hs hgt
    omega

theorem isRun (h : Gapped m) (hs : m.find? s = some n) : IsRun m.cells s n where
  positive := h.positive hs
  inside b hsb hb := mem_cells hs hsb hb
  before := by
    intro b hb hmem
    obtain ⟨t, k, ht, htb, hk⟩ := hmem
    have := h.apart ht hs (by omega)
    omega
  behind := by
    intro hmem
    obtain ⟨t, k, ht, htb, hk⟩ := hmem
    rcases Nat.lt_trichotomy s t with hlt | heq | hgt
    · have := h.apart hs ht hlt
      omega
    · subst heq
      rw [hs] at ht
      have := Option.some.inj ht
      omega
    · have := h.apart ht hs hgt
      omega

/-- The entries are the runs of the set. -/
theorem find?_iff (h : Gapped m) : m.find? s = some n ↔ IsRun m.cells s n := by
  refine ⟨h.isRun, fun hrun ↦ ?_⟩
  have hpos := hrun.positive
  obtain ⟨t, k, ht, hts, hsk⟩ := hrun.inside s le_rfl (by omega)
  have hother := h.isRun ht
  have hst : s = t := by
    by_contra hne
    exact hrun.before (s - 1) (by omega) (hother.inside (s - 1) (by omega) (by omega))
  subst hst
  have hnk : n = k := by
    rcases Nat.lt_trichotomy n k with hlt | heq | hgt
    · exact absurd (hother.inside (s + n) (by omega) (by omega)) hrun.behind
    · exact heq
    · exact absurd (hrun.inside (s + k) (by omega) (by omega)) hother.behind
  rw [hnk]
  exact ht

theorem erase (h : Gapped m) (key : ℕ) : Gapped (m.erase key) where
  positive := by
    intro s n hs
    rw [KeyMap.find?_erase] at hs
    split_ifs at hs
    exact h.positive hs
  apart := by
    intro s n t k hs ht hlt
    rw [KeyMap.find?_erase] at hs ht
    split_ifs at hs ht
    exact h.apart hs ht hlt

theorem cells_erase (h : Gapped m) (hs : m.find? s = some n) : (m.erase s).cells = m.cells \ Set.Ico s (s + n) := by
  ext b
  constructor
  · intro hb
    obtain ⟨t, k, ht, htb, hk⟩ := hb
    rw [KeyMap.find?_erase] at ht
    split_ifs at ht with hne
    refine ⟨mem_cells ht htb hk, fun hin ↦ hne ?_⟩
    exact (h.eq_of_mem hs ht hin ⟨htb, hk⟩).1.symm
  · intro hb
    obtain ⟨⟨t, k, ht, htb, hk⟩, hout⟩ := hb
    have hne : t ≠ s := by
      intro heq
      subst heq
      rw [hs] at ht
      exact hout ⟨htb, by have := Option.some.inj ht; omega⟩
    exact ⟨t, k, by rw [KeyMap.find?_erase_of_ne hne]; exact ht, htb, hk⟩

theorem insert (h : Gapped m) (hn : 0 < n) (hclear : ClearRange m.cells s n) : Gapped (m.insert s n) where
  positive := by
    intro t k ht
    rw [KeyMap.find?_insert] at ht
    split_ifs at ht
    · cases ht
      exact hn
    · exact h.positive ht
  apart := by
    intro t k u l ht hu hlt
    rw [KeyMap.find?_insert] at ht hu
    split_ifs at ht hu with hts hus hus
    · omega
    · cases ht
      subst hts
      have hmem := hclear u (mem_cells hu le_rfl (by have := h.positive hu; omega))
      omega
    · cases hu
      subst hus
      have hpos := h.positive ht
      have hlast := hclear (t + k - 1) (mem_cells ht (by omega) (by omega))
      have hfirst := hclear t (mem_cells ht le_rfl (by omega))
      by_contra hnot
      have hcross := hclear u (mem_cells ht (by omega) (by omega))
      omega
    · exact h.apart ht hu hlt

theorem cells_insert (hnone : m.find? s = none) : (m.insert s n).cells = m.cells ∪ Set.Ico s (s + n) := by
  ext b
  constructor
  · intro hb
    obtain ⟨t, k, ht, htb, hk⟩ := hb
    rw [KeyMap.find?_insert] at ht
    split_ifs at ht with hts
    · cases ht
      subst hts
      exact Or.inr ⟨htb, hk⟩
    · exact Or.inl (mem_cells ht htb hk)
  · intro hb
    rcases hb with hb | hb
    · obtain ⟨t, k, ht, htb, hk⟩ := hb
      have hne : t ≠ s := by
        intro heq
        rw [heq, hnone] at ht
        cases ht
      exact ⟨t, k, by rw [KeyMap.find?_insert_of_ne hne]; exact ht, htb, hk⟩
    · exact ⟨s, n, KeyMap.find?_insert_self _ _ _, hb.1, hb.2⟩

/-- The start of a range is in the set. -/
theorem find?_none_of_notMem (h : Gapped m) (hs : s ∉ m.cells) : m.find? s = none := by
  cases hfind : m.find? s with
  | none => rfl
  | some k => exact absurd (mem_cells hfind le_rfl (by have := h.positive hfind; omega)) hs

theorem empty : Gapped KeyMap.empty where
  positive h := nomatch h
  apart h := nomatch h

theorem cells_empty : (KeyMap.empty : KeyMap ℕ).cells = ∅ := by
  ext b
  constructor
  · intro hb
    obtain ⟨s, n, h, -⟩ := hb
    cases h
  · exact fun hb ↦ hb.elim

/-- The last range below a number outside the set ends there exactly when the number before it is in the set. -/
theorem below?_meets (h : Gapped m) (hs : s ∉ m.cells) {b : ℕ} (hb : b + 1 = s) (hmem : b ∈ m.cells) :
    ∃ t k, m.below? s = some (t, k) ∧ t + k = s := by
  obtain ⟨t, k, ht, htb, hk⟩ := hmem
  have hend : t + k = s := by
    by_contra hne
    exact hs (mem_cells ht (by omega) (by omega))
  refine ⟨t, k, ?_, hend⟩
  have hin : (t, k) ∈ m.entries.filter (fun e ↦ decide (e.1 < s)) :=
    List.mem_filter.mpr ⟨KeyMap.find?_eq_some_iff.mp ht, by simp; omega⟩
  have hsorted : (m.entries.filter (fun e ↦ decide (e.1 < s))).Pairwise (fun a b ↦ a.1 < b.1) := m.sorted.filter _
  unfold KeyMap.below?
  cases hlast : (m.entries.filter (fun e ↦ decide (e.1 < s))).getLast? with
  | none =>
    rw [List.getLast?_eq_none_iff.mp hlast] at hin
    cases hin
  | some e =>
    obtain ⟨u, l⟩ := e
    have hmem := List.mem_of_getLast? hlast
    have hu : m.find? u = some l := KeyMap.find?_eq_some_iff.mpr (List.mem_filter.mp hmem).1
    have hus : u < s := by simpa using (List.mem_filter.mp hmem).2
    have htu : t = u := by
      by_contra hne
      rcases Nat.lt_or_gt_of_ne hne with hlt | hgt
      · have := h.apart ht hu hlt
        omega
      · obtain ⟨front, hfront⟩ := List.getLast?_eq_some_iff.mp hlast
        rw [hfront] at hin hsorted
        have hfirst : (t, k) ∈ front := by
          rcases List.mem_append.mp hin with hmem | hmem
          · exact hmem
          · rw [List.mem_singleton] at hmem
            cases hmem
            exact absurd rfl hne
        have := (List.pairwise_append.mp hsorted).2.2 _ hfirst _ List.mem_cons_self
        dsimp only at this
        omega
    subst htu
    rw [ht] at hu
    rw [Option.some.inj hu]

end Gapped
