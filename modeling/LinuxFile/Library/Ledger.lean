import Mathlib.Algebra.GroupWithZero.Nat
import Mathlib.Algebra.Order.BigOperators.Group.List
import Mathlib.Algebra.Order.Group.Nat
import Mathlib.Data.List.Perm.Basic
import LinuxFile.Library.KeyMap

/-!
# Counting who owns a cell

A range is a start and a length. `cover ranges cell` is the number of ranges that contain the cell,
so "disjoint and inside the arena" is one inequality per cell: the count is at most one inside the
arena and zero outside. Moving a range from one owner to another does not change the count, and a
splitting of a range is an equation between counts; both make ownership arguments linear.
-/

namespace Ledger

/-- One if the cell is in the range, zero otherwise. -/
def span (start len cell : ℕ) : ℕ := if start ≤ cell ∧ cell < start + len then 1 else 0

/-- The number of ranges that contain the cell. -/
def cover (ranges : List (ℕ × ℕ)) (cell : ℕ) : ℕ := (ranges.map (fun r ↦ span r.1 r.2 cell)).sum

theorem span_le_one (start len cell : ℕ) : span start len cell ≤ 1 := by
  unfold span
  split_ifs <;> omega

@[simp] theorem span_zero (start cell : ℕ) : span start 0 cell = 0 := by
  unfold span
  rw [if_neg (by omega)]

theorem span_eq_one {start len cell : ℕ} (h : start ≤ cell ∧ cell < start + len) :
    span start len cell = 1 := if_pos h

theorem span_eq_zero {start len cell : ℕ} (h : ¬(start ≤ cell ∧ cell < start + len)) :
    span start len cell = 0 := if_neg h

/-- A range cut in two. -/
theorem span_add (start a b cell : ℕ) :
    span start (a + b) cell = span start a cell + span (start + a) b cell := by
  unfold span
  grind

@[simp] theorem cover_nil (cell : ℕ) : cover [] cell = 0 := rfl

@[simp] theorem cover_cons (r : ℕ × ℕ) (rest : List (ℕ × ℕ)) (cell : ℕ) :
    cover (r :: rest) cell = span r.1 r.2 cell + cover rest cell := by
  simp [cover]

@[simp] theorem cover_append (a b : List (ℕ × ℕ)) (cell : ℕ) :
    cover (a ++ b) cell = cover a cell + cover b cell := by
  simp [cover]

theorem cover_perm {a b : List (ℕ × ℕ)} (h : a.Perm b) (cell : ℕ) : cover a cell = cover b cell :=
  (h.map _).sum_eq

theorem cover_eq_zero_iff {ranges : List (ℕ × ℕ)} {cell : ℕ} :
    cover ranges cell = 0 ↔ ∀ r ∈ ranges, ¬(r.1 ≤ cell ∧ cell < r.1 + r.2) := by
  induction ranges with
  | nil => simp
  | cons r rest ih =>
    rw [cover_cons, Nat.add_eq_zero_iff, ih, List.forall_mem_cons]
    apply and_congr_left
    intro _
    unfold span
    split_ifs with h <;> simp [h]

theorem exists_mem_of_cover_pos {ranges : List (ℕ × ℕ)} {cell : ℕ} (h : 0 < cover ranges cell) :
    ∃ r ∈ ranges, r.1 ≤ cell ∧ cell < r.1 + r.2 := by
  by_contra hnone
  push Not at hnone
  have hzero : cover ranges cell = 0 := by
    rw [cover_eq_zero_iff]
    intro r hr hcell
    exact absurd hcell.2 (by have := hnone r hr hcell.1; omega)
  omega

theorem span_le_cover {ranges : List (ℕ × ℕ)} {r : ℕ × ℕ} (h : r ∈ ranges) (cell : ℕ) :
    span r.1 r.2 cell ≤ cover ranges cell :=
  List.le_sum_of_mem (List.mem_map_of_mem (f := fun r ↦ span r.1 r.2 cell) h)

/-- Two members that differ both count. -/
theorem two_le_sum {α : Type} {f : α → ℕ} {l : List α} {a b : α} (ha : a ∈ l) (hb : b ∈ l)
    (hne : a ≠ b) : f a + f b ≤ (l.map f).sum := by
  induction l with
  | nil => simp at ha
  | cons head rest ih =>
    have single : ∀ x ∈ rest, f x ≤ (rest.map f).sum := fun x hx ↦
      List.le_sum_of_mem (List.mem_map_of_mem hx)
    rw [List.map_cons, List.sum_cons]
    rcases List.mem_cons.mp ha with rfl | ha' <;> rcases List.mem_cons.mp hb with rfl | hb'
    · exact absurd rfl hne
    · have := single b hb'
      omega
    · have := single a ha'
      omega
    · have := ih ha' hb'
      omega

/-- The ranges are pairwise disjoint and lie inside `[low, high)`. -/
def Fits (low high : ℕ) (ranges : List (ℕ × ℕ)) : Prop :=
  ∀ cell, cover ranges cell ≤ span low (high - low) cell

theorem Fits.within {low high : ℕ} {ranges : List (ℕ × ℕ)} (h : Fits low high ranges)
    {r : ℕ × ℕ} (hr : r ∈ ranges) (hpos : 0 < r.2) : low ≤ r.1 ∧ r.1 + r.2 ≤ high := by
  have inside : ∀ cell, r.1 ≤ cell ∧ cell < r.1 + r.2 → low ≤ cell ∧ cell < high := by
    intro cell hcell
    have hone : 1 ≤ cover ranges cell := by
      calc 1 = span r.1 r.2 cell := (span_eq_one hcell).symm
        _ ≤ cover ranges cell := span_le_cover hr cell
    have hle := h cell
    unfold span at hle
    split_ifs at hle with hin <;> omega
  have hfirst := inside r.1 (by omega)
  have hlast := inside (r.1 + r.2 - 1) (by omega)
  omega

/-- Two ranges that share no cell. -/
def Apart (a b : ℕ × ℕ) : Prop := ∀ cell, ¬((a.1 ≤ cell ∧ cell < a.1 + a.2) ∧
  (b.1 ≤ cell ∧ cell < b.1 + b.2))

theorem Fits.pairwise {low high : ℕ} {ranges : List (ℕ × ℕ)} (h : Fits low high ranges) :
    ranges.Pairwise Apart := by
  induction ranges with
  | nil => exact List.Pairwise.nil
  | cons r rest ih =>
    have hcons : ∀ cell, span r.1 r.2 cell + cover rest cell ≤ 1 := by
      intro cell
      calc span r.1 r.2 cell + cover rest cell = cover (r :: rest) cell := (cover_cons r rest cell).symm
        _ ≤ span low (high - low) cell := h cell
        _ ≤ 1 := span_le_one _ _ _
    refine List.pairwise_cons.mpr ⟨?_, ih ?_⟩
    · rintro b hb cell ⟨hr, hb'⟩
      have h1 := span_eq_one hr
      have h2 : 1 ≤ cover rest cell := by
        calc 1 = span b.1 b.2 cell := (span_eq_one hb').symm
          _ ≤ cover rest cell := span_le_cover hb cell
      have := hcons cell
      omega
    · intro cell
      have := h cell
      rw [cover_cons] at this
      omega

/-! ## Ranges kept in a map from start to length -/

/-- The coverage of the entries of a map. -/
theorem cover_entries (m : KeyMap ℕ) (cell : ℕ) :
    cover m.entries cell = m.total (fun start len ↦ span start len cell) := rfl

theorem cover_insert {m : KeyMap ℕ} {start : ℕ} (len : ℕ) (h : m.find? start = none) (cell : ℕ) :
    cover (m.insert start len).entries cell = cover m.entries cell + span start len cell := by
  have := KeyMap.total_insert (fun start len ↦ span start len cell) m start len
  rw [h, Option.elim_none, Nat.add_zero] at this
  simpa only [cover_entries] using this

theorem cover_erase {m : KeyMap ℕ} {start len : ℕ} (h : m.find? start = some len) (cell : ℕ) :
    cover (m.erase start).entries cell + span start len cell = cover m.entries cell := by
  have := KeyMap.total_erase (fun start len ↦ span start len cell) m start
  rw [h, Option.elim_some] at this
  simpa only [cover_entries] using this

end Ledger
