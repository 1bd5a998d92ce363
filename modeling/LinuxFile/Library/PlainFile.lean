import Mathlib.Data.List.GetD
import Mathlib.Data.Nat.Notation
import Mathlib.Tactic.SplitIfs

/-!
# Files as lists

A file is a list of values. A write behind its end and a longer size fill what is in between with blanks, and a
shorter size forgets what is behind it.
-/

set_option autoImplicit false

namespace PlainFile

variable {α : Type} (blank : α)

def read (data : List α) (off count : ℕ) : List α := (data.drop off).take count

def write (data : List α) (off : ℕ) (new : List α) : List α :=
  (data ++ List.replicate (off - data.length) blank).take off ++ new ++ data.drop (off + new.length)

def truncate (data : List α) (n : ℕ) : List α := data.take n ++ List.replicate (n - data.length) blank

variable {data new a b : List α} {off n p : ℕ}

theorem eq_of_getD (hlen : a.length = b.length) (h : ∀ p, p < a.length → a.getD p blank = b.getD p blank) : a = b := by
  apply List.ext_getElem hlen
  intro p ha hb
  have hp := h p ha
  rwa [List.getD_eq_getElem _ _ ha, List.getD_eq_getElem _ _ hb] at hp

theorem getD_append (a b : List α) (p : ℕ) :
    (a ++ b).getD p blank = if p < a.length then a.getD p blank else b.getD (p - a.length) blank := by
  split_ifs with h
  · exact List.getD_append _ _ _ _ h
  · exact List.getD_append_right _ _ _ _ (Nat.not_lt.mp h)

theorem getD_replicate (n p : ℕ) : (List.replicate n blank).getD p blank = blank := by
  rw [List.getD_eq_getElem?_getD, List.getElem?_replicate]
  split_ifs <;> rfl

theorem getD_take (data : List α) (n p : ℕ) :
    (data.take n).getD p blank = if p < n then data.getD p blank else blank := by
  rw [List.getD_eq_getElem?_getD, List.getElem?_take, List.getD_eq_getElem?_getD]
  split_ifs <;> rfl

theorem getD_drop (data : List α) (n p : ℕ) : (data.drop n).getD p blank = data.getD (n + p) blank := by
  rw [List.getD_eq_getElem?_getD, List.getElem?_drop, List.getD_eq_getElem?_getD]

/-- Blanks behind the end are not seen. -/
theorem getD_padded (data : List α) (n p : ℕ) : (data ++ List.replicate n blank).getD p blank = data.getD p blank := by
  rw [getD_append]
  split_ifs with h
  · rfl
  · rw [getD_replicate, List.getD_eq_default _ _ (Nat.not_lt.mp h)]

/-- A read ends inside the file, or where it began. -/
theorem read_end_le (data : List α) (count : ℕ) {limit : ℕ} (hoff : off ≤ limit) (hlen : data.length ≤ limit) :
    off + (read data off count).length ≤ limit := by
  unfold read
  rw [List.length_take, List.length_drop]
  omega

theorem length_write (data : List α) (off : ℕ) (new : List α) :
    (write blank data off new).length = max (off + new.length) data.length := by
  unfold write
  rw [List.length_append, List.length_append, List.length_take, List.length_append, List.length_replicate,
    List.length_drop]
  omega

theorem getD_write (data : List α) (off : ℕ) (new : List α) (p : ℕ) : (write blank data off new).getD p blank =
    if off ≤ p ∧ p < off + new.length then new.getD (p - off) blank else data.getD p blank := by
  have hfront : ((data ++ List.replicate (off - data.length) blank).take off).length = off := by
    rw [List.length_take, List.length_append, List.length_replicate]
    omega
  unfold write
  rw [getD_append, getD_append, List.length_append, hfront, getD_take, getD_padded, getD_drop]
  by_cases hlow : p < off
  · rw [if_pos (by omega), if_pos hlow, if_pos hlow, if_neg (by omega)]
  · by_cases hin : p < off + new.length
    · rw [if_pos hin, if_neg hlow, if_pos ⟨Nat.not_lt.mp hlow, hin⟩]
    · rw [if_neg hin, if_neg (fun h ↦ hin h.2), Nat.add_sub_cancel' (Nat.not_lt.mp hin)]

theorem length_truncate (data : List α) (n : ℕ) : (truncate blank data n).length = n := by
  unfold truncate
  rw [List.length_append, List.length_take, List.length_replicate]
  omega

theorem getD_truncate (data : List α) (n p : ℕ) :
    (truncate blank data n).getD p blank = if p < n then data.getD p blank else blank := by
  unfold truncate
  rw [getD_append, getD_take, getD_replicate, List.length_take]
  by_cases hlow : p < n
  · rw [if_pos hlow]
    split_ifs with hin
    · rfl
    · rw [List.getD_eq_default _ _ (by omega)]
  · rw [if_neg hlow]
    exact ite_self _

end PlainFile
