import LinuxFile.Path

/-!
# Paths and their components

The components of a path are those of the pieces it is put together from: a slash separates what stands before it
from what stands behind it.
-/

namespace LinuxFile

namespace UnixPath

/-- The components of bytes that are not looked at for a leading root. -/
def split (bytes : Bytes) : List Component := parts (bytes.length + 1) bytes

theorem trimLeadingSlashes_length (bytes : Bytes) : (trimLeadingSlashes bytes).length ≤ bytes.length :=
  (List.dropWhile_suffix _).length_le

theorem trimLeadingSlashes_head {bytes tail : Bytes} {first : UInt8} (h : trimLeadingSlashes bytes = first :: tail) :
    (first == slash) = false := by
  induction bytes with
  | nil => cases h
  | cons c rest ih =>
    unfold trimLeadingSlashes at h ih
    rw [List.dropWhile_cons] at h
    split_ifs at h with hc
    · exact ih h
    · cases h
      exact Bool.eq_false_iff.mpr hc

/-- What follows the first part is shorter. -/
theorem rest_length {bytes : Bytes} (h : trimLeadingSlashes bytes ≠ []) :
    ((trimLeadingSlashes bytes).dropWhile (· != slash)).length < bytes.length := by
  have htrim := trimLeadingSlashes_length bytes
  cases hcase : trimLeadingSlashes bytes with
  | nil => exact absurd hcase h
  | cons first tail =>
    have hfirst := trimLeadingSlashes_head hcase
    have hdrop : (first :: tail).dropWhile (· != slash) = tail.dropWhile (· != slash) :=
      List.dropWhile_cons_of_pos (by simp only [bne, hfirst, Bool.not_false])
    have hle : (tail.dropWhile (· != slash)).length ≤ tail.length := (List.dropWhile_suffix _).length_le
    rw [hcase, List.length_cons] at htrim
    rw [hdrop]
    omega

/-- Fuel for every byte is enough. -/
theorem parts_eq_split (fuel : ℕ) : ∀ {bytes : Bytes}, bytes.length < fuel → parts fuel bytes = split bytes := by
  have hsame : ∀ (n m : ℕ) (bytes : Bytes), bytes.length < n → bytes.length < m → parts n bytes = parts m bytes := by
    intro n
    induction n with
    | zero => exact fun m bytes h ↦ absurd h (Nat.not_lt_zero _)
    | succ n ih =>
      intro m bytes hn hm
      obtain ⟨m, rfl⟩ : ∃ k, m = k + 1 := ⟨m - 1, by omega⟩
      unfold parts
      dsimp only
      by_cases hempty : trimLeadingSlashes bytes = []
      · rw [if_pos hempty, if_pos hempty]
      · have hrest := rest_length hempty
        rw [if_neg hempty, if_neg hempty, ih m _ (by omega) (by omega)]
  intro bytes h
  exact hsame fuel _ bytes h (Nat.lt_succ_self _)

theorem split_eq (bytes : Bytes) : split bytes =
    if trimLeadingSlashes bytes = [] then []
    else classify ((trimLeadingSlashes bytes).takeWhile (· != slash)) ::
      split ((trimLeadingSlashes bytes).dropWhile (· != slash)) := by
  conv_lhs => unfold split parts
  dsimp only
  by_cases hempty : trimLeadingSlashes bytes = []
  · rw [if_pos hempty, if_pos hempty]
  · rw [if_neg hempty, if_neg hempty, parts_eq_split _ (rest_length hempty)]

theorem trim_trim (bytes : Bytes) : trimLeadingSlashes (trimLeadingSlashes bytes) = trimLeadingSlashes bytes := by
  cases hcase : trimLeadingSlashes bytes with
  | nil => rfl
  | cons first tail =>
    have hfirst := trimLeadingSlashes_head hcase
    exact List.dropWhile_cons_of_neg (by rw [hfirst]; decide)

theorem split_trim (bytes : Bytes) : split (trimLeadingSlashes bytes) = split bytes := by
  rw [split_eq, trim_trim, ← split_eq]

@[simp] theorem split_nil : split [] = [] := rfl

theorem split_slash (bytes : Bytes) : split (slash :: bytes) = split bytes := by
  have htrim : trimLeadingSlashes (slash :: bytes) = trimLeadingSlashes bytes := List.dropWhile_cons_of_pos (by decide)
  rw [← split_trim, htrim, split_trim]

/-- A slash separates. -/
theorem split_append (bytes tail : Bytes) : split (bytes ++ slash :: tail) = split bytes ++ split tail := by
  induction hn : bytes.length using Nat.strong_induction_on generalizing bytes with
  | _ n ih =>
    have htrim : trimLeadingSlashes (bytes ++ slash :: tail) =
        if trimLeadingSlashes bytes = [] then trimLeadingSlashes (slash :: tail)
        else trimLeadingSlashes bytes ++ slash :: tail := by
      unfold trimLeadingSlashes
      rw [List.dropWhile_append]
      simp only [List.isEmpty_iff]
    by_cases hempty : trimLeadingSlashes bytes = []
    · rw [← split_trim, htrim, if_pos hempty, split_trim, split_slash, split_eq bytes, if_pos hempty, List.nil_append]
    · set front := trimLeadingSlashes bytes with hfront
      have htake : (front ++ slash :: tail).takeWhile (· != slash) = front.takeWhile (· != slash) := by
        rw [List.takeWhile_append]
        split_ifs with hall
        · rw [List.takeWhile_cons_of_neg (by decide), List.append_nil]
          exact ((List.takeWhile_prefix _).eq_of_length hall).symm
        · rfl
      have hdrop : (front ++ slash :: tail).dropWhile (· != slash) = front.dropWhile (· != slash) ++ slash :: tail := by
        rw [List.dropWhile_append]
        split_ifs with hall
        · rw [List.dropWhile_cons_of_neg (by decide), List.isEmpty_iff.mp hall, List.nil_append]
        · rfl
      have hrest := ih (front.dropWhile (· != slash)).length (by rw [← hn]; exact rest_length hempty) _ rfl
      rw [split_eq (bytes ++ slash :: tail), htrim, if_neg hempty, if_neg (by simp), htake, hdrop, hrest, split_eq bytes,
        if_neg hempty, List.cons_append]

theorem components_eq (p : UnixPath) : components p = if isAbsolute p then .rootDir :: split p else split p := by
  unfold components
  by_cases habs : isAbsolute p
  · have hlen := trimLeadingSlashes_length p
    rw [if_pos habs, if_pos habs, parts_eq_split _ (by omega), split_trim]
  · rw [if_neg habs, if_neg habs]
    rfl

theorem isAbsolute_append {p : UnixPath} (h : p ≠ []) (tail : Bytes) : isAbsolute (p ++ tail) = isAbsolute p := by
  cases p with
  | nil => exact absurd rfl h
  | cons first rest => rfl

/-- What stands behind a slash adds its components. -/
theorem components_append {p : UnixPath} (h : p ≠ []) (tail : Bytes) :
    components (p ++ slash :: tail) = components p ++ split tail := by
  rw [components_eq, components_eq, isAbsolute_append h, split_append]
  split_ifs <;> rfl

/-- A path has a component. -/
theorem components_ne_nil {p : UnixPath} (h : p ≠ []) : components p ≠ [] := by
  rw [components_eq]
  by_cases habs : isAbsolute p = true
  · rw [if_pos habs]
    exact List.cons_ne_nil _ _
  · cases p with
    | nil => exact absurd rfl h
    | cons first rest =>
      have hfirst : (first == slash) = false := by
        unfold isAbsolute at habs
        simpa using habs
      have htrim : trimLeadingSlashes (first :: rest) = first :: rest :=
        List.dropWhile_cons_of_neg (by rw [hfirst]; decide)
      rw [if_neg habs, split_eq, htrim, if_neg (List.cons_ne_nil _ _)]
      exact List.cons_ne_nil _ _

theorem components_relative {p : UnixPath} (h : isAbsolute p = false) : components p = split p := by
  rw [components_eq, h, if_neg (by decide)]

/-- A relative path put behind another adds its components. -/
theorem components_push_relative (buf : UnixPath) {path : UnixPath} (hrel : isAbsolute path = false) :
    components (push buf path) = components buf ++ components path := by
  rw [components_relative hrel]
  by_cases hempty : buf = []
  · rw [hempty]
    unfold push
    rw [hrel, if_neg (by decide), if_neg (fun h ↦ h.1 rfl), List.nil_append, components_relative hrel]
    rfl
  · by_cases hlast : buf.getLast? = some slash
    · obtain ⟨front, hfront⟩ : ∃ front, buf = front ++ [slash] :=
        ⟨buf.dropLast, (List.dropLast_append_getLast? slash hlast).symm⟩
      have hpush : push buf path = front ++ slash :: path := by
        unfold push
        rw [hrel, if_neg (by decide), if_neg (fun h ↦ h.2 hlast), hfront, List.append_assoc, List.singleton_append]
      have habs : isAbsolute (front ++ slash :: path) = isAbsolute buf := by
        rw [← List.singleton_append, ← List.append_assoc, ← hfront, isAbsolute_append hempty]
      have hbuf : split buf = split front := by
        rw [hfront, split_append front [], split_nil, List.append_nil]
      rw [hpush, components_eq, habs, components_eq, split_append, hbuf]
      split_ifs <;> rfl
    · have hpush : push buf path = buf ++ slash :: path := by
        unfold push
        rw [hrel, if_neg (by decide), if_pos ⟨hempty, hlast⟩, List.append_assoc, List.singleton_append]
      rw [hpush, components_append hempty]

/-! ## Putting names together -/

theorem split_piece {piece : Bytes} (h : slash ∉ piece) (hne : piece ≠ []) : split piece = [classify piece] := by
  have hclean : ∀ c ∈ piece, (c != slash) = true := by
    intro c hc
    rw [bne_iff_ne]
    rintro rfl
    exact h hc
  have htrim : trimLeadingSlashes piece = piece := by
    cases piece with
    | nil => rfl
    | cons first rest =>
      have hfirst := hclean first List.mem_cons_self
      exact List.dropWhile_cons_of_neg (by simpa using hfirst)
  have htake : (piece ++ []).takeWhile (· != slash) = piece ++ [] := List.takeWhile_append_of_pos hclean
  have hdrop : (piece ++ []).dropWhile (· != slash) = [] := List.dropWhile_append_of_pos hclean
  rw [List.append_nil] at htake hdrop
  rw [split_eq, htrim, if_neg hne, htake, hdrop, split_nil]

theorem split_valid {name : Bytes} (h : validateName name = .ok ()) : split name = [.normal name] := by
  unfold validateName at h
  split_ifs at h with hdots hlong hbytes
  rw [not_or, not_or] at hdots
  rw [not_or] at hbytes
  have hclass : classify name = .normal name := by
    unfold classify
    rw [if_neg hdots.2.1, if_neg hdots.2.2]
  rw [split_piece hbytes.2 hdots.1, hclass]

theorem valid_relative {name : Bytes} (h : validateName name = .ok ()) : name ≠ [] ∧ isAbsolute name = false := by
  unfold validateName at h
  split_ifs at h with hdots hlong hbytes
  rw [not_or, not_or] at hdots
  rw [not_or] at hbytes
  refine ⟨hdots.1, ?_⟩
  cases name with
  | nil => rfl
  | cons first rest =>
    have hne : first ≠ slash := by
      rintro rfl
      exact hbytes.2 List.mem_cons_self
    unfold isAbsolute
    simpa using hne

/-- A name put behind an absolute path adds its component. -/
theorem components_push {buf name : Bytes} (habs : isAbsolute buf = true) (h : validateName name = .ok ()) :
    isAbsolute (push buf name) = true ∧ components (push buf name) = components buf ++ [.normal name] := by
  obtain ⟨-, hrel⟩ := valid_relative h
  have hbuf : buf ≠ [] := by
    rintro rfl
    cases habs
  constructor
  · unfold push
    rw [hrel, if_neg (by decide)]
    split_ifs
    · rw [List.append_assoc, isAbsolute_append hbuf, habs]
    · rw [isAbsolute_append hbuf, habs]
  · rw [components_push_relative buf hrel, components_relative hrel, split_valid h]

/-- The components of the names put behind the root. -/
theorem components_pushed (names : List Bytes) (h : ∀ name ∈ names, validateName name = .ok ()) :
    isAbsolute (names.foldl push [slash]) = true ∧
      components (names.foldl push [slash]) = .rootDir :: names.map .normal := by
  have hpushed : ∀ buf, isAbsolute buf = true → isAbsolute (names.foldl push buf) = true ∧
      components (names.foldl push buf) = components buf ++ names.map .normal := by
    induction names with
    | nil => exact fun buf habs ↦ ⟨habs, (List.append_nil _).symm⟩
    | cons name rest ih =>
      intro buf habs
      obtain ⟨habs', hcomps⟩ := components_push habs (h name List.mem_cons_self)
      obtain ⟨hend, hall⟩ := ih (fun other hmem ↦ h other (List.mem_cons_of_mem _ hmem)) _ habs'
      refine ⟨hend, ?_⟩
      rw [List.foldl_cons, hall, hcomps, List.append_assoc]
      rfl
  exact hpushed [slash] rfl

end UnixPath

end LinuxFile
