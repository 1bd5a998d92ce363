import LinuxFile.Inner.Walk
import LinuxFile.Spec.Paths

/-!
# The algebra of paths

The pieces of a path are what stands between its slashes. Components, joining, the parent of a path and its file name
are each computed by a scan of their own, and agree on the pieces: a path is its parent followed by its file name,
whatever slashes are repeated, left out or put at its ends.
-/

set_option autoImplicit false

namespace LinuxFile

/-! ## The last place of a byte -/

section Rposition

variable {f : UInt8 → Bool} {bytes front back : Bytes} {c : UInt8}

theorem rposition_none (h : ∀ x ∈ bytes, f x = false) : rposition f bytes = none := by
  unfold rposition
  rw [Option.map_eq_none_iff, List.findIdx?_eq_none_iff]
  intro x hx
  exact h x (List.mem_reverse.mp hx)

theorem rposition_append (hc : f c = true) (hback : ∀ x ∈ back, f x = false) :
    rposition f (front ++ c :: back) = some front.length := by
  have hnone : back.reverse.findIdx? f = none := by
    rw [List.findIdx?_eq_none_iff]
    intro x hx
    exact hback x (List.mem_reverse.mp hx)
  unfold rposition
  rw [List.reverse_append, List.reverse_cons, List.append_assoc, List.findIdx?_append, hnone, Option.none_or,
    List.singleton_append, List.findIdx?_cons, hc, if_pos rfl, Option.map_some, Option.map_some, List.length_append,
    List.length_cons, List.length_reverse]
  congr 1
  omega

/-- A list has an element with the property and none behind it, or no such element at all. -/
theorem exists_last (f : UInt8 → Bool) (bytes : Bytes) : (∀ x ∈ bytes, f x = false) ∨
    ∃ front c back, bytes = front ++ c :: back ∧ f c = true ∧ ∀ x ∈ back, f x = false := by
  induction bytes with
  | nil => exact Or.inl fun x hx ↦ absurd hx List.not_mem_nil
  | cons a rest ih =>
    rcases ih with hnone | ⟨front, c, back, hrest, hc, hback⟩
    · cases ha : f a with
      | true => exact Or.inr ⟨[], a, rest, rfl, ha, hnone⟩
      | false =>
        left
        intro x hx
        rcases List.mem_cons.mp hx with hxa | hx
        · rw [hxa, ha]
        · exact hnone x hx
    · exact Or.inr ⟨a :: front, c, back, by rw [hrest, List.cons_append], hc, hback⟩

theorem rposition_eq_some {i : ℕ} (h : rposition f bytes = some i) :
    ∃ front c back, bytes = front ++ c :: back ∧ front.length = i ∧ f c = true ∧ ∀ x ∈ back, f x = false := by
  rcases exists_last f bytes with hnone | ⟨front, c, back, hbytes, hc, hback⟩
  · rw [rposition_none hnone] at h
    cases h
  · rw [hbytes, rposition_append hc hback] at h
    exact ⟨front, c, back, hbytes, Option.some.inj h, hc, hback⟩

end Rposition

namespace UnixPath

/-! ## Pieces -/

/-- What holds without a slash, and of two parts with a slash between them if it holds of both, holds of all paths. -/
theorem slash_induction {motive : Bytes → Prop} (piece : ∀ p, slash ∉ p → motive p)
    (cut : ∀ front tail, motive front → motive tail → motive (front ++ slash :: tail)) (p : Bytes) : motive p := by
  induction hn : p.length using Nat.strong_induction_on generalizing p with
  | _ n ih =>
    by_cases hslash : slash ∈ p
    · obtain ⟨front, tail, hp⟩ := List.append_of_mem hslash
      have hlen : p.length = front.length + tail.length + 1 := by
        rw [hp, List.length_append, List.length_cons]
        omega
      rw [hp]
      exact cut front tail (ih front.length (by omega) front rfl) (ih tail.length (by omega) tail rfl)
    · exact piece p hslash

/-- What stands between the slashes, without the empty pieces. -/
def pieces (p : UnixPath) : List Bytes := (p.splitOn slash).filter (· ≠ [])

theorem pieces_of_notMem {p : Bytes} (h : slash ∉ p) : pieces p = if p = [] then [] else [p] := by
  unfold pieces
  rw [List.splitOn_eq_singleton h]
  by_cases hempty : p = []
  · rw [hempty]
    rfl
  · rw [if_neg hempty, List.filter_cons_of_pos (by simpa using hempty)]
    rfl

theorem pieces_append (front tail : Bytes) : pieces (front ++ slash :: tail) = pieces front ++ pieces tail := by
  unfold pieces
  rw [List.splitOn_append_cons_self, List.filter_append]

theorem split_eq_pieces (p : UnixPath) : split p = (pieces p).map classify := by
  induction p using slash_induction with
  | piece p h =>
    rw [pieces_of_notMem h]
    by_cases hempty : p = []
    · rw [hempty]
      rfl
    · rw [if_neg hempty, split_piece h hempty]
      rfl
  | cut front tail hfront htail => rw [split_append, pieces_append, List.map_append, hfront, htail]

theorem components_eq_pieces (p : UnixPath) :
    components p = (if p.head? = some slash then [.rootDir] else []) ++ (pieces p).map classify := by
  rw [components_eq, split_eq_pieces]
  unfold isAbsolute
  by_cases habs : p.head? = some slash
  · rw [if_pos (beq_iff_eq.mpr habs), if_pos habs]
    rfl
  · rw [if_neg (fun h ↦ habs (beq_iff_eq.mp h)), if_neg habs]
    rfl

/-! ## Joining -/

theorem components_join (p q : UnixPath) :
    components (join p q) = if isAbsolute q then components q else components p ++ components q := by
  unfold join
  by_cases habs : isAbsolute q = true
  · rw [if_pos habs, if_pos habs]
  · rw [if_neg habs, if_neg habs, components_push_relative p (Bool.not_eq_true _ ▸ habs)]

/-! ## Parent and file name -/

/-- A path with a parent ends in a piece, but for slashes, and the parent is what stands before the last slash in
front of the piece. -/
theorem parent_eq_some {p r : UnixPath} (h : parent p = some r) : ∃ front piece slashes,
    p = front ++ slash :: piece ++ slashes ∧ slash ∉ piece ∧ piece ≠ [] ∧ (∀ c ∈ slashes, c = slash) ∧
      r = if front = [] then [slash] else front := by
  unfold parent at h
  split_ifs at h with hroot
  obtain ⟨last, hlast, h⟩ := Option.bind_eq_some_iff.mp h
  obtain ⟨cut, hcut, h⟩ := Option.map_eq_some_iff.mp h
  obtain ⟨body, c, slashes, hp, hbody, hc, hslashes⟩ := rposition_eq_some hlast
  have htake : p.take (last + 1) = body ++ [c] := by
    rw [hp, ← hbody, List.append_cons, List.take_left' (by rw [List.length_append, List.length_singleton])]
  rw [htake] at hcut
  obtain ⟨front, d, piece, hfront, hlen, hd, hpiece⟩ := rposition_eq_some hcut
  rw [beq_iff_eq] at hd
  refine ⟨front, piece, slashes, ?_, ?_, ?_, ?_, ?_⟩
  · rw [hp, List.append_cons, hfront, hd]
  · intro hmem
    have := hpiece slash hmem
    simp at this
  · rintro rfl
    have hsame : c = d := by
      have := congrArg List.getLast? hfront
      simpa using this
    rw [hsame, hd] at hc
    simp at hc
  · intro x hx
    simpa using hslashes x hx
  · rw [← h]
    by_cases hempty : front = []
    · rw [if_pos hempty, if_pos (by rw [← hlen, hempty]; rfl)]
    · have hpos : cut ≠ 0 := by
        rw [← hlen]
        exact fun hzero ↦ hempty (List.length_eq_zero_iff.mp hzero)
      rw [if_neg hempty, if_neg hpos, hp, List.append_cons, hfront, List.append_assoc, List.take_left' hlen]

theorem trimTrailingSlashes_append {body slashes : Bytes} {c : UInt8} (hc : c ≠ slash)
    (hslashes : ∀ x ∈ slashes, x = slash) : trimTrailingSlashes (body ++ [c] ++ slashes) = body ++ [c] := by
  have hcount : ((body ++ [c] ++ slashes).reverse.takeWhile (· == slash)).length = slashes.length := by
    have hall : ∀ x ∈ slashes.reverse, (x == slash) = true :=
      fun x hx ↦ beq_iff_eq.mpr (hslashes x (List.mem_reverse.mp hx))
    rw [List.reverse_append, List.reverse_append, List.reverse_singleton, List.singleton_append,
      List.takeWhile_append_of_pos hall, List.takeWhile_cons_of_neg (by simpa using hc), List.append_nil,
      List.length_reverse]
  unfold trimTrailingSlashes
  rw [hcount, List.length_append, Nat.add_sub_cancel_right, List.take_left' rfl]

theorem fileName_of_pieces {front piece slashes : Bytes} (hpiece : slash ∉ piece) (hne : piece ≠ [])
    (hslashes : ∀ c ∈ slashes, c = slash) : fileName (front ++ slash :: piece ++ slashes) = some piece := by
  obtain ⟨rest, c, hlast⟩ : ∃ rest c, piece = rest ++ [c] := ⟨_, _, (List.dropLast_append_getLast hne).symm⟩
  have hc : c ≠ slash := by
    rintro rfl
    exact hpiece (by rw [hlast]; exact List.mem_append_right _ List.mem_cons_self)
  have htrim : trimTrailingSlashes (front ++ slash :: piece ++ slashes) = front ++ slash :: piece := by
    rw [hlast, ← List.cons_append, ← List.append_assoc]
    exact trimTrailingSlashes_append hc hslashes
  have hroot : isRoot (front ++ slash :: piece ++ slashes) = false := by
    have hlen : 0 < piece.length := List.length_pos_iff.mpr hne
    rw [Bool.eq_false_iff]
    intro h
    have := congrArg List.length (beq_iff_eq.mp h)
    rw [List.length_append, List.length_append, List.length_cons, List.length_singleton] at this
    omega
  have hscan : rposition (· == slash) (front ++ slash :: piece) = some front.length := by
    apply rposition_append
    · exact beq_self_eq_true slash
    · intro x hx
      rw [beq_eq_false_iff_ne]
      rintro rfl
      exact hpiece hx
  unfold fileName
  rw [hroot, if_neg (by decide), htrim]
  dsimp only
  rw [if_neg (by simp), hscan]
  dsimp only
  rw [← List.drop_drop, List.drop_left' rfl]
  rfl

/-- Slashes behind a piece do not count. -/
theorem split_piece_slashes {piece slashes : Bytes} (hpiece : slash ∉ piece) (hne : piece ≠ [])
    (hslashes : ∀ c ∈ slashes, c = slash) : split (piece ++ slashes) = [classify piece] := by
  cases slashes with
  | nil => rw [List.append_nil, split_piece hpiece hne]
  | cons c rest =>
    have hc : c = slash := hslashes c List.mem_cons_self
    have hblank : split rest = [] := by
      have hall : rest = List.replicate rest.length slash :=
        List.eq_replicate_of_mem fun x hx ↦ hslashes x (List.mem_cons_of_mem _ hx)
      rw [hall]
      induction rest.length with
      | zero => rfl
      | succ n ih => rw [List.replicate_succ, split_slash, ih]
    rw [hc, split_append, hblank, split_piece hpiece hne, List.append_nil]

theorem components_parent {p r : UnixPath} (h : parent p = some r) :
    r.length < p.length ∧ ∃ name, fileName p = some name ∧ components p = components r ++ [classify name] := by
  obtain ⟨front, piece, slashes, hp, hpiece, hne, hslashes, hr⟩ := parent_eq_some h
  have hlen : 0 < piece.length := List.length_pos_iff.mpr hne
  have hbehind := split_piece_slashes hpiece hne hslashes
  refine ⟨?_, piece, by rw [hp]; exact fileName_of_pieces hpiece hne hslashes, ?_⟩
  · rw [hp, hr, List.length_append, List.length_append, List.length_cons]
    split_ifs with hempty
    · rw [List.length_singleton]
      omega
    · omega
  · rw [hp, hr, List.append_assoc, List.cons_append]
    by_cases hempty : front = []
    · have habs : isAbsolute (slash :: (piece ++ slashes)) = true := rfl
      rw [if_pos hempty, hempty, List.nil_append, components_eq, if_pos habs, split_slash, hbehind]
      rfl
    · rw [if_neg hempty, components_append hempty, hbehind]

/-- The components of a path are its pieces, a relative path that is joined adds its own, and a path with a parent is
the parent followed by the file name. -/
theorem path_algebra :
    (∀ p : UnixPath, components p =
      (if p.head? = some slash then [.rootDir] else []) ++ ((p.splitOn slash).filter (· ≠ [])).map classify) ∧
    (∀ p q : UnixPath, components (join p q) = if isAbsolute q then components q else components p ++ components q) ∧
    ∀ p r : UnixPath, parent p = some r → r.length < p.length ∧
      ∃ name, fileName p = some name ∧ components p = components r ++ [classify name] :=
  ⟨components_eq_pieces, components_join, fun _ _ h ↦ components_parent h⟩

/-- The path `//a//../`. -/
theorem path_algebra_sample : ∃ name, fileName [0x2F, 0x2F, 0x61, 0x2F, 0x2F, 0x2E, 0x2E, 0x2F] = some name ∧
    components [0x2F, 0x2F, 0x61, 0x2F, 0x2F, 0x2E, 0x2E, 0x2F] =
      components [0x2F, 0x2F, 0x61, 0x2F] ++ [classify name] :=
  (path_algebra.2.2 [0x2F, 0x2F, 0x61, 0x2F, 0x2F, 0x2E, 0x2E, 0x2F] [0x2F, 0x2F, 0x61, 0x2F] (by decide)).2

end UnixPath

end LinuxFile
