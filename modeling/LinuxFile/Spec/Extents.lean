import LinuxFile.Spec.Frame

/-!
# Extent lists

No two extents of a file hold the same file block. Adding, cutting and punching keep this, account
for every block, and change the block map of the file as one expects.
-/

namespace LinuxFile

open Ledger

theorem Clear.symm {a b : Extent} (h : Clear a b) : Clear b a := fun n hn ↦ h n ⟨hn.2, hn.1⟩

/-- Parts of clear extents are clear. -/
theorem Clear.part {a b p q : Extent} (h : Clear a b)
    (hp : ∀ n, p.logical ≤ n ∧ n < p.logicalEnd → a.logical ≤ n ∧ n < a.logicalEnd)
    (hq : ∀ n, q.logical ≤ n ∧ n < q.logicalEnd → b.logical ≤ n ∧ n < b.logicalEnd) : Clear p q :=
  fun n hn ↦ h n ⟨hp n hn.1, hq n hn.2⟩

namespace Extent

theorem Wf.physLen_eq {i : Inode} {e : Extent} (h : e.Wf i) (hraw : e.compress = 0) :
    e.physLen = e.length := by
  unfold physLen
  rcases h.raw hraw with hlen | hzero
  · rw [hlen]
    split_ifs <;> rfl
  · rw [hzero]
    rfl

theorem Wf.congr {i i' : Inode} {e : Extent} (h : e.Wf i)
    (hflags : i.flags &&& flagCompressed ≠ 0 → i'.flags &&& flagCompressed ≠ 0) : e.Wf i' :=
  ⟨h.length_lt, h.logical_le, h.raw, fun hc ↦ ⟨(h.packed hc).1, hflags (h.packed hc).2⟩, h.empty⟩

theorem map_eq_some_iff {e : Extent} {n p : ℕ} :
    e.map n = some p ↔ (e.logical ≤ n ∧ n < e.logicalEnd) ∧ p = e.physical + (n - e.logical) := by
  unfold map containsLogical
  simp only [Bool.and_eq_true, decide_eq_true_eq]
  split_ifs with h
  · rw [Option.some.injEq, eq_comm]
    exact ⟨fun hp ↦ ⟨h, hp⟩, fun hp ↦ hp.2⟩
  · simp [h]

theorem map_eq_none_iff {e : Extent} {n : ℕ} :
    e.map n = none ↔ ¬(e.logical ≤ n ∧ n < e.logicalEnd) := by
  unfold map containsLogical
  simp only [Bool.and_eq_true, decide_eq_true_eq]
  split_ifs with h <;> simp [h]

@[simp] theorem withPhys_physLen {logical physical length : ℕ} {compress : UInt8} :
    (withPhys logical physical length length compress).physLen = length := by
  unfold withPhys physLen
  dsimp only
  split_ifs <;> rfl

theorem withPhys_wf {i : Inode} {logical physical length : ℕ} (hlen : length < u32Limit)
    (hend : logical + length ≤ maxLogical) (hempty : length = 0 → physical < u64Limit) :
    (withPhys logical physical length length 0).Wf i :=
  ⟨hlen, hend, fun _ ↦ Or.inl rfl, fun h ↦ absurd rfl h, hempty⟩

end Extent

/-! ## The block map -/

theorem mapExtents_eq_none_iff {extents : List Extent} {n : ℕ} :
    mapExtents extents n = none ↔ ∀ e ∈ extents, ¬(e.logical ≤ n ∧ n < e.logicalEnd) := by
  simp only [mapExtents, List.findSome?_eq_none_iff, Extent.map_eq_none_iff]

/-- A block is mapped by the one extent that contains it. -/
theorem mapExtents_eq_some_iff {extents : List Extent} (hclear : extents.Pairwise Clear) {n p : ℕ} :
    mapExtents extents n = some p ↔ ∃ e ∈ extents, e.map n = some p := by
  constructor
  · intro h
    exact List.exists_of_findSome?_eq_some h
  · induction extents with
    | nil => simp
    | cons a rest ih =>
      rw [List.pairwise_cons] at hclear
      rintro ⟨e, he, hmap⟩
      unfold mapExtents
      rw [List.findSome?_cons]
      rcases List.mem_cons.mp he with rfl | hrest
      · rw [hmap]
      · have hnone : a.map n = none := by
          rw [Extent.map_eq_none_iff]
          intro ha
          exact hclear.1 e hrest n ⟨ha, (Extent.map_eq_some_iff.mp hmap).1⟩
        rw [hnone]
        exact ih hclear.2 ⟨e, hrest, hmap⟩

/-! ## What stands behind a block -/

/-- What stands behind a block of a file: nothing, a block of the image, or a block of a compressed record. -/
inductive Cell where
  | hole
  | raw (phys : ℕ)
  | packed (e : Extent)

def Extent.cell (e : Extent) (n : ℕ) : Cell :=
  if e.isCompressed then .packed e else .raw (e.physical + (n - e.logical))

def cellAt (extents : List Extent) (n : ℕ) : Cell :=
  match extents.find? (fun e ↦ e.containsLogical n) with
  | some e => e.cell n
  | none => .hole

theorem Extent.containsLogical_iff {e : Extent} {n : ℕ} :
    e.containsLogical n = true ↔ e.logical ≤ n ∧ n < e.logicalEnd := by
  simp [Extent.containsLogical]

theorem mem_of_find? {extents : List Extent} {e : Extent} {n : ℕ}
    (h : extents.find? (fun e ↦ e.containsLogical n) = some e) :
    e ∈ extents ∧ e.logical ≤ n ∧ n < e.logicalEnd :=
  ⟨List.mem_of_find?_eq_some h,
    Extent.containsLogical_iff.mp (List.find?_some (p := fun e : Extent ↦ e.containsLogical n) h)⟩

theorem Extent.cell_ne_hole (e : Extent) (n : ℕ) : e.cell n ≠ .hole := by
  unfold Extent.cell
  split_ifs <;> simp

theorem Extent.cell_raw {e : Extent} (h : e.compress = 0) (n : ℕ) :
    e.cell n = .raw (e.physical + (n - e.logical)) := by
  unfold Extent.cell Extent.isCompressed
  rw [h]
  rfl

theorem find?_of_mem {extents : List Extent} (hclear : extents.Pairwise Clear) {e : Extent}
    (he : e ∈ extents) {n : ℕ} (hn : e.logical ≤ n ∧ n < e.logicalEnd) :
    extents.find? (fun e ↦ e.containsLogical n) = some e := by
  induction extents with
  | nil => cases he
  | cons a rest ih =>
    rw [List.pairwise_cons] at hclear
    rcases List.mem_cons.mp he with rfl | hrest
    · exact List.find?_cons_of_pos (Extent.containsLogical_iff.mpr hn)
    · rw [List.find?_cons_of_neg]
      · exact ih hclear.2 hrest
      · intro ha
        exact hclear.1 e hrest n ⟨Extent.containsLogical_iff.mp ha, hn⟩

theorem cellAt_of_mem {extents : List Extent} (hclear : extents.Pairwise Clear) {e : Extent}
    (he : e ∈ extents) {n : ℕ} (hn : e.logical ≤ n ∧ n < e.logicalEnd) :
    cellAt extents n = e.cell n := by
  unfold cellAt
  rw [find?_of_mem hclear he hn]

theorem exists_of_cellAt {extents : List Extent} {n : ℕ} (h : cellAt extents n ≠ .hole) :
    ∃ e ∈ extents, (e.logical ≤ n ∧ n < e.logicalEnd) ∧ cellAt extents n = e.cell n := by
  unfold cellAt at *
  cases hfind : extents.find? (fun e ↦ e.containsLogical n) with
  | none =>
    rw [hfind] at h
    exact absurd rfl h
  | some e =>
    obtain ⟨he, hn⟩ := mem_of_find? hfind
    exact ⟨e, he, hn, rfl⟩

theorem cellAt_eq_hole_iff {extents : List Extent} {n : ℕ} :
    cellAt extents n = .hole ↔ ∀ e ∈ extents, ¬(e.logical ≤ n ∧ n < e.logicalEnd) := by
  unfold cellAt
  cases hfind : extents.find? (fun e ↦ e.containsLogical n) with
  | none =>
    rw [List.find?_eq_none] at hfind
    simpa [Extent.containsLogical_iff] using hfind
  | some e =>
    refine ⟨fun h ↦ absurd h (e.cell_ne_hole n), fun h ↦ ?_⟩
    obtain ⟨he, hn⟩ := mem_of_find? hfind
    exact absurd hn (h e he)

/-- A block keeps its cell when each of the two lists has an extent for it that the other knows. -/
theorem cellAt_congr {a b : List Extent} {n : ℕ} (hb : b.Pairwise Clear)
    (hab : ∀ e ∈ a, e.logical ≤ n ∧ n < e.logicalEnd →
      ∃ e' ∈ b, (e'.logical ≤ n ∧ n < e'.logicalEnd) ∧ e'.cell n = e.cell n)
    (hba : ∀ e ∈ b, e.logical ≤ n ∧ n < e.logicalEnd → ∃ e' ∈ a, e'.logical ≤ n ∧ n < e'.logicalEnd) :
    cellAt a n = cellAt b n := by
  by_cases h : cellAt a n = .hole
  · rw [h, eq_comm, cellAt_eq_hole_iff]
    intro e he hn
    obtain ⟨e', he', hn'⟩ := hba e he hn
    exact cellAt_eq_hole_iff.mp h e' he' hn'
  · obtain ⟨e, he, hn, hcell⟩ := exists_of_cellAt h
    obtain ⟨e', he', hn', hsame⟩ := hab e he hn
    rw [hcell, cellAt_of_mem hb he' hn', hsame]

theorem cellAt_perm {a b : List Extent} (h : a.Perm b) (hb : b.Pairwise Clear) (n : ℕ) :
    cellAt a n = cellAt b n :=
  cellAt_congr hb (fun e he hn ↦ ⟨e, h.mem_iff.mp he, hn, rfl⟩) fun e he hn ↦ ⟨e, h.mem_iff.mpr he, hn⟩

/-- The block map says where the raw blocks are. -/
theorem mapExtents_of_cellAt {extents : List Extent} {n : ℕ} (h : ∀ e, cellAt extents n ≠ .packed e) :
    cellAt extents n = match mapExtents extents n with
      | some phys => .raw phys
      | none => .hole := by
  induction extents with
  | nil => rfl
  | cons e rest ih =>
    by_cases hn : e.containsLogical n = true
    · have hcell : cellAt (e :: rest) n = e.cell n := by
        unfold cellAt
        rw [List.find?_cons_of_pos (p := fun e : Extent ↦ e.containsLogical n) hn]
      have hraw : ¬e.isCompressed = true := by
        intro hpacked
        refine h e ?_
        rw [hcell, Extent.cell, if_pos hpacked]
      have hmap : mapExtents (e :: rest) n = some (e.physical + (n - e.logical)) := by
        unfold mapExtents Extent.map
        rw [List.findSome?_cons, if_pos hn]
      rw [hcell, hmap, Extent.cell, if_neg hraw]
    · have hcell : cellAt (e :: rest) n = cellAt rest n := by
        unfold cellAt
        rw [List.find?_cons_of_neg (p := fun e : Extent ↦ e.containsLogical n) hn]
      have hmap : mapExtents (e :: rest) n = mapExtents rest n := by
        unfold mapExtents Extent.map
        rw [List.findSome?_cons, if_neg hn]
      rw [hcell, hmap]
      refine ih fun e' ↦ ?_
      rw [← hcell]
      exact h e'

/-! ## Sorting -/

theorem sort_perm (extents : List Extent) : (sortByLogical extents).Perm extents :=
  List.perm_insertionSort _ _

theorem sort_clear {extents : List Extent} (h : extents.Pairwise Clear) :
    (sortByLogical extents).Pairwise Clear :=
  ((sort_perm extents).pairwise_iff fun hab ↦ hab.symm).mpr h

/-! ## Taking blocks out -/

theorem cover_extentRanges_perm {a b : List Extent} (h : a.Perm b) (c : ℕ) :
    cover (extentRanges a) c = cover (extentRanges b) c := cover_perm (h.map _) c

theorem cover_extentRanges_append (a b : List Extent) (c : ℕ) :
    cover (extentRanges (a ++ b)) c = cover (extentRanges a) c + cover (extentRanges b) c := by
  unfold extentRanges
  rw [List.map_append, cover_append]

theorem cover_extentRanges_single (e : Extent) (c : ℕ) :
    cover (extentRanges [e]) c = span e.physical e.physLen c := by
  simp [extentRanges]

theorem mem_punchKeep {a z : ℕ} {e p : Extent} (h : p ∈ punchKeep a z e) :
    (p = e ∧ (e.logicalEnd ≤ a ∨ z ≤ e.logical)) ∨ (e.isCompressed = false ∧
      ∃ n len, 0 < len ∧ len ≤ e.length ∧ e.logical ≤ n ∧ n + len ≤ e.logicalEnd ∧
        (n + len ≤ a ∨ z ≤ n) ∧ p = Extent.withPhys n (e.physical + (n - e.logical)) len len 0) := by
  unfold punchKeep at h
  split_ifs at h with hout hpacked hleft hright hright
  · exact Or.inl ⟨List.mem_singleton.mp h, hout⟩
  · cases h
  all_goals
    have hraw : e.isCompressed = false := by simpa using hpacked
    unfold Extent.logicalEnd at *
  · rcases List.mem_append.mp h with h | h
    · refine Or.inr ⟨hraw, e.logical, a - e.logical, by omega, by omega, le_rfl, by omega, by omega, ?_⟩
      rw [List.mem_singleton.mp h, Nat.sub_self, Nat.add_zero]
    · refine Or.inr ⟨hraw, z, e.logical + e.length - z, by omega, by omega, by omega, by omega, by omega, ?_⟩
      rw [List.mem_singleton.mp h]
  · refine Or.inr ⟨hraw, e.logical, a - e.logical, by omega, by omega, le_rfl, by omega, by omega, ?_⟩
    rw [List.append_nil] at h
    rw [List.mem_singleton.mp h, Nat.sub_self, Nat.add_zero]
  · refine Or.inr ⟨hraw, z, e.logical + e.length - z, by omega, by omega, by omega, by omega, by omega, ?_⟩
    rw [List.nil_append] at h
    rw [List.mem_singleton.mp h]
  · cases h

theorem punch_cover {i : Inode} {e : Extent} (he : e.Wf i) {a z : ℕ} (haz : a < z) (b : ℕ) :
    cover (extentRanges (punchKeep a z e)) b + cover (punchFree a z e) b =
      span e.physical e.physLen b := by
  unfold punchKeep punchFree
  by_cases hout : e.logicalEnd ≤ a ∨ z ≤ e.logical
  · rw [if_pos hout, if_pos hout, cover_extentRanges_single, cover_nil, Nat.add_zero]
  · rw [if_neg hout, if_neg hout]
    by_cases hpacked : e.isCompressed = true
    · rw [if_pos hpacked, if_pos hpacked]
      simp [extentRanges]
    · rw [if_neg hpacked, if_neg hpacked, he.physLen_eq (by simpa [Extent.isCompressed] using hpacked)]
      unfold Extent.logicalEnd at *
      rw [cover_extentRanges_append]
      -- the extent is the part before the hole, the hole and the part after it
      have hsplit := span_add e.physical (max a e.logical - e.logical)
        (e.length - (max a e.logical - e.logical)) b
      have hsplit' := span_add (e.physical + (max a e.logical - e.logical))
        (min z (e.logical + e.length) - max a e.logical)
        (e.logical + e.length - min z (e.logical + e.length)) b
      rw [show max a e.logical - e.logical + (e.length - (max a e.logical - e.logical)) = e.length by
        omega] at hsplit
      rw [show min z (e.logical + e.length) - max a e.logical +
        (e.logical + e.length - min z (e.logical + e.length)) =
          e.length - (max a e.logical - e.logical) by omega] at hsplit'
      have hmid : cover (if max a e.logical < min z (e.logical + e.length) then
          [(e.physical + (max a e.logical - e.logical),
            min z (e.logical + e.length) - max a e.logical)] else []) b =
          span (e.physical + (max a e.logical - e.logical))
            (min z (e.logical + e.length) - max a e.logical) b := by
        split_ifs with h
        · rw [cover_cons, cover_nil, Nat.add_zero]
        · -- only an extent of no blocks lies inside the range without meeting it
          rw [Nat.sub_eq_zero_of_le (not_lt.mp h), span_zero, cover_nil]
      rw [hsplit, hsplit']
      dsimp only
      rw [hmid]
      have hleft : cover (extentRanges (if e.logical < a then [Extent.withPhys e.logical e.physical
          (a - e.logical) (a - e.logical) 0] else [])) b =
          span e.physical (max a e.logical - e.logical) b := by
        split_ifs with h
        · rw [cover_extentRanges_single, Extent.withPhys_physLen, max_eq_left (by omega)]
          rfl
        · rw [max_eq_right (by omega), Nat.sub_self, span_zero]
          rfl
      have hright : cover (extentRanges (if z < e.logical + e.length then [Extent.withPhys z
          (e.physical + (z - e.logical)) (e.logical + e.length - z) (e.logical + e.length - z) 0]
          else [])) b = span (e.physical + (max a e.logical - e.logical) +
            (min z (e.logical + e.length) - max a e.logical))
            (e.logical + e.length - min z (e.logical + e.length)) b := by
        split_ifs with h
        · rw [cover_extentRanges_single, Extent.withPhys_physLen, min_eq_left (by omega),
            show e.physical + (max a e.logical - e.logical) + (z - max a e.logical) =
              e.physical + (z - e.logical) by omega]
          rfl
        · rw [min_eq_right (by omega), Nat.sub_self, span_zero]
          rfl
      rw [hleft, hright]
      omega

/-- What a list of extents keeps and what it gives back. -/
theorem cover_flatMap {keep : Extent → List Extent} {free : Extent → List (ℕ × ℕ)} {b : ℕ}
    (extents : List Extent) (h : ∀ e ∈ extents, cover (extentRanges (keep e)) b + cover (free e) b =
      span e.physical e.physLen b) :
    cover (extentRanges (extents.flatMap keep)) b + cover (extents.flatMap free) b =
      cover (extentRanges extents) b := by
  induction extents with
  | nil => rfl
  | cons e rest ih =>
    have hrest := ih fun e' he' ↦ h e' (List.mem_cons_of_mem _ he')
    have hhead := h e List.mem_cons_self
    rw [List.flatMap_cons, List.flatMap_cons, cover_extentRanges_append, cover_append,
      show e :: rest = [e] ++ rest from rfl, cover_extentRanges_append, cover_extentRanges_single]
    omega

/-- Pieces of clear extents, clear within each extent, are clear. -/
theorem flatMap_clear {keep : Extent → List Extent} {extents : List Extent}
    (hclear : extents.Pairwise Clear) (hinner : ∀ e ∈ extents, (keep e).Pairwise Clear)
    (hinside : ∀ e ∈ extents, ∀ p ∈ keep e, e.logical ≤ p.logical ∧ p.logicalEnd ≤ e.logicalEnd) :
    (extents.flatMap keep).Pairwise Clear := by
  rw [List.pairwise_flatMap]
  refine ⟨hinner, hclear.imp_of_mem ?_⟩
  intro a b ha hb hab p hp q hq
  have h1 := hinside a ha p hp
  have h2 := hinside b hb q hq
  exact hab.part (fun n hn ↦ by omega) (fun n hn ↦ by omega)

/-- Cutting `[a, z)` out leaves the other blocks alone, if no compressed extent straddles a bound. -/
theorem punch_cell {extents : List Extent} (hclear : extents.Pairwise Clear) {a z : ℕ}
    (hpacked : ∀ e ∈ extents, e.isCompressed = true → e.logicalEnd ≤ a ∨ z ≤ e.logical ∨
      a ≤ e.logical ∧ e.logicalEnd ≤ z) (n : ℕ) :
    cellAt (extents.flatMap (punchKeep a z)) n = if a ≤ n ∧ n < z then .hole else cellAt extents n := by
  split_ifs with hin
  · rw [cellAt_eq_hole_iff]
    intro p hp hn
    obtain ⟨e, he, hpe⟩ := List.mem_flatMap.mp hp
    rcases mem_punchKeep hpe with ⟨rfl, hout⟩ | ⟨-, m, len, -, -, -, -, hout, rfl⟩
    · omega
    · change m ≤ n ∧ n < m + len at hn
      omega
  · apply cellAt_congr hclear
    · intro p hp hn
      obtain ⟨e, he, hpe⟩ := List.mem_flatMap.mp hp
      rcases mem_punchKeep hpe with ⟨rfl, -⟩ | ⟨hraw, m, len, -, -, hlow, hhigh, -, rfl⟩
      · exact ⟨p, he, hn, rfl⟩
      · change m ≤ n ∧ n < m + len at hn
        refine ⟨e, he, by omega, ?_⟩
        have hzero : e.compress = 0 := by simpa [Extent.isCompressed] using hraw
        rw [Extent.cell_raw hzero, Extent.cell_raw rfl]
        change Cell.raw (e.physical + (n - e.logical)) = .raw (e.physical + (m - e.logical) + (n - m))
        congr 1
        omega
    · intro e he hn
      by_cases hout : e.logicalEnd ≤ a ∨ z ≤ e.logical
      · refine ⟨e, List.mem_flatMap.mpr ⟨e, he, ?_⟩, hn⟩
        unfold punchKeep
        rw [if_pos hout]
        exact List.mem_singleton_self e
      · have hraw : ¬e.isCompressed = true := fun hp ↦ by
          have := hpacked e he hp
          omega
        by_cases hleft : n < a
        · refine ⟨Extent.withPhys e.logical e.physical (a - e.logical) (a - e.logical) 0,
            List.mem_flatMap.mpr ⟨e, he, ?_⟩, ?_⟩
          · unfold punchKeep
            rw [if_neg hout, if_neg hraw, if_pos (by omega)]
            simp
          · change e.logical ≤ n ∧ n < e.logical + (a - e.logical)
            omega
        · refine ⟨Extent.withPhys z (e.physical + (z - e.logical)) (e.logicalEnd - z) (e.logicalEnd - z) 0,
            List.mem_flatMap.mpr ⟨e, he, ?_⟩, ?_⟩
          · unfold punchKeep
            rw [if_neg hout, if_neg hraw, if_pos (show z < e.logicalEnd by omega)]
            simp
          · change z ≤ n ∧ n < z + (e.logicalEnd - z)
            omega

/-- The extents of a file after the logical range `[a, z)` was cut out. -/
structure Punched (i : Inode) (a z : ℕ) (extents : List Extent) : Prop where
  wf : ∀ e ∈ extents, e.Wf i
  clear : extents.Pairwise Clear
  cover : ∀ b, cover (extentRanges extents) b + cover (i.extents.flatMap (punchFree a z)) b =
    cover (extentRanges i.extents) b
  packed : ∀ e ∈ extents, e.isCompressed = true → e ∈ i.extents
  raw : (∀ e ∈ i.extents, e.compress = 0) → ∀ e ∈ extents, e.compress = 0
  outside : ∀ e ∈ extents, e.logicalEnd ≤ a ∨ z ≤ e.logical
  cell : (∀ e ∈ i.extents, e.isCompressed = true → e.logicalEnd ≤ a ∨ z ≤ e.logical ∨
    a ≤ e.logical ∧ e.logicalEnd ≤ z) →
    ∀ n, cellAt extents n = if a ≤ n ∧ n < z then .hole else cellAt i.extents n

theorem punched_of_wf {i : Inode} (hwf : i.Wf) {a z : ℕ} (haz : a < z) :
    Punched i a z (i.extents.flatMap (punchKeep a z)) := by
  have hmem : ∀ p ∈ i.extents.flatMap (punchKeep a z), ∃ e ∈ i.extents, p ∈ punchKeep a z e :=
    fun p hp ↦ List.mem_flatMap.mp hp
  have hinside : ∀ e ∈ i.extents, ∀ p ∈ punchKeep a z e,
      e.logical ≤ p.logical ∧ p.logicalEnd ≤ e.logicalEnd := by
    intro e _ p hp
    rcases mem_punchKeep hp with ⟨rfl, -⟩ | ⟨-, n, len, -, -, hlow, hhigh, -, rfl⟩
    · exact ⟨le_rfl, le_rfl⟩
    · exact ⟨hlow, hhigh⟩
  refine ⟨fun p hp ↦ ?_, ?_, fun b ↦ ?_, fun p hp hpacked ↦ ?_, fun hraw p hp ↦ ?_, fun p hp ↦ ?_,
    fun hpacked n ↦ punch_cell hwf.clear hpacked n⟩
  · obtain ⟨e, he, hpe⟩ := hmem p hp
    have hwe := hwf.extents e he
    rcases mem_punchKeep hpe with ⟨rfl, -⟩ | ⟨-, n, len, hpos, hlen, hlow, hhigh, -, rfl⟩
    · exact hwe
    · have hlt := hwe.length_lt
      have hle := hwe.logical_le
      exact Extent.withPhys_wf (by omega) (by omega) (by omega)
  · refine flatMap_clear hwf.clear (fun e he ↦ ?_) hinside
    unfold punchKeep
    split_ifs
    · exact List.pairwise_singleton _ _
    · exact List.Pairwise.nil
    · rw [List.pairwise_append]
      refine ⟨List.pairwise_singleton _ _, List.pairwise_singleton _ _, ?_⟩
      intro p hp q hq
      rw [List.mem_singleton.mp hp, List.mem_singleton.mp hq]
      intro n
      unfold Extent.logicalEnd Extent.withPhys
      dsimp only
      omega
    all_goals simp
  · exact cover_flatMap i.extents fun e he ↦ punch_cover (hwf.extents e he) haz b
  · obtain ⟨e, he, hpe⟩ := hmem p hp
    rcases mem_punchKeep hpe with ⟨rfl, -⟩ | ⟨-, n, len, -, -, -, -, -, rfl⟩
    · exact he
    · simp [Extent.isCompressed, Extent.withPhys] at hpacked
  · obtain ⟨e, he, hpe⟩ := hmem p hp
    rcases mem_punchKeep hpe with ⟨rfl, -⟩ | ⟨-, n, len, -, -, -, -, -, rfl⟩
    · exact hraw _ he
    · rfl
  · obtain ⟨e, he, hpe⟩ := hmem p hp
    rcases mem_punchKeep hpe with ⟨rfl, hout⟩ | ⟨-, n, len, -, -, -, -, hout, rfl⟩
    · exact hout
    · exact hout

theorem Punched.sort {i : Inode} {a z : ℕ} {extents : List Extent} (h : Punched i a z extents) :
    Punched i a z (sortByLogical extents) := by
  have hmem : ∀ e, e ∈ sortByLogical extents ↔ e ∈ extents := fun e ↦ (sort_perm extents).mem_iff
  refine ⟨fun e he ↦ h.wf e ((hmem e).mp he), sort_clear h.clear, fun b ↦ ?_,
    fun e he ↦ h.packed e ((hmem e).mp he), fun hraw e he ↦ h.raw hraw e ((hmem e).mp he),
    fun e he ↦ h.outside e ((hmem e).mp he), fun hpacked n ↦ ?_⟩
  · rw [cover_extentRanges_perm (sort_perm extents)]
    exact h.cover b
  · rw [cellAt_perm (sort_perm extents) h.clear]
    exact h.cell hpacked n

/-- The extents of a raw file cut at a block. -/
structure Cut (i : Inode) (firstDrop : ℕ) (extents : List Extent) : Prop where
  wf : ∀ e ∈ extents, e.Wf i
  clear : extents.Pairwise Clear
  cover : ∀ b, cover (extentRanges extents) b + cover (i.extents.flatMap (cutFree firstDrop)) b =
    cover (extentRanges i.extents) b
  raw : ∀ e ∈ extents, e.compress = 0
  cell : ∀ n, cellAt extents n = if n < firstDrop then cellAt i.extents n else .hole

theorem cut_of_wf {i : Inode} (hwf : i.Wf) (hraw : ∀ e ∈ i.extents, e.compress = 0) (firstDrop : ℕ) :
    Cut i firstDrop (i.extents.flatMap (cutKeep firstDrop)) := by
  have hpiece : ∀ e ∈ i.extents, ∀ p ∈ cutKeep firstDrop e, p.Wf i ∧ p.compress = 0 ∧
      p.physical = e.physical ∧ p.logical = e.logical ∧ p.logicalEnd = min e.logicalEnd firstDrop := by
    intro e he p hp
    have hwe := hwf.extents e he
    unfold cutKeep at hp
    split_ifs at hp with hbelow habove
    · rw [List.mem_singleton.mp hp]
      exact ⟨hwe, hraw e he, rfl, rfl, by omega⟩
    · cases hp
    · rw [List.mem_singleton.mp hp]
      have h1 := hwe.length_lt
      have h2 := hwe.logical_le
      unfold Extent.logicalEnd at *
      refine ⟨Extent.withPhys_wf (by omega) (by omega) (by omega), rfl, rfl, rfl, ?_⟩
      unfold Extent.withPhys
      dsimp only
      omega
  have hclear : (i.extents.flatMap (cutKeep firstDrop)).Pairwise Clear := by
    refine flatMap_clear hwf.clear (fun e he ↦ ?_) (fun e he p hp ↦ ?_)
    · unfold cutKeep
      split_ifs
      · exact List.pairwise_singleton _ _
      · exact List.Pairwise.nil
      · exact List.pairwise_singleton _ _
    · obtain ⟨-, -, -, hlog, hend⟩ := hpiece e he p hp
      omega
  refine ⟨fun p hp ↦ ?_, hclear, fun b ↦ ?_, fun p hp ↦ ?_, fun n ↦ ?_⟩
  · obtain ⟨e, he, hpe⟩ := List.mem_flatMap.mp hp
    exact (hpiece e he p hpe).1
  · refine cover_flatMap i.extents fun e he ↦ ?_
    have hwe := hwf.extents e he
    unfold cutKeep cutFree
    split_ifs with hbelow habove
    · rw [cover_extentRanges_single, cover_nil, Nat.add_zero]
    · simp [extentRanges]
    · rw [cover_extentRanges_single, Extent.withPhys_physLen, cover_cons, cover_nil,
        hwe.physLen_eq (hraw e he)]
      unfold Extent.logicalEnd at *
      have hsplit := span_add e.physical (firstDrop - e.logical)
        (e.length - (firstDrop - e.logical)) b
      rw [show firstDrop - e.logical + (e.length - (firstDrop - e.logical)) = e.length by omega]
        at hsplit
      rw [hsplit]
      rfl
  · obtain ⟨e, he, hpe⟩ := List.mem_flatMap.mp hp
    exact (hpiece e he p hpe).2.1
  · split_ifs with hn
    · apply cellAt_congr hwf.clear
      · intro q hq hin
        obtain ⟨e, he, hqe⟩ := List.mem_flatMap.mp hq
        obtain ⟨-, hqraw, hphys, hlog, hend⟩ := hpiece e he q hqe
        refine ⟨e, he, by omega, ?_⟩
        rw [Extent.cell_raw (hraw e he), Extent.cell_raw hqraw, hphys, hlog]
      · intro e he hin
        obtain ⟨q, hq⟩ : ∃ q, q ∈ cutKeep firstDrop e := by
          unfold cutKeep
          split_ifs with hbelow habove
          · exact ⟨e, by simp⟩
          · omega
          · exact ⟨_, List.mem_singleton_self _⟩
        obtain ⟨-, -, -, hlog, hend⟩ := hpiece e he q hq
        exact ⟨q, List.mem_flatMap.mpr ⟨e, he, hq⟩, by omega⟩
    · rw [cellAt_eq_hole_iff]
      intro q hq
      obtain ⟨e, he, hqe⟩ := List.mem_flatMap.mp hq
      obtain ⟨-, -, -, -, hend⟩ := hpiece e he q hqe
      omega

/-! ## Adding an extent -/

/-- The extent list after one more extent. -/
structure Added (i : Inode) (ext : Extent) (extents : List Extent) : Prop where
  wf : ∀ e ∈ extents, e.Wf i
  clear : extents.Pairwise Clear
  cover : ∀ b, cover (extentRanges extents) b =
    cover (extentRanges i.extents) b + span ext.physical ext.physLen b
  packed : ∀ e ∈ extents, e.isCompressed = true → e ∈ i.extents ∨ e = ext
  raw : (∀ e ∈ i.extents, e.compress = 0) → ext.compress = 0 → ∀ e ∈ extents, e.compress = 0
  cell : ∀ n, cellAt extents n =
    if ext.logical ≤ n ∧ n < ext.logicalEnd then ext.cell n else cellAt i.extents n
  nonempty : extents ≠ []

theorem added_sorted {i : Inode} (hwf : i.Wf) {ext : Extent} (hext : ext.Wf i)
    (hnew : ∀ e ∈ i.extents, Clear e ext) :
    Added i ext (sortByLogical (i.extents ++ [ext])) := by
  have hperm := sort_perm (i.extents ++ [ext])
  have hall : ∀ e ∈ sortByLogical (i.extents ++ [ext]), e ∈ i.extents ∨ e = ext := by
    intro e he
    simpa using hperm.mem_iff.mp he
  have hclear : (sortByLogical (i.extents ++ [ext])).Pairwise Clear := by
    apply sort_clear
    rw [List.pairwise_append]
    refine ⟨hwf.clear, List.pairwise_singleton _ _, ?_⟩
    intro a ha b hb
    rw [List.mem_singleton.mp hb]
    exact hnew a ha
  refine ⟨fun e he ↦ ?_, hclear, fun b ↦ ?_, fun e he _ ↦ hall e he, fun hraw hextraw e he ↦ ?_,
    fun n ↦ ?_, ?_⟩
  · rcases hall e he with h | rfl
    · exact hwf.extents e h
    · exact hext
  · rw [cover_extentRanges_perm hperm, cover_extentRanges_append, cover_extentRanges_single]
  · rcases hall e he with h | rfl
    · exact hraw e h
    · exact hextraw
  · split_ifs with hin
    · exact cellAt_of_mem hclear (hperm.mem_iff.mpr (by simp)) hin
    · apply cellAt_congr hwf.clear
      · intro e he hn
        rcases hall e he with h | rfl
        · exact ⟨e, h, hn, rfl⟩
        · exact absurd hn hin
      · intro e he hn
        exact ⟨e, hperm.mem_iff.mpr (by simp [he]), hn⟩
  · intro hnil
    have : ext ∈ sortByLogical (i.extents ++ [ext]) := hperm.mem_iff.mpr (by simp)
    rw [hnil] at this
    cases this

/-- The last extent made longer. -/
theorem added_merged {i : Inode} (hwf : i.Wf) {ext last : Extent} (hext : ext.Wf i)
    (hapart : ∀ e ∈ i.extents, Clear e ext)
    {front : List Extent} (hsplit : i.extents = front ++ [last]) (hraw : last.compress = 0)
    (hextraw : ext.compress = 0) (hlog : last.logicalEnd = ext.logical)
    (hphys : last.physical + last.physLen = ext.physical)
    (hlen : last.length + ext.length < u32Limit) {physLength : ℕ}
    (hnew : physLength = last.length + ext.length ∨ physLength = 0) :
    Added i ext (front ++ [{ last with length := last.length + ext.length, physLength := physLength }]) := by
  have hlast : last ∈ i.extents := by
    rw [hsplit]
    simp
  have hwlast := hwf.extents last hlast
  have hlastLen := hwlast.physLen_eq hraw
  have hextLen := hext.physLen_eq hextraw
  rw [hlastLen] at hphys
  set merged : Extent :=
    { last with length := last.length + ext.length, physLength := physLength } with hmerged
  have hmergedLen : merged.physLen = last.length + ext.length := by
    unfold Extent.physLen
    rcases hnew with h | h
    · rw [hmerged, h]
      dsimp only
      split_ifs <;> rfl
    · rw [hmerged, h]
      rfl
  have hfront : ∀ e ∈ front, e ∈ i.extents := by
    intro e he
    rw [hsplit]
    simp [he]
  have hmergedEnd : merged.logicalEnd = ext.logicalEnd := by
    unfold Extent.logicalEnd at *
    rw [hmerged]
    dsimp only
    omega
  have hold := hwf.clear
  rw [hsplit, List.pairwise_append] at hold
  have hclear : (front ++ [merged]).Pairwise Clear := by
    rw [List.pairwise_append]
    refine ⟨hold.1, List.pairwise_singleton _ _, ?_⟩
    intro a ha b hb n
    rw [List.mem_singleton.mp hb]
    have h1 := hold.2.2 a ha last (by simp) n
    have h2 := hapart a (hfront a ha) n
    change ¬((a.logical ≤ n ∧ n < a.logicalEnd) ∧ last.logical ≤ n ∧ n < merged.logicalEnd)
    omega
  have hmem : ∀ e ∈ front ++ [merged], e ∈ front ∨ e = merged := by
    intro e he
    simpa using he
  refine ⟨fun e he ↦ ?_, hclear, fun b ↦ ?_, fun e he hpacked ↦ ?_, fun hall _ e he ↦ ?_, fun n ↦ ?_,
    by simp⟩
  · rcases hmem e he with h | rfl
    · exact hwf.extents e (hfront e h)
    · refine ⟨hlen, ?_, fun _ ↦ hnew, fun h ↦ absurd hraw h, fun hzero ↦ ?_⟩
      swap
      · change last.length + ext.length = 0 at hzero
        exact hwlast.empty (by omega)
      have hend := hext.logical_le
      unfold Extent.logicalEnd at hend hlog ⊢
      change last.logical + (last.length + ext.length) ≤ maxLogical
      omega
  · rw [hsplit, cover_extentRanges_append, cover_extentRanges_append, cover_extentRanges_single,
      cover_extentRanges_single, hmergedLen, hlastLen, hextLen, ← hphys,
      show merged.physical = last.physical from rfl, span_add]
    omega
  · rcases hmem e he with h | rfl
    · exact Or.inl (hfront e h)
    · simp [Extent.isCompressed, hmerged, hraw] at hpacked
  · rcases hmem e he with h | rfl
    · exact hall e (hfront e h)
    · exact hraw
  · split_ifs with hin
    · rw [cellAt_of_mem hclear (e := merged) (by simp) ⟨?_, by omega⟩,
        Extent.cell_raw (e := merged) hraw, Extent.cell_raw hextraw]
      · change Cell.raw (last.physical + (n - last.logical)) = _
        unfold Extent.logicalEnd at hlog
        congr 1
        omega
      · change last.logical ≤ n
        unfold Extent.logicalEnd at hlog
        omega
    · have hin' : (merged.logical ≤ n ∧ n < merged.logicalEnd) ↔ last.logical ≤ n ∧ n < last.logicalEnd := by
        change (last.logical ≤ n ∧ n < merged.logicalEnd) ↔ _
        have hle : ext.logical ≤ ext.logicalEnd := Nat.le_add_right _ _
        omega
      rw [hsplit]
      apply cellAt_congr (hsplit ▸ hwf.clear)
      · intro e he hn
        rcases hmem e he with h | rfl
        · exact ⟨e, by simp [h], hn, rfl⟩
        · refine ⟨last, by simp, hin'.mp hn, ?_⟩
          rw [Extent.cell_raw hraw, Extent.cell_raw (e := merged) hraw]
      · intro e he hn
        rcases List.mem_append.mp he with h | h
        · exact ⟨e, by simp [h], hn⟩
        · rw [List.mem_singleton.mp h] at hn
          exact ⟨merged, by simp, hin'.mpr hn⟩

namespace Inner

theorem holds_addU32 {σ : Type} {a b : ℕ} {s : σ} {Q : ℕ → σ → Prop} {E : Error → σ → Prop}
    (h : a + b < u32Limit → Q (a + b) s) : (addU32 a b : Exec Error σ ℕ).Holds s Q E := by
  unfold addU32
  split_ifs with hlt
  · trivial
  · exact h (by omega)

theorem appendExtent_spec {s : Inner} {i : Inode} (hwf : i.Wf) {ext : Extent} (hext : ext.Wf i)
    (hnew : ∀ e ∈ i.extents, Clear e ext) :
    (appendExtent i.extents ext).Holds s (fun extents t ↦ t = s ∧ Added i ext extents)
      (fun _ _ ↦ False) := by
  unfold appendExtent
  cases hlast : i.extents.getLast? with
  | none => exact ⟨rfl, added_sorted hwf hext hnew⟩
  | some last =>
    by_cases hcont : continues last ext = true
    · have hsplit : i.extents = i.extents.dropLast ++ [last] :=
        (List.dropLast_append_getLast? last hlast).symm
      dsimp only
      rw [if_pos hcont, Exec.holds_bind]
      simp only [continues, Bool.and_eq_true, beq_iff_eq] at hcont
      obtain ⟨⟨⟨⟨hextraw, hextlen⟩, hraw⟩, hlog⟩, hmeet⟩ := hcont
      have hwlast := hwf.extents last (by rw [hsplit]; simp)
      apply holds_addU32
      intro hlen
      by_cases hzero : last.physLength = 0
      · rw [if_neg (by simpa using hzero), Exec.holds_bind, Exec.holds_pure, Exec.holds_pure]
        exact ⟨rfl, added_merged hwf hext hnew hsplit hraw hextraw hlog hmeet hlen (Or.inr hzero)⟩
      · rw [if_pos hzero, Exec.holds_bind]
        apply holds_addU32
        intro _
        refine ⟨rfl, added_merged hwf hext hnew hsplit hraw hextraw hlog hmeet hlen (Or.inl ?_)⟩
        rcases hwlast.raw hraw with h | h
        · omega
        · exact absurd h hzero
    · dsimp only
      rw [if_neg hcont]
      exact ⟨rfl, added_sorted hwf hext hnew⟩

end Inner

end LinuxFile
