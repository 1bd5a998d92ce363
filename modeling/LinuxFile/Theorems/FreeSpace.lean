import LinuxFile.Library.Gapped
import LinuxFile.Spec.Alloc

/-!
# The free blocks as a set

The reference allocator is a set of free blocks and a number of blocks in all. It serves a request from the smallest
run of free blocks that is long enough, the lowest one among equals, and grows only when there is none. The free map
follows it: its extents are the runs of the set.
-/

namespace LinuxFile

/-- The free blocks and the number of blocks in all. -/
structure Reference where
  free : Set ℕ
  total : ℕ

/-- A call of the allocator with what it returned. -/
inductive AllocEvent where
  | allocated (want start : ℕ)
  | freed (start len : ℕ)
  | shrunk

/-- A range of blocks that are handed out: in the data area and not free. -/
def HandedOut (low : ℕ) (free : Set ℕ) (total start len : ℕ) : Prop :=
  ∀ b ∈ Set.Ico start (start + len), low ≤ b ∧ b < total ∧ b ∉ free

/-- What the reference allocator does. -/
inductive Reference.Step (low : ℕ) : Reference → AllocEvent → Reference → Prop
  | fit {r : Reference} {want s n : ℕ} (hwant : 0 < want) (hrun : IsRun r.free s n) (hle : want ≤ n)
      (hbest : ∀ t k, IsRun r.free t k → want ≤ k → n < k ∨ n = k ∧ s ≤ t) :
      Step low r (.allocated want s) ⟨r.free \ Set.Ico s (s + want), r.total⟩
  | grow {r : Reference} {want total : ℕ} (hwant : 0 < want) (hnone : ∀ s n, IsRun r.free s n → n < want)
      (hle : r.total + want ≤ total) :
      Step low r (.allocated want r.total) ⟨r.free ∪ Set.Ico (r.total + want) total, total⟩
  | free {r : Reference} {start len : ℕ} (hout : HandedOut low r.free r.total start len) :
      Step low r (.freed start len) ⟨r.free ∪ Set.Ico start (start + len), r.total⟩
  | keep {r : Reference} : Step low r .shrunk r
  | shrink {r : Reference} {total : ℕ} (hle : total ≤ r.total) (hfree : Set.Ico total r.total ⊆ r.free) :
      Step low r .shrunk ⟨r.free \ Set.Ico total r.total, total⟩

/-- The reference allocator over a list of calls. -/
inductive Reference.Steps (low : ℕ) : Reference → List AllocEvent → Reference → Prop
  | nil (r : Reference) : Steps low r [] r
  | snoc {r r' r'' : Reference} {events : List AllocEvent} {event : AllocEvent} (h : Steps low r events r')
      (hstep : Step low r' event r'') : Steps low r (events ++ [event]) r''

/-- The call, made in this state, ends in that one. The length of the image that a request may need has 64 bits; what is
freed must have been handed out. -/
def AllocEvent.Happens (low : ℕ) : AllocEvent → AllocImage → AllocImage → Prop
  | .allocated want start, d, d' => (d.alloc.totalBlocks + want) * blockSize < 2 ^ 64 ∧
      Allocator.allocate want d = .ok start d'
  | .freed start len, d, d' => HandedOut low d.alloc.free.cells d.alloc.totalBlocks start len ∧
      d' = { d with alloc := d.alloc.freeRange start len }
  | .shrunk, d, d' => ∃ done, Allocator.maybeShrink d = .ok done d'

/-- A run of calls that succeed. -/
inductive AllocRun (low : ℕ) : AllocImage → List AllocEvent → AllocImage → Prop
  | nil (d : AllocImage) : AllocRun low d [] d
  | snoc {d d' d'' : AllocImage} {events : List AllocEvent} {event : AllocEvent} (h : AllocRun low d events d')
      (hstep : event.Happens low d' d'') : AllocRun low d (events ++ [event]) d''

namespace Allocator

/-- The free map is an exact set of blocks of the data area, and the image holds every block. -/
structure Exact (low : ℕ) (d : AllocImage) : Prop where
  gapped : Gapped d.alloc.free
  inside : ∀ b ∈ d.alloc.free.cells, low ≤ b ∧ b < d.alloc.totalBlocks
  low_le : low ≤ d.alloc.totalBlocks
  backed : d.alloc.totalBlocks * blockSize ≤ d.image.len

/-- The reference allocator that a state stands for. -/
def reference (d : AllocImage) : Reference := ⟨d.alloc.free.cells, d.alloc.totalBlocks⟩

variable {low : ℕ} {d d' : AllocImage}

/-! ## Best fit -/

/-- The best entry of a list for a request: the shortest that is long enough, the first among equals. -/
def Best (want : ℕ) (entries : List (ℕ × ℕ)) : Option (ℕ × ℕ) → Prop
  | none => ∀ e ∈ entries, e.2 < want
  | some r => r ∈ entries ∧ want ≤ r.2 ∧ ∀ e ∈ entries, want ≤ e.2 → r.2 < e.2 ∨ r.2 = e.2 ∧ r.1 ≤ e.1

/-- The scan keeps the best of what it has seen. -/
theorem bestFit_best (want : ℕ) (rest : List (ℕ × ℕ)) : ∀ (seen : List (ℕ × ℕ)) (best : Option (ℕ × ℕ)),
    (seen ++ rest).Pairwise (fun a b ↦ a.1 < b.1) → Best want seen best →
    Best want (seen ++ rest) (bestFit want rest best) := by
  induction rest with
  | nil =>
    intro seen best _ hbest
    rw [List.append_nil]
    exact hbest
  | cons e rest ih =>
    intro seen best hsorted hbest
    obtain ⟨start, len⟩ := e
    have hlast : ∀ a ∈ seen, a.1 < start := fun a ha ↦ (List.pairwise_append.mp hsorted).2.2 a ha _ List.mem_cons_self
    have happend : seen ++ (start, len) :: rest = seen ++ [(start, len)] ++ rest := by
      rw [List.append_assoc, List.singleton_append]
    unfold bestFit
    by_cases hfit : want ≤ len ∧ (best.all fun b ↦ decide (len < b.2)) = true
    · rw [if_pos hfit]
      -- everything seen that is long enough is longer
      have hlonger : ∀ a ∈ seen, want ≤ a.2 → len < a.2 := by
        intro a ha hle
        cases best with
        | none => exact absurd (hbest a ha) (by omega)
        | some b =>
          have hlt : len < b.2 := by simpa using hfit.2
          rcases hbest.2.2 a ha hle with h | h <;> omega
      have hnext : Best want (seen ++ [(start, len)]) (some (start, len)) := by
        refine ⟨List.mem_append_right _ List.mem_cons_self, hfit.1, fun a ha hle ↦ ?_⟩
        rcases List.mem_append.mp ha with ha | ha
        · exact Or.inl (hlonger a ha hle)
        · rw [List.mem_singleton.mp ha]
          exact Or.inr ⟨rfl, le_rfl⟩
      split_ifs with hexact
      · rw [happend]
        refine ⟨List.mem_append_left _ hnext.1, hfit.1, fun a ha hle ↦ ?_⟩
        rcases List.mem_append.mp ha with ha | ha
        · exact hnext.2.2 a ha hle
        · have hafter : start < a.1 := by
            have hrest := (List.pairwise_append.mp hsorted).2.1
            exact (List.pairwise_cons.mp hrest).1 a ha
          dsimp only
          omega
      · rw [happend]
        exact ih _ _ (by rw [← happend]; exact hsorted) hnext
    · rw [if_neg hfit, happend]
      apply ih _ _ (by rw [← happend]; exact hsorted)
      cases best with
      | none =>
        intro a ha
        rcases List.mem_append.mp ha with ha | ha
        · exact hbest a ha
        · rw [List.mem_singleton.mp ha]
          by_contra hle
          exact hfit ⟨by dsimp only at hle; omega, rfl⟩
      | some b =>
        refine ⟨List.mem_append_left _ hbest.1, hbest.2.1, fun a ha hle ↦ ?_⟩
        rcases List.mem_append.mp ha with ha | ha
        · exact hbest.2.2 a ha hle
        · rw [List.mem_singleton.mp ha] at hle ⊢
          have hb := hlast b hbest.1
          have hshort : ¬len < b.2 := fun hlt ↦ hfit ⟨hle, by simpa using hlt⟩
          dsimp only
          omega

/-! ## Allocation -/

/-- An entry is carved: the rest stays, and touches nothing. -/
theorem carve_cells {a : Allocator} (h : Gapped a.free) {start len want : ℕ} (hfind : a.free.find? start = some len)
    (hwant : 0 < want) (hle : want ≤ len) : Gapped (a.carve start len want).free ∧
      (a.carve start len want).free.cells = a.free.cells \ Set.Ico start (start + want) := by
  have hrun := h.isRun hfind
  have herased := h.cells_erase hfind
  unfold carve
  dsimp only
  split_ifs with hlt
  · have hclear : ClearRange (a.free.erase start).cells (start + want) (len - want) := by
      intro b hb
      rw [herased] at hb
      have hout : ¬(start ≤ b ∧ b < start + len) := hb.2
      have hbefore : b + 1 ≠ start := fun heq ↦ hrun.before b heq hb.1
      have hbehind : b ≠ start + len := fun heq ↦ hrun.behind (heq ▸ hb.1)
      omega
    have hnone : (a.free.erase start).find? (start + want) = none := by
      apply (h.erase start).find?_none_of_notMem
      intro hmem
      have := hclear _ hmem
      omega
    refine ⟨(h.erase start).insert (by omega) hclear, ?_⟩
    rw [Gapped.cells_insert hnone, herased]
    ext b
    simp only [Set.mem_union, Set.mem_sdiff, Set.mem_Ico]
    constructor
    · rintro (⟨hb, hout⟩ | hin)
      · exact ⟨hb, by omega⟩
      · exact ⟨hrun.inside b (by omega) (by omega), by omega⟩
    · rintro ⟨hb, hout⟩
      by_cases hin : start + want ≤ b ∧ b < start + want + (len - want)
      · exact Or.inr hin
      · exact Or.inl ⟨hb, by omega⟩
  · have hlen : want = len := by omega
    rw [hlen]
    exact ⟨h.erase start, herased⟩

/-- A request that fits is served from the best run. -/
theorem fit_exact (h : Exact low d) {want start len : ℕ} (hwant : 0 < want)
    (hfit : bestFit want d.alloc.free.entries none = some (start, len)) :
    Exact low { d with alloc := d.alloc.carve start len want } ∧
      Reference.Step low (reference d) (.allocated want start)
        (reference { d with alloc := d.alloc.carve start len want }) := by
  have hbest := bestFit_best want d.alloc.free.entries [] none d.alloc.free.sorted (List.forall_mem_nil _)
  rw [hfit, List.nil_append] at hbest
  obtain ⟨hmem, hle, hleast⟩ := hbest
  have hfind : d.alloc.free.find? start = some len := KeyMap.find?_eq_some_iff.mpr hmem
  obtain ⟨hgapped, hcells⟩ := carve_cells h.gapped hfind hwant hle
  refine ⟨⟨hgapped, fun b hb ↦ h.inside b ?_, h.low_le, h.backed⟩, ?_⟩
  · rw [hcells] at hb
    exact hb.1
  · have hstep : Reference.Step low (reference d) (.allocated want start)
        ⟨(reference d).free \ Set.Ico start (start + want), (reference d).total⟩ := by
      apply Reference.Step.fit hwant (h.gapped.isRun hfind) hle
      intro t k hrun hk
      exact hleast (t, k) (KeyMap.find?_eq_some_iff.mp (h.gapped.find?_iff.mpr hrun)) hk
    unfold reference at hstep ⊢
    rw [← hcells] at hstep
    exact hstep

/-- A request that does not fit makes the image grow. -/
theorem grow_exact (h : Exact low d) {want : ℕ} {img : Image} (hwant : 0 < want)
    (hfit : bestFit want d.alloc.free.entries none = none) (hlen : (d.alloc.totalBlocks + want) * blockSize ≤ img.len) :
    Exact low ⟨d.alloc.extend (d.alloc.totalBlocks + want) (img.len / blockSize), img⟩ ∧
      Reference.Step low (reference d) (.allocated want d.alloc.totalBlocks)
        (reference ⟨d.alloc.extend (d.alloc.totalBlocks + want) (img.len / blockSize), img⟩) := by
  set total := d.alloc.totalBlocks
  have hbest := bestFit_best want d.alloc.free.entries [] none d.alloc.free.sorted (List.forall_mem_nil _)
  rw [hfit, List.nil_append] at hbest
  have hblocks : total + want ≤ img.len / blockSize :=
    (Nat.le_div_iff_mul_le (by decide : 0 < blockSize)).mpr hlen
  have htotal : max (img.len / blockSize) (total + want) = img.len / blockSize := max_eq_left hblocks
  have hmap : Gapped (d.alloc.extend (total + want) (img.len / blockSize)).free ∧
      (d.alloc.extend (total + want) (img.len / blockSize)).free.cells =
        d.alloc.free.cells ∪ Set.Ico (total + want) (img.len / blockSize) := by
    unfold extend
    dsimp only
    split_ifs with hlt
    · have hclear : ClearRange d.alloc.free.cells (total + want) (img.len / blockSize - (total + want)) := by
        intro b hb
        have := (h.inside b hb).2
        omega
      have hnone : d.alloc.free.find? (total + want) = none := by
        apply h.gapped.find?_none_of_notMem
        intro hmem
        have := (h.inside _ hmem).2
        omega
      refine ⟨h.gapped.insert (by omega) hclear, ?_⟩
      rw [Gapped.cells_insert hnone, Nat.add_sub_cancel' hblocks]
    · rw [Set.Ico_eq_empty hlt, Set.union_empty]
      exact ⟨h.gapped, rfl⟩
  refine ⟨⟨hmap.1, ?_, ?_, ?_⟩, ?_⟩
  · intro b hb
    rw [hmap.2] at hb
    change low ≤ b ∧ b < max (img.len / blockSize) (total + want)
    rcases hb with hb | hb
    · have := h.inside b hb
      omega
    · have hlow := h.low_le
      have hin : total + want ≤ b ∧ b < img.len / blockSize := hb
      omega
  · have hlow := h.low_le
    change low ≤ max (img.len / blockSize) (total + want)
    omega
  · change max (img.len / blockSize) (total + want) * blockSize ≤ img.len
    rw [htotal]
    exact Nat.div_mul_le_self _ _
  · have hstep : Reference.Step low (reference d) (.allocated want (reference d).total)
        ⟨(reference d).free ∪ Set.Ico ((reference d).total + want) (img.len / blockSize), img.len / blockSize⟩ := by
      apply Reference.Step.grow hwant _ hblocks
      intro s n hrun
      exact hbest (s, n) (KeyMap.find?_eq_some_iff.mp (h.gapped.find?_iff.mpr hrun))
    have hafter : reference ⟨d.alloc.extend (total + want) (img.len / blockSize), img⟩ =
        ⟨(reference d).free ∪ Set.Ico ((reference d).total + want) (img.len / blockSize), img.len / blockSize⟩ := by
      unfold reference
      rw [hmap.2]
      exact congrArg _ htotal
    rw [hafter]
    exact hstep

/-- The two ways an allocation succeeds. -/
theorem allocate_ok {want start : ℕ} (hrun : allocate want d = .ok start d') : 0 < want ∧
    ((∃ len, bestFit want d.alloc.free.entries none = some (start, len) ∧
        d' = { d with alloc := d.alloc.carve start len want }) ∨
      bestFit want d.alloc.free.entries none = none ∧ start = d.alloc.totalBlocks ∧ ∃ img,
        (d.alloc.totalBlocks + want) * blockSize ≤ img.len ∧
          d' = ⟨d.alloc.extend (d.alloc.totalBlocks + want) (img.len / blockSize), img⟩) := by
  unfold allocate at hrun
  by_cases hzero : want = 0
  · rw [if_pos hzero] at hrun
    cases hrun
  rw [if_neg hzero, Exec.bind_apply, Exec.read_apply] at hrun
  dsimp only at hrun
  refine ⟨by omega, ?_⟩
  cases hfit : bestFit want d.alloc.free.entries none with
  | some r =>
    rw [hfit] at hrun
    cases hrun
    exact Or.inl ⟨r.2, rfl, rfl⟩
  | none =>
    rw [hfit] at hrun
    dsimp only at hrun
    obtain ⟨_, u, hgrow, hrest⟩ := Exec.bind_ok_iff.mp hrun
    cases hrest
    have hgrown : (onImage (Image.growTo ((d.alloc.totalBlocks + want) * blockSize))).Holds d
        (fun _ v ↦ v.alloc = d.alloc ∧ (d.alloc.totalBlocks + want) * blockSize ≤ v.image.len) (fun _ _ ↦ True) := by
      rw [onImage, Exec.holds_zoom]
      exact (Image.growTo_spec d.image _).mono (fun _ _ h ↦ ⟨rfl, h.2⟩) fun _ _ _ ↦ trivial
    obtain ⟨halloc, hlen⟩ := hgrown.of_ok hgrow
    refine Or.inr ⟨rfl, rfl, u.image, hlen, ?_⟩
    rw [← halloc]

theorem allocate_exact (h : Exact low d) {want start : ℕ} (hrun : allocate want d = .ok start d') :
    Exact low d' ∧ Reference.Step low (reference d) (.allocated want start) (reference d') := by
  obtain ⟨hwant, ⟨len, hfit, rfl⟩ | ⟨hfit, rfl, img, hlen, rfl⟩⟩ := allocate_ok hrun
  · exact fit_exact h hwant hfit
  · exact grow_exact h hwant hfit hlen

/-! ## Release -/

/-- The range after the free range below it has been taken in. -/
theorem mergeBelow_cells {a : Allocator} (h : Gapped a.free) {start : ℕ} (len : ℕ) (hstart : start ∉ a.free.cells) :
    ∃ s, (a.mergeBelow start len).2 = (s, len + (start - s)) ∧ s ≤ start ∧ Gapped (a.mergeBelow start len).1.free ∧
      (a.mergeBelow start len).1.free.cells = a.free.cells \ Set.Ico s start ∧ Set.Ico s start ⊆ a.free.cells ∧
      ∀ b, b + 1 = s → b ∉ a.free.cells := by
  have hkeep : (∀ b, b + 1 = start → b ∉ a.free.cells) → a.mergeBelow start len = (a, start, len) →
      ∃ s, (a.mergeBelow start len).2 = (s, len + (start - s)) ∧ s ≤ start ∧ Gapped (a.mergeBelow start len).1.free ∧
        (a.mergeBelow start len).1.free.cells = a.free.cells \ Set.Ico s start ∧ Set.Ico s start ⊆ a.free.cells ∧
        ∀ b, b + 1 = s → b ∉ a.free.cells := by
    intro hbefore heq
    rw [heq]
    refine ⟨start, by simp, le_rfl, h, ?_, ?_, hbefore⟩
    · rw [Set.Ico_self, Set.sdiff_empty]
    · rw [Set.Ico_self]
      exact Set.empty_subset _
  cases hbelow : a.free.below? start with
  | none =>
    apply hkeep
    · intro b hb hmem
      obtain ⟨t, k, hfound, -⟩ := h.below?_meets hstart hb hmem
      rw [hbelow] at hfound
      cases hfound
    · unfold mergeBelow
      rw [hbelow]
  | some e =>
    obtain ⟨ps, pl⟩ := e
    obtain ⟨hfind, hlt⟩ := mem_of_below? hbelow
    dsimp only at hfind hlt
    by_cases hmeet : ps + pl = start
    · have heq : a.mergeBelow start len = ({ a with free := a.free.erase ps }, ps, len + pl) := by
        unfold mergeBelow
        rw [hbelow]
        exact if_pos hmeet
      have hpl : pl = start - ps := by omega
      rw [heq, ← hmeet]
      refine ⟨ps, by rw [Nat.add_sub_cancel_left], Nat.le_add_right _ _, h.erase ps, h.cells_erase hfind, ?_, (h.isRun hfind).before⟩
      exact fun b hb ↦ (h.isRun hfind).inside b hb.1 hb.2
    · apply hkeep
      · intro b hb hmem
        obtain ⟨t, k, hfound, hend⟩ := h.below?_meets hstart hb hmem
        rw [hbelow] at hfound
        cases hfound
        exact hmeet hend
      · unfold mergeBelow
        rw [hbelow]
        exact if_neg hmeet

/-- The range after the free range above it has been taken in. -/
theorem mergeAbove_cells {a : Allocator} (h : Gapped a.free) {start len : ℕ} (hlen : 0 < len)
    (hlast : start + len - 1 ∉ a.free.cells) :
    ∃ n, (a.mergeAbove start len).2 = n ∧ len ≤ n ∧ Gapped (a.mergeAbove start len).1.free ∧
      (a.mergeAbove start len).1.free.cells = a.free.cells \ Set.Ico (start + len) (start + n) ∧
      Set.Ico (start + len) (start + n) ⊆ a.free.cells ∧ start + n ∉ a.free.cells := by
  unfold mergeAbove
  cases hfind : a.free.find? (start + len) with
  | none =>
    refine ⟨len, rfl, le_rfl, h, ?_, ?_, ?_⟩
    · rw [Set.Ico_self, Set.sdiff_empty]
    · rw [Set.Ico_self]
      exact Set.empty_subset _
    · intro hmem
      obtain ⟨t, k, ht, htb, hk⟩ := hmem
      have hne : t ≠ start + len := by
        intro heq
        rw [heq, hfind] at ht
        cases ht
      exact hlast (Gapped.mem_cells ht (by omega) (by omega))
  | some nl =>
    have hend : start + len + nl = start + (len + nl) := Nat.add_assoc _ _ _
    refine ⟨len + nl, rfl, Nat.le_add_right _ _, h.erase _, ?_, ?_, ?_⟩
    · rw [← hend]
      exact h.cells_erase hfind
    · rw [← hend]
      exact fun b hb ↦ (h.isRun hfind).inside b hb.1 hb.2
    · rw [← hend]
      exact (h.isRun hfind).behind

theorem freeRange_cells {a : Allocator} (h : Gapped a.free) {start len : ℕ}
    (hout : ∀ b ∈ Set.Ico start (start + len), b ∉ a.free.cells) : Gapped (a.freeRange start len).free ∧
      (a.freeRange start len).free.cells = a.free.cells ∪ Set.Ico start (start + len) ∧
      (a.freeRange start len).totalBlocks = a.totalBlocks := by
  unfold freeRange
  split_ifs with hzero
  · rw [hzero, Nat.add_zero, Set.Ico_self, Set.union_empty]
    exact ⟨h, rfl, rfl⟩
  obtain ⟨s, hbelow, hs, hgapped₁, hcells₁, hin₁, hbefore⟩ :=
    mergeBelow_cells h len (hout start ⟨le_rfl, by omega⟩)
  have htotal₁ : (a.mergeBelow start len).1.totalBlocks = a.totalBlocks := (mergeBelow_spec (fun _ _ hf ↦ h.positive hf) start len).2.1
  rcases hresult₁ : a.mergeBelow start len with ⟨a₁, s₁, n₁⟩
  rw [hresult₁] at hbelow hgapped₁ hcells₁ htotal₁
  cases hbelow
  dsimp only at hgapped₁ hcells₁ htotal₁ ⊢
  have hlast : s + (len + (start - s)) - 1 ∉ a₁.free.cells := by
    rw [hcells₁]
    exact fun hmem ↦ hout (s + (len + (start - s)) - 1) ⟨by omega, by omega⟩ hmem.1
  obtain ⟨n, habove, hn, hgapped₂, hcells₂, hin₂, hbehind⟩ := mergeAbove_cells hgapped₁ (by omega) hlast
  have htotal₂ : (a₁.mergeAbove s (len + (start - s))).1.totalBlocks = a₁.totalBlocks :=
    (mergeAbove_spec (fun _ _ hf ↦ hgapped₁.positive hf) s (len + (start - s))).2.1
  rcases hresult₂ : a₁.mergeAbove s (len + (start - s)) with ⟨a₂, n₂⟩
  rw [hresult₂] at habove hgapped₂ hcells₂ htotal₂
  change n₂ = n at habove
  subst habove
  dsimp only at hgapped₂ hcells₂ htotal₂ ⊢
  rw [hcells₁] at hcells₂ hin₂ hbehind
  have hmiddle : s + (len + (start - s)) = start + len := by omega
  rw [hmiddle] at hcells₂ hin₂
  -- nothing that is left touches the merged range
  have hclear : ClearRange a₂.free.cells s n₂ := by
    intro b hb
    rw [hcells₂] at hb
    obtain ⟨⟨hfree, hlow⟩, hhigh⟩ := hb
    rw [Set.mem_Ico] at hlow hhigh
    have hmid : ¬(start ≤ b ∧ b < start + len) := fun hin ↦ hout b hin hfree
    have hb₁ : b + 1 ≠ s := fun heq ↦ hbefore b heq hfree
    have hb₂ : b ≠ s + n₂ := by
      intro heq
      apply hbehind
      rw [← heq]
      exact ⟨hfree, by rw [Set.mem_Ico]; omega⟩
    omega
  have hnone : a₂.free.find? s = none := by
    apply hgapped₂.find?_none_of_notMem
    intro hmem
    have := hclear s hmem
    omega
  refine ⟨hgapped₂.insert (by omega) hclear, ?_, htotal₂.trans htotal₁⟩
  rw [Gapped.cells_insert hnone, hcells₂]
  ext b
  simp only [Set.mem_union, Set.mem_sdiff, Set.mem_Ico]
  constructor
  · rintro (⟨⟨hb, -⟩, -⟩ | hb)
    · exact Or.inl hb
    · by_cases hlow : b < start
      · exact Or.inl (hin₁ ⟨hb.1, hlow⟩)
      · by_cases hhigh : b < start + len
        · exact Or.inr ⟨by omega, hhigh⟩
        · exact Or.inl (hin₂ ⟨by omega, hb.2⟩).1
  · rintro (hb | hb)
    · by_cases hin : s ≤ b ∧ b < s + n₂
      · exact Or.inr hin
      · exact Or.inl ⟨⟨hb, by omega⟩, by omega⟩
    · exact Or.inr ⟨by omega, by omega⟩

theorem freeRange_exact (h : Exact low d) {start len : ℕ}
    (hout : HandedOut low d.alloc.free.cells d.alloc.totalBlocks start len) :
    Exact low { d with alloc := d.alloc.freeRange start len } ∧
      Reference.Step low (reference d) (.freed start len) (reference { d with alloc := d.alloc.freeRange start len }) := by
  obtain ⟨hgapped, hcells, htotal⟩ := freeRange_cells h.gapped fun b hb ↦ (hout b hb).2.2
  refine ⟨⟨hgapped, fun b hb ↦ ?_, ?_, ?_⟩, ?_⟩
  · change low ≤ b ∧ b < (d.alloc.freeRange start len).totalBlocks
    rw [htotal]
    rw [hcells] at hb
    rcases hb with hb | hb
    · exact h.inside b hb
    · exact ⟨(hout b hb).1, (hout b hb).2.1⟩
  · change low ≤ (d.alloc.freeRange start len).totalBlocks
    rw [htotal]
    exact h.low_le
  · change (d.alloc.freeRange start len).totalBlocks * blockSize ≤ d.image.len
    rw [htotal]
    exact h.backed
  · have hstep : Reference.Step low (reference d) (.freed start len)
        ⟨(reference d).free ∪ Set.Ico start (start + len), (reference d).total⟩ := .free hout
    have hafter : reference { d with alloc := d.alloc.freeRange start len } =
        ⟨(reference d).free ∪ Set.Ico start (start + len), (reference d).total⟩ := by
      unfold reference
      rw [← hcells, ← htotal]
    rw [hafter]
    exact hstep

/-! ## Shrinking -/

theorem maybeShrink_exact (h : Exact low d) {done : Bool} (hrun : maybeShrink d = .ok done d') :
    Exact low d' ∧ Reference.Step low (reference d) .shrunk (reference d') := by
  have hspec : maybeShrink.Holds d
      (fun _ d' ↦ Exact low d' ∧ Reference.Step low (reference d) .shrunk (reference d')) (fun _ _ ↦ True) := by
    unfold maybeShrink
    rw [Exec.holds_bind, Exec.holds_read]
    cases hlast : d.alloc.free.last? with
    | none => exact ⟨h, .keep⟩
    | some r =>
      obtain ⟨start, len⟩ := r
      have hfind : d.alloc.free.find? start = some len :=
        KeyMap.find?_eq_some_iff.mpr (List.mem_of_getLast? hlast)
      have hrunAt := h.gapped.isRun hfind
      have hpos := hrunAt.positive
      have hlow := (h.inside start (hrunAt.inside start le_rfl (by omega))).1
      have hslack : 0 < shrinkSlackBlocks := by decide
      dsimp only
      split_ifs with hend hshort htotal hkeep
      · exact ⟨h, .keep⟩
      · exact ⟨h, .keep⟩
      · exact ⟨h, .keep⟩
      swap
      · exact absurd hkeep (by omega)
      set total := max (start + shrinkSlackBlocks) d.alloc.firstData
      rw [not_not] at hend
      rw [Exec.holds_bind, onImage, Exec.holds_zoom]
      apply (Image.shrinkTo_spec d.image _).mono _ (fun _ _ _ ↦ trivial)
      intro _ img himage
      rw [Exec.holds_bind, modifyAlloc, Exec.holds_modify, Exec.holds_pure]
      have hstart : start < total := by omega
      have herased := h.gapped.cells_erase hfind
      have hclear : ClearRange (d.alloc.free.erase start).cells start (total - start) := by
        intro b hb
        rw [herased] at hb
        have hout : ¬(start ≤ b ∧ b < start + len) := hb.2
        have hbefore : b + 1 ≠ start := fun heq ↦ hrunAt.before b heq hb.1
        have hinside := (h.inside b hb.1).2
        omega
      have hcells : ((d.alloc.free.erase start).insert start (total - start)).cells =
          d.alloc.free.cells \ Set.Ico total d.alloc.totalBlocks := by
        rw [Gapped.cells_insert (KeyMap.find?_erase_self _ _), herased]
        ext b
        simp only [Set.mem_union, Set.mem_sdiff, Set.mem_Ico]
        constructor
        · rintro (⟨hb, hout⟩ | hin)
          · exact ⟨hb, by omega⟩
          · exact ⟨hrunAt.inside b (by omega) (by omega), by omega⟩
        · rintro ⟨hb, hout⟩
          have hinside := (h.inside b hb).2
          by_cases hin : start ≤ b ∧ b < start + (total - start)
          · exact Or.inr hin
          · exact Or.inl ⟨hb, by omega⟩
      have hbacked := h.backed
      have hfewer : total * blockSize ≤ d.alloc.totalBlocks * blockSize := Nat.mul_le_mul_right _ (by omega)
      refine ⟨⟨(h.gapped.erase start).insert (by omega) hclear, fun b hb ↦ ?_, ?_, ?_⟩, ?_⟩
      · change b ∈ ((d.alloc.free.erase start).insert start (total - start)).cells at hb
        rw [hcells] at hb
        have hinside := h.inside b hb.1
        have hout : ¬(total ≤ b ∧ b < d.alloc.totalBlocks) := hb.2
        change low ≤ b ∧ b < total
        omega
      · change low ≤ total
        omega
      · change total * blockSize ≤ img.len
        rw [himage.1]
        omega
      · have hstep : Reference.Step low (reference d) .shrunk
            ⟨(reference d).free \ Set.Ico total (reference d).total, total⟩ := by
          apply Reference.Step.shrink (show total ≤ d.alloc.totalBlocks by omega)
          intro b hb
          have hin : total ≤ b ∧ b < d.alloc.totalBlocks := hb
          exact hrunAt.inside b (by omega) (by omega)
        unfold reference at hstep ⊢
        rw [← hcells] at hstep
        exact hstep
  exact hspec.of_ok hrun

/-! ## Runs -/

/-- A new allocator over an image of that many blocks. -/
theorem new_exact (first : ℕ) {image : Image} {total : ℕ} (hlen : image.len = total * blockSize) :
    Exact (min first total) ⟨new first total, image⟩ ∧ (new first total).free.cells = Set.Ico first total := by
  unfold new
  split_ifs with hlt
  · have hcells : (KeyMap.empty.insert first (total - first)).cells = Set.Ico first total := by
      rw [Gapped.cells_insert (KeyMap.find?_empty _), Gapped.cells_empty, Set.empty_union, Nat.add_sub_cancel' hlt.le]
    refine ⟨⟨Gapped.empty.insert (by omega) ?_, ?_, min_le_right _ _, hlen.ge⟩, hcells⟩
    · rw [Gapped.cells_empty]
      exact fun b hb ↦ hb.elim
    · intro b hb
      change b ∈ (KeyMap.empty.insert first (total - first)).cells at hb
      rw [hcells] at hb
      have hin : first ≤ b ∧ b < total := hb
      change min first total ≤ b ∧ b < total
      omega
  · refine ⟨⟨Gapped.empty, ?_, min_le_right _ _, hlen.ge⟩, ?_⟩
    · intro b hb
      change b ∈ (KeyMap.empty : KeyMap ℕ).cells at hb
      rw [Gapped.cells_empty] at hb
      exact hb.elim
    · rw [Gapped.cells_empty, Set.Ico_eq_empty hlt]

theorem happens_exact (h : Exact low d) {event : AllocEvent} (hstep : event.Happens low d d') :
    Exact low d' ∧ Reference.Step low (reference d) event (reference d') := by
  cases event with
  | allocated want start => exact allocate_exact h hstep.2
  | freed start len =>
    obtain ⟨hout, rfl⟩ := hstep
    exact freeRange_exact h hout
  | shrunk =>
    obtain ⟨done, hrun⟩ := hstep
    exact maybeShrink_exact h hrun

/-- The allocator follows the reference allocator through every run of calls. -/
theorem run_exact {events : List AllocEvent} (h : Exact low d) (hrun : AllocRun low d events d') :
    Exact low d' ∧ Reference.Steps low (reference d) events (reference d') := by
  induction hrun with
  | nil => exact ⟨h, .nil _⟩
  | snoc _ hstep ih =>
    obtain ⟨hexact, hsteps⟩ := ih
    obtain ⟨hnext, hreference⟩ := happens_exact hexact hstep
    exact ⟨hnext, hsteps.snoc hreference⟩

/-- Over every run from a new allocator the free extents are nonempty, with a gap between any two of them, and inside
the data area; the image holds every block; and the free blocks are those of the reference allocator, which makes the
same answers. A host that refuses nothing lets every next call succeed that asks it for a length it allows. -/
theorem allocator_exact {first total : ℕ} {image : Image} (hlen : image.len = total * blockSize)
    {events : List AllocEvent} (hrun : AllocRun (min first total) ⟨new first total, image⟩ events d) :
    (∀ e ∈ d.alloc.free.entries, 0 < e.2 ∧ min first total ≤ e.1 ∧ e.1 + e.2 ≤ d.alloc.totalBlocks) ∧
      d.alloc.free.entries.Pairwise (fun a b ↦ a.1 + a.2 < b.1) ∧
      d.alloc.totalBlocks * blockSize ≤ d.image.len ∧
      Reference.Steps (min first total) ⟨Set.Ico first total, total⟩ events ⟨d.alloc.free.cells, d.alloc.totalBlocks⟩ ∧
      (d.image.faults = [] → d.image.hostWritable = true →
        (∀ want, 0 < want → Image.alignedLen ((d.alloc.totalBlocks + want) * blockSize) < Image.maxHostLen →
          ∃ start d', AllocEvent.Happens (min first total) (.allocated want start) d d') ∧
        (d.image.len ≤ Image.maxHostLen → ∃ d', AllocEvent.Happens (min first total) .shrunk d d')) := by
  obtain ⟨hnew, hcells⟩ := new_exact first hlen
  obtain ⟨hexact, hsteps⟩ := run_exact hnew hrun
  refine ⟨fun e he ↦ ?_, ?_, hexact.backed, ?_, fun hfaults hwritable ↦ ⟨fun want hwant hallowed ↦ ?_, fun hhost ↦ ?_⟩⟩
  · have hfind : d.alloc.free.find? e.1 = some e.2 := KeyMap.find?_eq_some_iff.mpr he
    have hpos := hexact.gapped.positive hfind
    have hfirst := hexact.inside e.1 (Gapped.mem_cells hfind le_rfl (by omega))
    have hlast := hexact.inside (e.1 + e.2 - 1) (Gapped.mem_cells hfind (by omega) (by omega))
    omega
  · apply d.alloc.free.sorted.imp_of_mem
    intro a b ha hb hlt
    exact hexact.gapped.apart (KeyMap.find?_eq_some_iff.mpr ha) (KeyMap.find?_eq_some_iff.mpr hb) hlt
  · unfold reference at hsteps
    dsimp only at hsteps
    rw [hcells] at hsteps
    exact hsteps
  · obtain ⟨start, d', hgot, -⟩ := allocate_answers hfaults hwritable hwant hallowed
    have haligned : (d.alloc.totalBlocks + want) * blockSize ≤
        Image.alignedLen ((d.alloc.totalBlocks + want) * blockSize) := le_max_right _ _
    have hhost : Image.maxHostLen < 2 ^ 64 := by decide
    exact ⟨start, d', by omega, hgot⟩
  · obtain ⟨done, d', hshrunk⟩ := maybeShrink_answers hfaults hwritable hhost
    exact ⟨d', done, hshrunk⟩

/-- A new allocator over a host file of zeros. -/
def overZeros (first total : ℕ) : AllocImage := ⟨new first total, (Image.fresh []).setLenBytes (total * blockSize)⟩

/-- Three blocks are taken from eight and the middle one is given back. -/
theorem allocator_exact_sample : ∃ d : AllocImage, d.alloc.free.entries = [(3, 1), (5, 5)] ∧
    d.alloc.free.entries.Pairwise (fun a b ↦ a.1 + a.2 < b.1) ∧
    Reference.Steps 2 ⟨Set.Ico 2 10, 10⟩ [.allocated 3 2, .freed 3 1] ⟨d.alloc.free.cells, d.alloc.totalBlocks⟩ ∧
    ∃ start d', AllocEvent.Happens 2 (.allocated 6 start) d d' := by
  have hlen : ((Image.fresh []).setLenBytes (10 * blockSize)).len = 10 * blockSize := rfl
  obtain ⟨hnew, hcells⟩ := new_exact 2 hlen
  have htaken : AllocEvent.Happens 2 (.allocated 3 2) (overZeros 2 10)
      { overZeros 2 10 with alloc := (overZeros 2 10).alloc.carve 2 8 3 } := ⟨by decide, rfl⟩
  have hcarved := (carve_cells hnew.gapped (rfl : (new 2 10).free.find? 2 = some 8) (by omega : 0 < 3) (by omega)).2
  have hout : HandedOut 2 ((overZeros 2 10).alloc.carve 2 8 3).free.cells 10 3 1 := by
    intro b hb
    have hin : 3 ≤ b ∧ b < 4 := hb
    refine ⟨by omega, by omega, fun hmem ↦ ?_⟩
    change b ∈ ((new 2 10).carve 2 8 3).free.cells at hmem
    rw [hcarved] at hmem
    exact hmem.2 ⟨by omega, by omega⟩
  have hrun := (AllocRun.snoc (.nil (overZeros 2 10)) htaken).snoc
    (show AllocEvent.Happens 2 (.freed 3 1) _ _ from ⟨hout, rfl⟩)
  have hexact := allocator_exact hlen (show AllocRun (min 2 10) ⟨new 2 10, _⟩ _ _ from hrun)
  obtain ⟨-, hgaps, -, hsteps, hnext⟩ := hexact
  exact ⟨_, rfl, hgaps, hsteps, (hnext rfl rfl).1 6 (by decide) (by decide)⟩

/-- Over an image that ends before the data area the free blocks left by growing start below it. -/
theorem free_below_first : ∃ d : AllocImage, AllocRun 10 (overZeros 10 4) [.allocated 1 4] d ∧
    ∃ e ∈ d.alloc.free.entries, e.1 < d.alloc.firstData := by
  have hgrown : (allocate 1 (overZeros 10 4)).okAnd (fun start d ↦ start == 4 &&
      d.alloc.free.entries == [(5, 251)] && d.alloc.firstData == 10) = true := by decide +kernel
  obtain ⟨start, d, hrun, htest⟩ := Outcome.exists_of_okAnd hgrown
  simp only [Bool.and_eq_true, beq_iff_eq] at htest
  obtain ⟨⟨rfl, hentries⟩, hfirst⟩ := htest
  refine ⟨d, .snoc (.nil _) ⟨by decide, hrun⟩, (5, 251), ?_, ?_⟩
  · rw [hentries]
    exact List.mem_cons_self
  · rw [hfirst]
    decide

end Allocator

end LinuxFile
