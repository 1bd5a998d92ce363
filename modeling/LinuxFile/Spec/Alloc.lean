import LinuxFile.Alloc
import LinuxFile.Library.Ledger
import LinuxFile.Spec.Store

/-!
# What the allocator does

The free map is a set of nonempty ranges, disjoint and inside the data area. Allocation and release
are described by what they do to the coverage of every block: an allocated range leaves the free
coverage, or the data area grows by it; a released range joins the free coverage.
-/

namespace LinuxFile

open Ledger

namespace Allocator

/-- One on the blocks of the data area. -/
def area (a : Allocator) (b : ℕ) : ℕ := span a.firstData (a.totalBlocks - a.firstData) b

structure Ok (a : Allocator) : Prop where
  positive : ∀ start len, a.free.find? start = some len → 0 < len
  fits : ∀ b, cover a.free.entries b ≤ a.area b
  first_le : a.firstData ≤ a.totalBlocks

/-- The range left the free blocks, or the data area grew by it. -/
structure Took (start want : ℕ) (a a' : Allocator) : Prop where
  first : a'.firstData = a.firstData
  total_le : a.totalBlocks ≤ a'.totalBlocks
  cover : ∀ b, cover a'.free.entries b + span start want b + a.area b =
    cover a.free.entries b + a'.area b

/-- A start whose block is not covered is not a key. -/
theorem find?_none_of_cover {m : KeyMap ℕ} (hpos : ∀ start len, m.find? start = some len → 0 < len)
    {start : ℕ} (h : cover m.entries start = 0) : m.find? start = none := by
  cases hfind : m.find? start with
  | none => rfl
  | some len =>
    have hlen := hpos start len hfind
    have hmem := KeyMap.find?_eq_some_iff.mp hfind
    have hone : 1 ≤ cover m.entries start := by
      calc 1 = span start len start := (span_eq_one (by omega)).symm
        _ ≤ cover m.entries start := span_le_cover hmem start
    omega

theorem erase_positive {m : KeyMap ℕ} (hpos : ∀ start len, m.find? start = some len → 0 < len)
    (key : ℕ) : ∀ start len, (m.erase key).find? start = some len → 0 < len := by
  intro start len h
  rw [KeyMap.find?_erase] at h
  split_ifs at h
  exact hpos start len h

theorem insert_positive {m : KeyMap ℕ} (hpos : ∀ start len, m.find? start = some len → 0 < len)
    {key value : ℕ} (hvalue : 0 < value) :
    ∀ start len, (m.insert key value).find? start = some len → 0 < len := by
  intro start len h
  rw [KeyMap.find?_insert] at h
  split_ifs at h
  · cases h
    exact hvalue
  · exact hpos start len h

theorem area_le_one (a : Allocator) (b : ℕ) : a.area b ≤ 1 := span_le_one _ _ _

theorem Ok.within {a : Allocator} (h : a.Ok) {start len : ℕ} (hfind : a.free.find? start = some len) :
    a.firstData ≤ start ∧ start + len ≤ a.totalBlocks :=
  Fits.within h.fits (KeyMap.find?_eq_some_iff.mp hfind) (h.positive start len hfind)

/-! ## Allocation -/

theorem bestFit_mem (want : ℕ) (entries : List (ℕ × ℕ)) (best : Option (ℕ × ℕ)) {r : ℕ × ℕ}
    (h : bestFit want entries best = some r) : (r ∈ entries ∧ want ≤ r.2) ∨ best = some r := by
  induction entries generalizing best with
  | nil => exact Or.inr h
  | cons e rest ih =>
    obtain ⟨start, len⟩ := e
    unfold bestFit at h
    split_ifs at h with hfit hexact
    · cases h
      exact Or.inl ⟨List.mem_cons_self, hfit.1⟩
    · rcases ih _ h with hrest | hbest
      · exact Or.inl ⟨List.mem_cons_of_mem _ hrest.1, hrest.2⟩
      · cases hbest
        exact Or.inl ⟨List.mem_cons_self, hfit.1⟩
    · rcases ih _ h with hrest | hbest
      · exact Or.inl ⟨List.mem_cons_of_mem _ hrest.1, hrest.2⟩
      · exact Or.inr hbest

theorem carve_spec {a : Allocator} (h : a.Ok) {start len want : ℕ}
    (hfind : a.free.find? start = some len) (hwant : 0 < want) (hle : want ≤ len) :
    (a.carve start len want).Ok ∧ Took start want a (a.carve start len want) := by
  have herase := cover_erase hfind
  have hcover : ∀ b, cover (a.carve start len want).free.entries b + span start want b =
      cover a.free.entries b := by
    intro b
    unfold carve
    dsimp only
    split_ifs with hlt
    · have hzero : cover (a.free.erase start).entries (start + want) = 0 := by
        have h1 := herase (start + want)
        have h2 : span start len (start + want) = 1 := span_eq_one (by omega)
        have h3 := h.fits (start + want)
        have h4 := a.area_le_one (start + want)
        omega
      have hnone := find?_none_of_cover (erase_positive h.positive start) hzero
      rw [cover_insert (len - want) hnone, ← herase b]
      have hsplit := span_add start want (len - want) b
      rw [Nat.add_sub_cancel' hle] at hsplit
      omega
    · have hlen : want = len := by omega
      rw [hlen]
      exact herase b
  refine ⟨⟨?_, ?_, h.first_le⟩, rfl, le_rfl, ?_⟩
  · unfold carve
    dsimp only
    split_ifs with hlt
    · exact insert_positive (erase_positive h.positive start) (by omega)
    · exact erase_positive h.positive start
  · intro b
    have := h.fits b
    have := hcover b
    change cover (a.carve start len want).free.entries b ≤ a.area b
    omega
  · intro b
    rw [hcover b]
    rfl

theorem extend_spec {a : Allocator} (h : a.Ok) {want : ℕ} (imageBlocks : ℕ) (hwant : 0 < want) :
    (a.extend (a.totalBlocks + want) imageBlocks).Ok ∧
      Took a.totalBlocks want a (a.extend (a.totalBlocks + want) imageBlocks) := by
  have hfirst := h.first_le
  have hnone : a.free.find? (a.totalBlocks + want) = none := by
    apply find?_none_of_cover h.positive
    have h1 := h.fits (a.totalBlocks + want)
    have h2 : a.area (a.totalBlocks + want) = 0 := span_eq_zero (by omega)
    omega
  have hcover : ∀ b, cover (a.extend (a.totalBlocks + want) imageBlocks).free.entries b =
      cover a.free.entries b +
        span (a.totalBlocks + want) (imageBlocks - (a.totalBlocks + want)) b := by
    intro b
    unfold extend
    dsimp only
    split_ifs with hlt
    · exact cover_insert _ hnone b
    · rw [Nat.sub_eq_zero_of_le (by omega), span_zero, Nat.add_zero]
  have htotal : (a.extend (a.totalBlocks + want) imageBlocks).totalBlocks =
      a.totalBlocks + want + (imageBlocks - (a.totalBlocks + want)) := by
    unfold extend
    dsimp only
    omega
  have harea : ∀ b, (a.extend (a.totalBlocks + want) imageBlocks).area b =
      a.area b + span a.totalBlocks want b +
        span (a.totalBlocks + want) (imageBlocks - (a.totalBlocks + want)) b := by
    intro b
    unfold area
    rw [htotal]
    have h1 := span_add a.firstData (a.totalBlocks - a.firstData)
      (want + (imageBlocks - (a.totalBlocks + want))) b
    have h2 := span_add a.totalBlocks want (imageBlocks - (a.totalBlocks + want)) b
    rw [Nat.add_sub_cancel' hfirst, h2] at h1
    have hlen : a.totalBlocks + want + (imageBlocks - (a.totalBlocks + want)) - a.firstData =
        a.totalBlocks - a.firstData + (want + (imageBlocks - (a.totalBlocks + want))) := by omega
    change span a.firstData
      (a.totalBlocks + want + (imageBlocks - (a.totalBlocks + want)) - a.firstData) b = _
    rw [hlen, h1]
    omega
  refine ⟨⟨?_, ?_, ?_⟩, rfl, by omega, ?_⟩
  · unfold extend
    dsimp only
    split_ifs with hlt
    · exact insert_positive h.positive (by omega)
    · exact h.positive
  · intro b
    rw [hcover b, harea b]
    have := h.fits b
    omega
  · change a.firstData ≤ _
    omega
  · intro b
    rw [hcover b, harea b]
    omega

/-- The data area lies inside the image. -/
def Backed (d : AllocImage) : Prop := d.alloc.totalBlocks * blockSize ≤ d.image.len

theorem allocate_spec {want : ℕ} (d : AllocImage) (h : d.alloc.Ok) (hwant : 0 < want) :
    (allocate want).Holds d
      (fun start d' ↦ d'.alloc.Ok ∧ Took start want d.alloc d'.alloc ∧ Image.Grown d.image d'.image ∧
        (d'.alloc.totalBlocks = d.alloc.totalBlocks ∨ Backed d'))
      (fun e d' ↦ e.IsHost ∧ d'.alloc = d.alloc ∧ Image.Grown d.image d'.image) := by
  unfold allocate
  rw [if_neg (by omega), Exec.holds_bind, Exec.holds_read]
  cases hfit : bestFit want d.alloc.free.entries none with
  | some r =>
    obtain ⟨start, len⟩ := r
    dsimp only
    rw [Exec.holds_bind, modifyAlloc, Exec.holds_modify, Exec.holds_pure]
    have hmem := (bestFit_mem want _ none hfit).resolve_right (by simp)
    have hfind := KeyMap.find?_eq_some_iff.mpr hmem.1
    obtain ⟨hok, htook⟩ := carve_spec h hfind hwant hmem.2
    exact ⟨hok, htook, Image.Grown.refl _, Or.inl rfl⟩
  | none =>
    dsimp only
    rw [Exec.holds_bind, onImage, Exec.holds_zoom]
    refine (Image.growTo_spec d.image _).mono ?_ (fun e img he ↦ ⟨he.1, rfl, he.2⟩)
    rintro _ img ⟨hgrown, hlen⟩
    rw [Exec.holds_bind, Exec.holds_read, Exec.holds_bind, modifyAlloc, Exec.holds_modify,
      Exec.holds_pure]
    obtain ⟨hok, htook⟩ := extend_spec h (img.len / blockSize) hwant
    have hbacked : Backed ⟨d.alloc.extend (d.alloc.totalBlocks + want)
        (img.len / blockSize), img⟩ := by
      change max (img.len / blockSize) (d.alloc.totalBlocks + want) * blockSize ≤ img.len
      rcases le_total (img.len / blockSize) (d.alloc.totalBlocks + want) with hle | hle
      · rw [max_eq_right hle]
        exact hlen
      · rw [max_eq_left hle]
        exact Nat.div_mul_le_self _ _
    exact ⟨hok, htook, hgrown, Or.inr hbacked⟩

/-- An allocated range lies in the data area. -/
theorem Took.within {start want : ℕ} {a a' : Allocator} (h : Took start want a a') (ha : a.Ok)
    (hwant : 0 < want) : a.firstData ≤ start ∧ start + want ≤ a'.totalBlocks := by
  have hfits : Fits a'.firstData a'.totalBlocks [(start, want)] := by
    intro b
    have h1 := h.cover b
    have h2 := ha.fits b
    have h3 : a'.area b = span a'.firstData (a'.totalBlocks - a'.firstData) b := rfl
    rw [cover_cons, cover_nil, ← h3]
    dsimp only
    omega
  have := hfits.within List.mem_cons_self hwant
  rw [h.first] at this
  exact this

/-! ## Release -/

theorem mem_of_below? {m : KeyMap ℕ} {bound : ℕ} {e : ℕ × ℕ} (h : m.below? bound = some e) :
    m.find? e.1 = some e.2 ∧ e.1 < bound := by
  have hmem : e ∈ m.entries.filter (fun e ↦ decide (e.1 < bound)) := List.mem_of_getLast? h
  rw [List.mem_filter] at hmem
  exact ⟨KeyMap.find?_eq_some_iff.mpr hmem.1, by simpa using hmem.2⟩

theorem mergeBelow_spec {a : Allocator} (hpos : ∀ start len, a.free.find? start = some len → 0 < len)
    (start len : ℕ) :
    let r := a.mergeBelow start len
    r.1.firstData = a.firstData ∧ r.1.totalBlocks = a.totalBlocks ∧
      (∀ start len, r.1.free.find? start = some len → 0 < len) ∧ len ≤ r.2.2 ∧
      ∀ b, cover r.1.free.entries b + span r.2.1 r.2.2 b = cover a.free.entries b + span start len b := by
  unfold mergeBelow
  cases hbelow : a.free.below? start with
  | none => exact ⟨rfl, rfl, hpos, le_rfl, fun _ ↦ rfl⟩
  | some e =>
    obtain ⟨ps, pl⟩ := e
    obtain ⟨hfind, hlt⟩ := mem_of_below? hbelow
    dsimp only at hfind hlt ⊢
    split_ifs with hmeet
    · refine ⟨rfl, rfl, erase_positive hpos ps, by dsimp only; omega, fun b ↦ ?_⟩
      have h1 := cover_erase hfind b
      have h2 := span_add ps pl len b
      rw [hmeet, Nat.add_comm pl len] at h2
      dsimp only
      omega
    · exact ⟨rfl, rfl, hpos, le_rfl, fun _ ↦ rfl⟩

theorem mergeAbove_spec {a : Allocator} (hpos : ∀ start len, a.free.find? start = some len → 0 < len)
    (start len : ℕ) :
    let r := a.mergeAbove start len
    r.1.firstData = a.firstData ∧ r.1.totalBlocks = a.totalBlocks ∧
      (∀ start len, r.1.free.find? start = some len → 0 < len) ∧ len ≤ r.2 ∧
      ∀ b, cover r.1.free.entries b + span start r.2 b = cover a.free.entries b + span start len b := by
  unfold mergeAbove
  cases hfind : a.free.find? (start + len) with
  | none => exact ⟨rfl, rfl, hpos, le_rfl, fun _ ↦ rfl⟩
  | some nl =>
    refine ⟨rfl, rfl, erase_positive hpos _, by dsimp only; omega, fun b ↦ ?_⟩
    have h1 := cover_erase hfind b
    have h2 := span_add start len nl b
    dsimp only
    omega

/-- Releasing a range that is in the data area and not free. -/
theorem freeRange_spec {a : Allocator} (h : a.Ok) (start len : ℕ)
    (hapart : ∀ b, cover a.free.entries b + span start len b ≤ a.area b) :
    (a.freeRange start len).Ok ∧ (a.freeRange start len).firstData = a.firstData ∧
      (a.freeRange start len).totalBlocks = a.totalBlocks ∧
      ∀ b, cover (a.freeRange start len).free.entries b =
        cover a.free.entries b + span start len b := by
  unfold freeRange
  split_ifs with hzero
  · subst hzero
    exact ⟨h, rfl, rfl, fun b ↦ by rw [span_zero, Nat.add_zero]⟩
  · obtain ⟨hf₁, ht₁, hp₁, hl₁, hc₁⟩ := mergeBelow_spec h.positive start len
    obtain ⟨hf₂, ht₂, hp₂, hl₂, hc₂⟩ := mergeAbove_spec hp₁ (a.mergeBelow start len).2.1
      (a.mergeBelow start len).2.2
    rcases hbelow : a.mergeBelow start len with ⟨a₁, start₁, len₁⟩
    simp only [hbelow] at hf₁ ht₁ hp₁ hl₁ hc₁ hf₂ ht₂ hp₂ hl₂ hc₂
    rcases habove : a₁.mergeAbove start₁ len₁ with ⟨a₂, len₂⟩
    simp only [habove] at hf₂ ht₂ hp₂ hl₂ hc₂ ⊢
    have hnone : a₂.free.find? start₁ = none := by
      apply find?_none_of_cover hp₂
      have h1 := hc₁ start₁
      have h2 := hc₂ start₁
      have h3 := hapart start₁
      have h4 := a.area_le_one start₁
      have h5 : span start₁ len₂ start₁ = 1 := span_eq_one (by omega)
      omega
    have hcover : ∀ b, cover (a₂.free.insert start₁ len₂).entries b =
        cover a.free.entries b + span start len b := by
      intro b
      rw [cover_insert len₂ hnone b, hc₂ b, hc₁ b]
    refine ⟨⟨insert_positive hp₂ (by omega), fun b ↦ ?_, ?_⟩, hf₂.trans hf₁, ht₂.trans ht₁, hcover⟩
    · have harea : Allocator.area { a₂ with free := a₂.free.insert start₁ len₂ } b = a.area b := by
        unfold area
        rw [hf₂, hf₁, ht₂, ht₁]
      rw [harea]
      dsimp only
      rw [hcover b]
      exact hapart b
    · have := h.first_le
      dsimp only
      omega

/-- Releasing several ranges. -/
theorem freeAll_spec (ranges : List (ℕ × ℕ)) {a : Allocator} (h : a.Ok)
    (hapart : ∀ b, cover a.free.entries b + cover ranges b ≤ a.area b) :
    let a' := ranges.foldl (fun a r ↦ a.freeRange r.1 r.2) a
    a'.Ok ∧ a'.firstData = a.firstData ∧ a'.totalBlocks = a.totalBlocks ∧
      ∀ b, cover a'.free.entries b = cover a.free.entries b + cover ranges b := by
  induction ranges generalizing a with
  | nil => exact ⟨h, rfl, rfl, fun b ↦ rfl⟩
  | cons r rest ih =>
    obtain ⟨hok, hfirst, htotal, hcover⟩ := freeRange_spec h r.1 r.2 (by
      intro b
      have := hapart b
      rw [cover_cons] at this
      omega)
    have harea : ∀ b, (a.freeRange r.1 r.2).area b = a.area b := by
      intro b
      unfold area
      rw [hfirst, htotal]
    obtain ⟨hok', hfirst', htotal', hcover'⟩ := ih hok (by
      intro b
      have := hapart b
      rw [cover_cons] at this
      rw [hcover b, harea b]
      omega)
    refine ⟨hok', hfirst'.trans hfirst, htotal'.trans htotal, fun b ↦ ?_⟩
    rw [List.foldl_cons, hcover' b, hcover b, cover_cons]
    omega

/-! ## The stored snapshot -/

/-- The allocator after the blocks of the snapshot at `existing` were given back, or not. -/
def Released (existing : ℕ) (d : AllocImage) (a : Allocator) : Prop :=
  a = d.alloc ∨ existing ≠ 0 ∧ a = d.alloc.freeRange existing ((d.image.block existing).getU32 4)

theorem releaseSnapshot_spec (existing : ℕ) (d : AllocImage) :
    (releaseSnapshot existing).Holds d
      (fun _ d' ↦ Image.Grown d.image d'.image ∧ Released existing d d'.alloc)
      (fun e _ ↦ e.IsHost) := by
  unfold releaseSnapshot
  by_cases hzero : existing = 0
  · rw [if_pos hzero]
    exact ⟨Image.Grown.refl _, Or.inl rfl⟩
  · rw [if_neg hzero, Exec.holds_bind, Exec.holds_read]
    by_cases hlen : existing * blockSize + blockSize ≤ d.image.len
    · rw [if_pos hlen, Exec.holds_bind, onImage, Exec.holds_zoom]
      refine (Image.readBlock_spec d.image existing hlen).mono ?_ (fun _ _ he ↦ he.1)
      rintro hdr img ⟨rfl, hgrown⟩
      dsimp only
      split_ifs
      · exact ⟨hgrown, Or.inr ⟨hzero, rfl⟩⟩
      · exact ⟨hgrown, Or.inl rfl⟩
      · exact ⟨hgrown, Or.inl rfl⟩
    · rw [if_neg hlen]
      exact ⟨Image.Grown.refl _, Or.inl rfl⟩

/-- The blocks from `start` on were replaced. -/
structure Replaced (start n : ℕ) (data : ℕ → Block) (img img' : Image) : Prop where
  inside : ∀ i, i < n → img'.block (start + i) = data i
  outside : ∀ b, ¬(start ≤ b ∧ b < start + n) → img'.block b = img.block b
  len_le : img.len ≤ img'.len
  ok : img.Ok → img'.Ok
  host : img'.hostWritable = img.hostWritable

theorem writeBlocks_spec (start n : ℕ) (data : ℕ → Block) (d : AllocImage) :
    (Exec.forEach (fun i ↦ onImage (Image.writeBlock (start + i) (data i))) (List.range n)).Holds d
      (fun _ d' ↦ d'.alloc = d.alloc ∧ Replaced start n data d.image d'.image)
      (fun e _ ↦ e.IsHost) := by
  refine (Exec.holds_forEach (fun rest d' ↦ d'.alloc = d.alloc ∧ (∀ i ∈ rest, i < n) ∧
      (∀ i, i < n → i ∉ rest → d'.image.block (start + i) = data i) ∧
      (∀ b, ¬(start ≤ b ∧ b < start + n) → d'.image.block b = d.image.block b) ∧
      d.image.len ≤ d'.image.len ∧ (d.image.Ok → d'.image.Ok) ∧
      d'.image.hostWritable = d.image.hostWritable) ?_ (List.range n) ?_).mono ?_ (fun _ _ he ↦ he)
  · rintro i rest d₁ ⟨halloc, hlt, hdone, hout, hlen, hok, hhost⟩
    have hi := hlt i List.mem_cons_self
    rw [onImage, Exec.holds_zoom]
    refine (Image.writeBlock_spec d₁.image (start + i) (data i)).mono ?_ (fun _ _ he ↦ he.1)
    rintro _ img ⟨hwrote, hself, hother⟩
    refine ⟨halloc, fun j hj ↦ hlt j (List.mem_cons_of_mem _ hj), fun j hj hnot ↦ ?_, fun b hb ↦ ?_,
      hlen.trans hwrote.len_le, hwrote.ok ∘ hok, hwrote.host.trans hhost⟩
    · by_cases hji : j = i
      · rw [hji]
        exact hself
      · change img.block (start + j) = data j
        rw [hother (start + j) (by omega)]
        exact hdone j hj (by simp [hji, hnot])
    · change img.block b = _
      rw [hother b (by omega)]
      exact hout b hb
  · exact ⟨rfl, fun i hi ↦ List.mem_range.mp hi, fun i hi hnot ↦ absurd (List.mem_range.mpr hi) hnot,
      fun _ _ ↦ rfl, le_rfl, id, rfl⟩
  · rintro _ d' ⟨halloc, -, hdone, hout, hlen, hok, hhost⟩
    exact ⟨halloc, fun i hi ↦ hdone i hi (by simp), hout, hlen, hok, hhost⟩

/-- The new snapshot: blocks were taken after the old ones had been given back, and hold the state
of the allocator as it then is. -/
structure Snapshot (existing start n : ℕ) (d d' : AllocImage) : Prop where
  released : ∃ a, Released existing d a ∧ Took start n a d'.alloc
  ok : d'.alloc.Ok
  positive : 0 < n
  total : d'.alloc.totalBlocks = d.alloc.totalBlocks ∨ Backed d'
  image : Replaced start n (snapshotBlock d'.alloc.encode n) d.image d'.image

theorem freeRange_totalBlocks (a : Allocator) (start len : ℕ) :
    (a.freeRange start len).totalBlocks = a.totalBlocks := by
  unfold freeRange mergeBelow mergeAbove
  dsimp only
  split_ifs
  · rfl
  · split <;> split <;> (try split_ifs) <;> rfl

theorem freeRange_firstData (a : Allocator) (start len : ℕ) : (a.freeRange start len).firstData = a.firstData := by
  unfold freeRange mergeBelow mergeAbove
  dsimp only
  split_ifs
  · rfl
  · split <;> split <;> (try split_ifs) <;> rfl

theorem writeAllocBlocks_spec (existing : ℕ) (d : AllocImage)
    (hok : ∀ a, Released existing d a → a.Ok) :
    (writeAllocBlocks existing).Holds d (fun start d' ↦ ∃ n, Snapshot existing start n d d')
      (fun e _ ↦ e.IsHost) := by
  unfold writeAllocBlocks
  refine (releaseSnapshot_spec existing d).bind ?_ (fun _ _ he ↦ he)
  rintro _ d₁ ⟨hgrown₁, hreleased⟩
  have htotal₁ : d₁.alloc.totalBlocks = d.alloc.totalBlocks := by
    rcases hreleased with h | ⟨-, h⟩
    · rw [h]
    · rw [h, freeRange_totalBlocks]
  rw [Exec.holds_bind, Exec.holds_read]
  dsimp only
  have hpos : 0 < max ((d₁.alloc.encode.length + 64 + perBlock - 1) / perBlock) 1 := by omega
  refine (allocate_spec d₁ (hok _ hreleased) hpos).bind ?_ (fun _ _ he ↦ he.1)
  rintro start d₂ ⟨hok₂, htook, hgrown₂, htotal₂⟩
  rw [Exec.holds_bind, Exec.holds_read]
  refine (writeBlocks_spec start _ (snapshotBlock d₂.alloc.encode _) d₂).bind ?_ (fun _ _ he ↦ he)
  rintro _ d₃ ⟨halloc, hreplaced⟩
  rw [Exec.holds_pure]
  have hgrown := hgrown₁.trans hgrown₂
  refine ⟨_, ⟨d₁.alloc, hreleased, by rw [halloc]; exact htook⟩, by rw [halloc]; exact hok₂, hpos, ?_, ?_⟩
  · rcases htotal₂ with h | h
    · exact Or.inl (by rw [halloc, h, htotal₁])
    · refine Or.inr ?_
      unfold Backed at *
      rw [halloc]
      exact h.trans hreplaced.len_le
  · rw [halloc]
    exact ⟨hreplaced.inside, fun b hb ↦ (hreplaced.outside b hb).trans (hgrown.block b),
      hgrown.len_le.trans hreplaced.len_le, hreplaced.ok ∘ hgrown.ok, hreplaced.host.trans hgrown.host⟩

/-- The count in the header of a snapshot. -/
theorem snapshotBlock_count (bytes : Bytes) (n : ℕ) : (snapshotBlock bytes n 0).getU32 4 = n % 2 ^ 32 := by
  have hbase : leNat (((((Buf.zero blockSize).put 0 snapshotMagic).putU32 4 n).putU32 8
      bytes.length).slice 4 4) = n % 2 ^ 32 := by
    rw [Buf.putU32, Buf.slice_put_of_disjoint _ (by simp), Buf.putU32,
      Buf.slice_put _ ⟨by simp, by decide⟩, leNat_leBytes_four]
  unfold snapshotBlock Buf.getU32
  dsimp only
  rw [if_pos rfl, if_pos rfl]
  split_ifs
  · rw [Buf.slice_put_of_disjoint _ (by omega)]
    exact hbase
  · exact hbase

/-! ## Shrinking -/

/-- Blocks from `newTotal` on left the data area, and were free. -/
structure Shrunk (newTotal : ℕ) (a a' : Allocator) : Prop where
  ok : a'.Ok
  first : a'.firstData = a.firstData
  total : a'.totalBlocks = newTotal
  first_le : a.firstData ≤ newTotal
  total_le : newTotal ≤ a.totalBlocks
  below : ∀ b, b < newTotal → cover a'.free.entries b = cover a.free.entries b
  above : ∀ b, newTotal ≤ b → b < a.totalBlocks → cover a.free.entries b = 1

theorem shrunk_of_last {a : Allocator} (h : a.Ok) {start len newTotal : ℕ}
    (hfind : a.free.find? start = some len) (hend : start + len = a.totalBlocks)
    (hlow : a.firstData ≤ newTotal) (hstart : start < newTotal) (htotal : newTotal < a.totalBlocks) :
    Shrunk newTotal a { a with
      free := (a.free.erase start).insert start (newTotal - start)
      totalBlocks := newTotal } := by
  have hself : (a.free.erase start).find? start = none := KeyMap.find?_erase_self _ _
  have hcover : ∀ b, cover ((a.free.erase start).insert start (newTotal - start)).entries b +
      span start len b = cover a.free.entries b + span start (newTotal - start) b := by
    intro b
    rw [cover_insert _ hself]
    have := cover_erase hfind b
    omega
  have hsplit : ∀ b, span start len b = span start (newTotal - start) b +
      span newTotal (a.totalBlocks - newTotal) b := by
    intro b
    rw [show len = (newTotal - start) + (a.totalBlocks - newTotal) by omega, span_add,
      show start + (newTotal - start) = newTotal by omega]
  refine ⟨⟨insert_positive (erase_positive h.positive start) (by omega), fun b ↦ ?_, hlow⟩, rfl, rfl,
    hlow, htotal.le, fun b hb ↦ ?_, fun b hb hlt ↦ ?_⟩
  · have h1 := hcover b
    have h2 := hsplit b
    have h3 := h.fits b
    change cover ((a.free.erase start).insert start (newTotal - start)).entries b ≤
      span a.firstData (newTotal - a.firstData) b
    have h4 : a.area b = span a.firstData (newTotal - a.firstData) b +
        span newTotal (a.totalBlocks - newTotal) b := by
      unfold area
      rw [show a.totalBlocks - a.firstData = (newTotal - a.firstData) + (a.totalBlocks - newTotal) by
        omega, span_add, show a.firstData + (newTotal - a.firstData) = newTotal by omega]
    omega
  · have h1 := hcover b
    have h2 := hsplit b
    have h3 : span newTotal (a.totalBlocks - newTotal) b = 0 := span_eq_zero (by omega)
    rw [h3] at h2
    change cover ((a.free.erase start).insert start (newTotal - start)).entries b = _
    omega
  · have h1 : span start len b = 1 := span_eq_one (by omega)
    have h2 : span start len b ≤ cover a.free.entries b :=
      span_le_cover (KeyMap.find?_eq_some_iff.mp hfind) b
    have h3 := h.fits b
    have h4 := a.area_le_one b
    omega

theorem maybeShrink_spec (d : AllocImage) (h : d.alloc.Ok) :
    maybeShrink.Holds d
      (fun _ d' ↦ d' = d ∨ ∃ newTotal, Shrunk newTotal d.alloc d'.alloc ∧
        d'.image.len = min d.image.len (newTotal * blockSize) ∧
        d'.image.hostWritable = d.image.hostWritable ∧
        ∀ i, d'.image.bytes i = if i < newTotal * blockSize then d.image.bytes i else 0)
      (fun e _ ↦ e.IsHost) := by
  unfold maybeShrink
  rw [Exec.holds_bind, Exec.holds_read]
  cases hlast : d.alloc.free.last? with
  | none => exact Or.inl rfl
  | some r =>
    obtain ⟨start, len⟩ := r
    have hfind : d.alloc.free.find? start = some len :=
      KeyMap.find?_eq_some_iff.mpr (List.mem_of_getLast? hlast)
    have hpos := h.positive start len hfind
    have hin := h.within hfind
    dsimp only
    have hslackPos : 0 < shrinkSlackBlocks := by decide
    split_ifs with hend hslack htotal hkeep
    · exact Or.inl rfl
    · exact Or.inl rfl
    · exact Or.inl rfl
    · rw [Exec.holds_bind, onImage, Exec.holds_zoom]
      refine (Image.shrinkTo_spec d.image _).mono ?_ (fun _ _ he ↦ he.1)
      rintro _ img ⟨hlen, hhost, hbytes⟩
      rw [Exec.holds_bind, modifyAlloc, Exec.holds_modify, Exec.holds_pure]
      exact Or.inr ⟨max (start + shrinkSlackBlocks) d.alloc.firstData,
        shrunk_of_last h hfind (not_not.mp hend) (by omega) (by omega) (by omega), hlen, hhost, hbytes⟩
    · exact absurd hkeep (by omega)

/-! ## A host that answers -/

theorem allocate_answers {d : AllocImage} {want : ℕ} (hfaults : d.image.faults = [])
    (hwritable : d.image.hostWritable = true) (hwant : 0 < want)
    (hlen : Image.alignedLen ((d.alloc.totalBlocks + want) * blockSize) < Image.maxHostLen) :
    ∃ start d', allocate want d = .ok start d' ∧ d'.image.faults = [] ∧ d'.image.hostWritable = true := by
  unfold allocate
  rw [if_neg (by omega), Exec.bind_eq_of_ok (Exec.read_apply _ _)]
  cases bestFit want d.alloc.free.entries none with
  | some r => exact ⟨r.1, _, rfl, hfaults, hwritable⟩
  | none =>
    obtain ⟨img, hgrow, hfaults', hwritable'⟩ := Image.growTo_answers hfaults hwritable hlen
    have hstep : onImage (Image.growTo ((d.alloc.totalBlocks + want) * blockSize)) d = .ok () { d with image := img } := by
      unfold onImage Exec.zoom
      rw [hgrow]
    dsimp only
    rw [Exec.bind_eq_of_ok hstep]
    exact ⟨_, _, rfl, hfaults', hwritable'⟩

theorem maybeShrink_answers {d : AllocImage} (hfaults : d.image.faults = []) (hwritable : d.image.hostWritable = true)
    (hlen : d.image.len ≤ Image.maxHostLen) : ∃ done d', maybeShrink d = .ok done d' := by
  unfold maybeShrink
  rw [Exec.bind_eq_of_ok (Exec.read_apply _ _)]
  cases d.alloc.free.last? with
  | none => exact ⟨false, d, rfl⟩
  | some r =>
    dsimp only
    split_ifs
    · exact ⟨false, d, rfl⟩
    · exact ⟨false, d, rfl⟩
    · exact ⟨false, d, rfl⟩
    all_goals
      obtain ⟨img, hshrink, -, -⟩ := Image.shrinkTo_answers
        (max (r.1 + shrinkSlackBlocks) d.alloc.firstData * blockSize) hfaults hwritable hlen
      have hstep : onImage (Image.shrinkTo (max (r.1 + shrinkSlackBlocks) d.alloc.firstData * blockSize)) d =
          .ok () { d with image := img } := by
        unfold onImage Exec.zoom
        rw [hshrink]
      rw [Exec.bind_eq_of_ok hstep]
      exact ⟨true, _, rfl⟩

end Allocator

end LinuxFile
