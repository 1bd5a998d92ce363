import LinuxFile.Spec.JournalRuns
import LinuxFile.Spec.Snapshot

/-!
# The allocator's own blocks

`write_alloc_blocks` takes the blocks of the snapshot from the allocator the snapshot describes. The estimate of their
number, made before they are taken, is always large enough; what is stored is read back exactly when the length of the
encoding fits its 32-bit field, which bounds the number of free extents that are left.
-/

namespace LinuxFile

open Ledger

namespace Allocator

variable {existing start want : ℕ} {a : Allocator} {d d' : AllocImage}

/-! ## What the state before decides -/

/-- The number of blocks of the snapshot at `existing`, as its header counts them. -/
def recordedBlocks (existing : ℕ) (d : AllocImage) : ℕ :=
  if existing = 0 then 0 else (d.image.block existing).getU32 4

/-- The allocator that has the blocks of the snapshot at `existing` back. -/
def releasedFrom (existing : ℕ) (d : AllocImage) : Allocator :=
  d.alloc.freeRange existing (recordedBlocks existing d)

/-- The number of blocks that are taken for the snapshot. -/
def estimate (a : Allocator) : ℕ := max ((a.encode.length + 64 + perBlock - 1) / perBlock) 1

/-- The number of blocks of the image once it has been grown for `newTotal` blocks. -/
def grownBlocks (newTotal : ℕ) (img : Image) : ℕ :=
  (if newTotal * blockSize ≤ img.len then img.len else Image.alignedLen (newTotal * blockSize)) / blockSize

/-- The number of free extents that are left when `want` blocks are taken: one less after an exact fit, and one more
where growing the image leaves blocks over. -/
def extentsLeft (want : ℕ) (a : Allocator) (img : Image) : ℕ :=
  match bestFit want a.free.entries none with
  | some r => if want < r.2 then a.free.size else a.free.size - 1
  | none => if a.totalBlocks + want < grownBlocks (a.totalBlocks + want) img then a.free.size + 1 else a.free.size

/-- The free extents lie inside the image, and next to them the blocks of the snapshot at `existing`, if there is
one. -/
structure Holding (existing : ℕ) (d : AllocImage) : Prop where
  ok : d.alloc.Ok
  backed : Backed d
  image : d.image.Ok
  first : 0 < d.alloc.firstData
  header : existing ≠ 0 → (d.image.block existing).slice 0 4 = snapshotMagic ∧ 0 < recordedBlocks existing d
  apart : ∀ b, cover d.alloc.free.entries b + span existing (recordedBlocks existing d) b ≤ d.alloc.area b

/-- The snapshot written between `d` and `d'`, from block `start` on, describes the allocator it leaves. A host that
answers is assumed for reading. -/
structure RoundTrip (existing start : ℕ) (d d' : AllocImage) : Prop where
  taken : Took start (estimate (releasedFrom existing d)) (releasedFrom existing d) d'.alloc
  fits : d'.alloc.encode.length ≤ estimate (releasedFrom existing d) * perBlock
  inside : (start + estimate (releasedFrom existing d)) * blockSize ≤ d'.image.len
  apart : ∀ b, start ≤ b → b < start + estimate (releasedFrom existing d) → cover d'.alloc.free.entries b = 0
  old : ∀ b, existing ≤ b → b < existing + recordedBlocks existing d →
    cover d'.alloc.free.entries b = 1 ∨ start ≤ b ∧ b < start + estimate (releasedFrom existing d)
  read : ∃ img, readAllocBlocks start { d'.image with faults := [] } = .ok d'.alloc img

/-! ## Giving back the old blocks -/

theorem Holding.released (h : Holding existing d) :
    (releasedFrom existing d).Ok ∧ (releasedFrom existing d).firstData = d.alloc.firstData ∧
      (releasedFrom existing d).totalBlocks = d.alloc.totalBlocks ∧
      ∀ b, cover (releasedFrom existing d).free.entries b =
        cover d.alloc.free.entries b + span existing (recordedBlocks existing d) b :=
  freeRange_spec h.ok existing _ h.apart

/-- The header of the old snapshot lies inside the image. -/
theorem Holding.inside (h : Holding existing d) (hzero : existing ≠ 0) :
    existing * blockSize + blockSize ≤ d.image.len := by
  have hpos := (h.header hzero).2
  have hspan : span existing (recordedBlocks existing d) existing = 1 := span_eq_one (by omega)
  have hlast : existing < d.alloc.totalBlocks := by
    by_contra hge
    have hfits := h.apart existing
    have harea : d.alloc.area existing = 0 := span_eq_zero (by omega)
    omega
  calc existing * blockSize + blockSize = (existing + 1) * blockSize := by ring
    _ ≤ d.alloc.totalBlocks * blockSize := Nat.mul_le_mul_right _ hlast
    _ ≤ d.image.len := h.backed

theorem readBlock_keeps (img : Image) {b : ℕ} (h : b * blockSize + blockSize ≤ img.len) :
    (Image.readBlock b).Holds img
      (fun data img' ↦ data = img.block b ∧ ∃ faults, img' = { img with faults := faults }) (fun _ _ ↦ True) := by
  unfold Image.readBlock
  rw [Exec.holds_bind, Exec.holds_read, if_neg (by omega)]
  refine (Image.hostCall_spec img).bind ?_ (fun _ _ _ ↦ trivial)
  rintro _ _ ⟨faults, rfl⟩
  exact ⟨rfl, faults, rfl⟩

/-- The header of the old snapshot can be read, so that its blocks are given back. -/
theorem releaseSnapshot_releases (h : Holding existing d) : (releaseSnapshot existing).Holds d
    (fun _ d' ↦ d'.alloc = releasedFrom existing d ∧ Image.Grown d.image d'.image ∧ d'.image.len = d.image.len)
    (fun _ _ ↦ True) := by
  unfold releaseSnapshot
  by_cases hzero : existing = 0
  · have hcount : recordedBlocks existing d = 0 := if_pos hzero
    rw [if_pos hzero]
    refine ⟨?_, Image.Grown.refl _, rfl⟩
    unfold releasedFrom freeRange
    rw [if_pos hcount]
  · obtain ⟨hmagic, hpos⟩ := h.header hzero
    have hcount : recordedBlocks existing d = (d.image.block existing).getU32 4 := if_neg hzero
    have hin := h.inside hzero
    rw [if_neg hzero, Exec.holds_bind, Exec.holds_read, if_pos hin, Exec.holds_bind, onImage, Exec.holds_zoom]
    refine (readBlock_keeps d.image hin).mono ?_ (fun _ _ _ ↦ trivial)
    rintro hdr _ ⟨rfl, faults, rfl⟩
    rw [if_pos hmagic]
    dsimp only
    rw [if_pos (by rw [← hcount]; exact hpos)]
    refine ⟨?_, Image.Grown.faults d.image faults, rfl⟩
    unfold releasedFrom
    rw [hcount]

/-! ## Taking the new ones -/

theorem growTo_len (img : Image) (newLen : ℕ) : (Image.growTo newLen).Holds img
    (fun _ img' ↦ img'.len = if newLen ≤ img.len then img.len else Image.alignedLen newLen) (fun _ _ ↦ True) := by
  unfold Image.growTo
  rw [Exec.holds_bind, Exec.holds_read]
  split_ifs with hle
  · rfl
  · exact (Image.setLen_spec img _).mono (fun _ _ himg ↦ himg.2.1) (fun _ _ _ ↦ trivial)

/-- A block inside a free extent is not the start of another. -/
theorem Ok.find?_erase_inside (h : a.Ok) {first len b : ℕ} (hfind : a.free.find? first = some len)
    (hin : first ≤ b ∧ b < first + len) : (a.free.erase first).find? b = none := by
  apply find?_none_of_cover (erase_positive h.positive first)
  have herase := cover_erase hfind b
  have hspan : span first len b = 1 := span_eq_one hin
  have hfits := h.fits b
  have harea := a.area_le_one b
  omega

/-- No free extent starts past the data area. -/
theorem Ok.find?_past (h : a.Ok) {b : ℕ} (hb : a.totalBlocks ≤ b) : a.free.find? b = none := by
  apply find?_none_of_cover h.positive
  have hfits := h.fits b
  have harea : a.area b = 0 := by
    unfold area
    have hfirst := h.first_le
    exact span_eq_zero (by omega)
  omega

theorem allocate_extents (h : d.alloc.Ok) (hwant : 0 < want) : (allocate want).Holds d
    (fun _ d' ↦ d'.alloc.free.size = extentsLeft want d.alloc d.image) (fun _ _ ↦ True) := by
  unfold allocate extentsLeft
  rw [if_neg (by omega), Exec.holds_bind, Exec.holds_read]
  cases hfit : bestFit want d.alloc.free.entries none with
  | some r =>
    obtain ⟨first, len⟩ := r
    obtain ⟨hmem, hle⟩ := (bestFit_mem want _ none hfit).resolve_right (by simp)
    have hfind : d.alloc.free.find? first = some len := KeyMap.find?_eq_some_iff.mpr hmem
    have herase := KeyMap.size_erase_of_some hfind
    dsimp only at hle ⊢
    rw [Exec.holds_bind, modifyAlloc, Exec.holds_modify, Exec.holds_pure]
    unfold carve
    dsimp only
    split_ifs with hrest
    · have hinside := h.find?_erase_inside hfind (show first ≤ first + want ∧ first + want < first + len by omega)
      rw [KeyMap.size_insert_of_none _ hinside]
      exact herase
    · omega
  | none =>
    dsimp only
    rw [Exec.holds_bind, onImage, Exec.holds_zoom]
    refine (growTo_len d.image _).mono (fun _ img hlen ↦ ?_) (fun _ _ _ ↦ trivial)
    rw [Exec.holds_bind, Exec.holds_read, Exec.holds_bind, modifyAlloc, Exec.holds_modify, Exec.holds_pure]
    unfold extend grownBlocks
    dsimp only
    rw [hlen]
    split_ifs with hle hmore hmore
    · exact KeyMap.size_insert_of_none _ (h.find?_past (by omega))
    · rfl
    · exact KeyMap.size_insert_of_none _ (h.find?_past (by omega))
    · rfl

/-! ## What is stored -/

/-- What a completed call leaves: the allocator after the blocks were taken, and its encoding in them. -/
structure Stored (existing start : ℕ) (d d' : AllocImage) : Prop where
  taken : Took start (estimate (releasedFrom existing d)) (releasedFrom existing d) d'.alloc
  ok : d'.alloc.Ok
  extents : d'.alloc.free.size = extentsLeft (estimate (releasedFrom existing d)) (releasedFrom existing d) d.image
  backed : Backed d'
  image : d'.image.Ok
  blocks : ∀ i, i < estimate (releasedFrom existing d) →
    d'.image.block (start + i) = snapshotBlock d'.alloc.encode (estimate (releasedFrom existing d)) i

theorem estimate_pos (a : Allocator) : 0 < estimate a := by
  unfold estimate
  omega

theorem writeAllocBlocks_stored (h : Holding existing d) :
    (writeAllocBlocks existing).Holds d (fun start d' ↦ Stored existing start d d') (fun _ _ ↦ True) := by
  have hpos := estimate_pos (releasedFrom existing d)
  obtain ⟨hok, -, htotal, -⟩ := h.released
  unfold writeAllocBlocks
  refine (releaseSnapshot_releases h).bind ?_ (fun _ _ _ ↦ trivial)
  rintro _ d₁ ⟨halloc₁, hgrown₁, hlen₁⟩
  have hok₁ : d₁.alloc.Ok := by
    rw [halloc₁]
    exact hok
  rw [Exec.holds_bind, Exec.holds_read]
  dsimp only
  rw [show max ((d₁.alloc.encode.length + 64 + perBlock - 1) / perBlock) 1 = estimate (releasedFrom existing d) by
    rw [halloc₁, estimate]]
  refine ((allocate_spec d₁ hok₁ hpos).and (allocate_extents hok₁ hpos)).bind ?_ (fun _ _ _ ↦ trivial)
  rintro start d₂ ⟨⟨hok₂, htook, hgrown₂, htotal₂⟩, hextents⟩
  rw [Exec.holds_bind, Exec.holds_read]
  refine (writeBlocks_spec start _ (snapshotBlock d₂.alloc.encode _) d₂).bind ?_ (fun _ _ _ ↦ trivial)
  rintro _ d₃ ⟨halloc₃, hreplaced⟩
  rw [Exec.holds_pure]
  rw [halloc₁] at htook hextents
  have hsame : extentsLeft (estimate (releasedFrom existing d)) (releasedFrom existing d) d₁.image =
      extentsLeft (estimate (releasedFrom existing d)) (releasedFrom existing d) d.image := by
    unfold extentsLeft grownBlocks
    rw [hlen₁]
  refine ⟨by rwa [halloc₃], by rwa [halloc₃], by rw [halloc₃, hextents, hsame], ?_,
    hreplaced.ok (hgrown₂.ok (hgrown₁.ok h.image)), by rw [halloc₃]; exact hreplaced.inside⟩
  have hback₂ : Backed d₂ := by
    rcases htotal₂ with heq | hback
    · unfold Backed
      rw [heq, halloc₁, htotal]
      exact h.backed.trans (hgrown₁.len_le.trans hgrown₂.len_le)
    · exact hback
  unfold Backed at hback₂ ⊢
  rw [halloc₃]
  exact hback₂.trans hreplaced.len_le

theorem Holding.stored (h : Holding existing d) (hwrite : writeAllocBlocks existing d = .ok start d') :
    Stored existing start d d' := (writeAllocBlocks_stored h).of_ok hwrite

theorem extentsLeft_bounds (want : ℕ) (a : Allocator) (img : Image) :
    extentsLeft want a img ≤ a.free.size + 1 ∧ a.free.size ≤ extentsLeft want a img + 1 := by
  unfold extentsLeft
  split <;> split_ifs <;> omega

/-- The most free extents an encoding below `2 ^ 32` bytes holds. -/
def maxExtents : ℕ := 2 ^ 28 - 2

theorem encode_fits_iff (a : Allocator) : a.encode.length < u32Limit ↔ a.free.size ≤ maxExtents := by
  rw [encode_length]
  unfold u32Limit maxExtents
  omega

namespace Stored

theorem fits (h : Stored existing start d d') :
    d'.alloc.encode.length ≤ estimate (releasedFrom existing d) * perBlock := by
  have hleft := (extentsLeft_bounds (estimate (releasedFrom existing d)) (releasedFrom existing d) d.image).1
  have hbefore := encode_length (releasedFrom existing d)
  have hafter := encode_length d'.alloc
  have hextents := h.extents
  have hper : perBlock = 4080 := rfl
  have hestimate : (releasedFrom existing d).encode.length + 64 ≤ estimate (releasedFrom existing d) * perBlock := by
    unfold estimate
    rw [hper]
    omega
  omega

/-- The blocks that were taken are in the data area. -/
theorem area (h : Stored existing start d d') (hheld : Holding existing d) {b : ℕ} (hlow : start ≤ b)
    (hhigh : b < start + estimate (releasedFrom existing d)) :
    d'.alloc.area b = 1 ∧ cover d'.alloc.free.entries b = 0 := by
  have hspan : span start (estimate (releasedFrom existing d)) b = 1 := span_eq_one ⟨hlow, hhigh⟩
  have hcover := h.taken.cover b
  have hbefore := hheld.released.1.fits b
  have hafter := h.ok.fits b
  have hone := d'.alloc.area_le_one b
  omega

theorem first_le (h : Stored existing start d d') (hheld : Holding existing d) : d.alloc.firstData ≤ start := by
  have hpos := estimate_pos (releasedFrom existing d)
  have harea := (h.area hheld le_rfl (by omega)).1
  have hfirst : d'.alloc.firstData = d.alloc.firstData := h.taken.first.trans hheld.released.2.1
  by_contra hlt
  have hzero : d'.alloc.area start = 0 := span_eq_zero (by omega)
  omega

theorem inside (h : Stored existing start d d') (hheld : Holding existing d) :
    (start + estimate (releasedFrom existing d)) * blockSize ≤ d'.image.len := by
  have hpos := estimate_pos (releasedFrom existing d)
  have harea := (h.area hheld (b := start + estimate (releasedFrom existing d) - 1) (by omega) (by omega)).1
  have hfirst := h.ok.first_le
  have hlast : start + estimate (releasedFrom existing d) ≤ d'.alloc.totalBlocks := by
    by_contra hlt
    have hzero : d'.alloc.area (start + estimate (releasedFrom existing d) - 1) = 0 := span_eq_zero (by omega)
    omega
  calc (start + estimate (releasedFrom existing d)) * blockSize ≤ d'.alloc.totalBlocks * blockSize :=
        Nat.mul_le_mul_right _ hlast
    _ ≤ d'.image.len := h.backed

/-- Taking blocks never shrinks the data area. -/
theorem area_le (h : Stored existing start d d') (b : ℕ) : (releasedFrom existing d).area b ≤ d'.alloc.area b := by
  have hfirst := h.taken.first
  have htotal := h.taken.total_le
  unfold Allocator.area span
  split_ifs <;> omega

theorem old (h : Stored existing start d d') (hheld : Holding existing d) {b : ℕ} (hlow : existing ≤ b)
    (hhigh : b < existing + recordedBlocks existing d) :
    cover d'.alloc.free.entries b = 1 ∨ start ≤ b ∧ b < start + estimate (releasedFrom existing d) := by
  by_cases hnew : start ≤ b ∧ b < start + estimate (releasedFrom existing d)
  · exact Or.inr hnew
  · have hspan : span existing (recordedBlocks existing d) b = 1 := span_eq_one ⟨hlow, hhigh⟩
    have hnone : span start (estimate (releasedFrom existing d)) b = 0 := span_eq_zero hnew
    have hcover := h.taken.cover b
    have harea := h.area_le b
    have hreleased := hheld.released.2.2.2 b
    have hbefore := hheld.released.1.fits b
    have hafter := h.ok.fits b
    have hone := d'.alloc.area_le_one b
    omega

theorem reads (h : Stored existing start d d') (hheld : Holding existing d)
    (hfew : d'.alloc.free.size ≤ maxExtents) :
    readAllocBlocks start { d'.image with faults := [] } = .ok d'.alloc { d'.image with faults := [] } := by
  have hlength := (encode_fits_iff d'.alloc).mpr hfew
  have hbounds := extentsLeft_bounds (estimate (releasedFrom existing d)) (releasedFrom existing d) d.image
  have hextents := h.extents
  have hbefore := encode_length (releasedFrom existing d)
  have hper : perBlock = 4080 := rfl
  have hcount : estimate (releasedFrom existing d) < u32Limit := by
    unfold estimate u32Limit
    unfold maxExtents at hfew
    rw [hper]
    omega
  have hsize : d'.alloc.free.size < u32Limit := by
    unfold maxExtents at hfew
    unfold u32Limit
    omega
  have htotal : d'.alloc.totalBlocks < u64Limit := by
    have hbacked : d'.alloc.totalBlocks * blockSize ≤ d'.image.len := h.backed
    have hbounded := h.image.bounded
    unfold blockSize at hbacked
    unfold Image.maxHostLen at hbounded
    unfold u64Limit
    omega
  have hsnapshot : SnapshotAt start (estimate (releasedFrom existing d)) d'.alloc.encode
      { d'.image with faults := [] } := ⟨h.blocks, h.inside hheld, h.fits⟩
  have hstart : start ≠ 0 := by
    have hfirst := h.first_le hheld
    have hpos := hheld.first
    omega
  exact readAllocBlocks_reads hsnapshot rfl hstart (estimate_pos _) hcount hlength (h.ok.inRange htotal hsize)

/-- Everything but reading holds of every snapshot, and reading exactly when few enough extents are left. -/
theorem roundTrip_iff (h : Stored existing start d d') (hheld : Holding existing d) :
    RoundTrip existing start d d' ↔ d'.alloc.free.size ≤ maxExtents := by
  constructor
  · intro htrip
    obtain ⟨img, hread⟩ := htrip.read
    exact (encode_fits_iff d'.alloc).mp (readAllocBlocks_length hread)
  · intro hfew
    exact ⟨h.taken, h.fits, h.inside hheld, fun b hlow hhigh ↦ (h.area hheld hlow hhigh).2,
      fun b hlow hhigh ↦ h.old hheld hlow hhigh, _, h.reads hheld hfew⟩

end Stored

/-- The blocks of the new snapshot are held as those of the old one were. -/
theorem Stored.holding (h : Stored existing start d d') (hheld : Holding existing d)
    (hcount : estimate (releasedFrom existing d) < u32Limit) : Holding start d' := by
  have hpos := estimate_pos (releasedFrom existing d)
  have hfirst := h.first_le hheld
  have hbase := hheld.first
  have hblock : d'.image.block start = snapshotBlock d'.alloc.encode (estimate (releasedFrom existing d)) 0 :=
    h.blocks 0 hpos
  have hrecorded : recordedBlocks start d' = estimate (releasedFrom existing d) := by
    unfold recordedBlocks
    rw [if_neg (by omega), hblock, snapshotBlock_count]
    exact Nat.mod_eq_of_lt hcount
  refine ⟨h.ok, h.backed, h.image, ?_, fun _ ↦ ⟨?_, by omega⟩, fun b ↦ ?_⟩
  · rw [h.taken.first, hheld.released.2.1]
    exact hbase
  · rw [hblock]
    exact (snapshotBlock_header _ _).1
  · rw [hrecorded]
    by_cases hnew : start ≤ b ∧ b < start + estimate (releasedFrom existing d)
    · obtain ⟨harea, hcover⟩ := h.area hheld hnew.1 hnew.2
      have hspan := span_le_one start (estimate (releasedFrom existing d)) b
      omega
    · have hspan : span start (estimate (releasedFrom existing d)) b = 0 := span_eq_zero hnew
      have hfits := h.ok.fits b
      omega

/-- A snapshot describes the allocator it leaves, and is read back as that allocator, exactly if at most `2 ^ 28 - 2`
free extents are left when its blocks are taken. -/
theorem snapshot_round_trip_iff (h : Holding existing d) (hwrite : writeAllocBlocks existing d = .ok start d') :
    RoundTrip existing start d d' ↔
      extentsLeft (estimate (releasedFrom existing d)) (releasedFrom existing d) d.image ≤ maxExtents := by
  have hstored := h.stored hwrite
  rw [hstored.roundTrip_iff h, hstored.extents]

/-! ## A host that answers -/

theorem writeBlocks_answers (start : ℕ) (data : ℕ → Block) (items : List ℕ) : ∀ {d : AllocImage},
    d.image.faults = [] → d.image.hostWritable = true →
    (∀ i ∈ items, (start + i) * blockSize + blockSize ≤ d.image.len) →
    ∃ d', Exec.forEach (fun i ↦ onImage (Image.writeBlock (start + i) (data i))) items d = .ok () d' := by
  induction items with
  | nil =>
    intro d _ _ _
    exact ⟨d, rfl⟩
  | cons i rest ih =>
    intro d hfaults hwritable hinside
    set img := d.image.writeBytes ((start + i) * blockSize) ((data i).slice 0 blockSize) with himg
    have hwrite : Image.writeBlock (start + i) (data i) d.image = .ok () img := by
      apply Image.writeAllAt_answers hfaults hwritable
      rw [Buf.slice_length]
      exact hinside i List.mem_cons_self
    have hstep : onImage (Image.writeBlock (start + i) (data i)) d = .ok () { d with image := img } := by
      unfold onImage Exec.zoom
      rw [hwrite]
    have hrest : ∀ j ∈ rest, (start + j) * blockSize + blockSize ≤ img.len :=
      fun j hj ↦ hinside j (List.mem_cons_of_mem _ hj)
    obtain ⟨d', hrun⟩ := ih (d := { d with image := img }) hfaults hwritable hrest
    exact ⟨d', (Exec.bind_eq_of_ok hstep).trans hrun⟩

theorem releaseSnapshot_answers (h : Holding existing d) (hfaults : d.image.faults = []) :
    releaseSnapshot existing d = .ok () { d with alloc := releasedFrom existing d } := by
  unfold releaseSnapshot
  by_cases hzero : existing = 0
  · have hsame : releasedFrom existing d = d.alloc := by
      unfold releasedFrom recordedBlocks freeRange
      rw [if_pos hzero, if_pos rfl]
    rw [if_pos hzero, hsame]
    rfl
  · obtain ⟨hmagic, hpos⟩ := h.header hzero
    have hcount : recordedBlocks existing d = (d.image.block existing).getU32 4 := if_neg hzero
    have hstep : onImage (Image.readBlock existing) d = .ok (d.image.block existing) d := by
      unfold onImage Exec.zoom
      rw [Image.readBlock_answers hfaults (h.inside hzero)]
    rw [if_neg hzero, Exec.bind_eq_of_ok (Exec.read_apply _ _), if_pos (h.inside hzero), Exec.bind_eq_of_ok hstep,
      if_pos hmagic]
    rw [if_pos (by rw [← hcount]; exact hpos), ← hcount]
    rfl

/-- With room on the host the allocator is stored. -/
theorem writeAllocBlocks_answers (h : Holding existing d) (hfaults : d.image.faults = [])
    (hwritable : d.image.hostWritable = true)
    (hlen : Image.alignedLen ((d.alloc.totalBlocks + estimate (releasedFrom existing d)) * blockSize) <
      Image.maxHostLen) :
    ∃ start d', writeAllocBlocks existing d = .ok start d' := by
  obtain ⟨hok, -, htotal, -⟩ := h.released
  have hpos := estimate_pos (releasedFrom existing d)
  set d₁ : AllocImage := { d with alloc := releasedFrom existing d } with hd₁
  have hlen₁ : Image.alignedLen ((d₁.alloc.totalBlocks + estimate (releasedFrom existing d)) * blockSize) <
      Image.maxHostLen := by rwa [hd₁, htotal]
  obtain ⟨start, d₂, htake, hfaults₂, hwritable₂⟩ := allocate_answers (d := d₁) hfaults hwritable hpos hlen₁
  obtain ⟨hok₂, htook, hgrown, htotal₂⟩ := (allocate_spec d₁ hok hpos).of_ok htake
  have hback : Backed d₂ := by
    rcases htotal₂ with heq | hback
    · unfold Backed
      rw [heq, hd₁, htotal]
      exact h.backed.trans hgrown.len_le
    · exact hback
  have hinside : ∀ i ∈ List.range (estimate (releasedFrom existing d)),
      (start + i) * blockSize + blockSize ≤ d₂.image.len := by
    intro i hi
    have hlt := List.mem_range.mp hi
    have hspan : span start (estimate (releasedFrom existing d)) (start + i) = 1 := span_eq_one (by omega)
    have hcover := htook.cover (start + i)
    have hbefore : cover d₁.alloc.free.entries (start + i) ≤ d₁.alloc.area (start + i) := hok.fits (start + i)
    have hlast : start + i < d₂.alloc.totalBlocks := by
      by_contra hge
      have hfirst := hok₂.first_le
      have hzero : d₂.alloc.area (start + i) = 0 := span_eq_zero (by omega)
      omega
    calc (start + i) * blockSize + blockSize = (start + i + 1) * blockSize := by ring
      _ ≤ d₂.alloc.totalBlocks * blockSize := Nat.mul_le_mul_right _ hlast
      _ ≤ d₂.image.len := hback
  obtain ⟨d₃, hwrites⟩ := writeBlocks_answers start
    (snapshotBlock d₂.alloc.encode (estimate (releasedFrom existing d))) _ hfaults₂ hwritable₂ hinside
  refine ⟨start, d₃, ?_⟩
  unfold writeAllocBlocks
  rw [Exec.bind_eq_of_ok (releaseSnapshot_answers h hfaults), Exec.bind_eq_of_ok (Exec.read_apply _ _)]
  exact (Exec.bind_eq_of_ok htake).trans
    ((Exec.bind_eq_of_ok (Exec.read_apply _ _)).trans (Exec.bind_eq_of_ok hwrites))

/-! ## Every other block free -/

/-- Every other of `2 * n` blocks is free. -/
def everyOther (n : ℕ) : AllocImage where
  alloc := {
    free := {
      entries := (List.range n).map fun k ↦ (2 * k + 1, 1)
      sorted := by
        rw [List.pairwise_map]
        exact List.pairwise_lt_range.imp fun h ↦ by omega }
    firstData := 1
    totalBlocks := 2 * n + 1 }
  image := (Image.fresh []).setLenBytes ((2 * n + 1) * blockSize)

variable {n : ℕ}

theorem everyOther_cover (n b : ℕ) : cover (everyOther n).alloc.free.entries b ≤ span 1 (2 * n) b := by
  change cover ((List.range n).map fun k ↦ (2 * k + 1, 1)) b ≤ span 1 (2 * n) b
  induction n with
  | zero => simp
  | succ n ih =>
    have hlow := span_add 1 (2 * n) 2 b
    have hhigh := span_add (1 + 2 * n) 1 1 b
    rw [List.range_succ, List.map_append, cover_append, List.map_singleton, cover_cons, cover_nil,
      show 2 * (n + 1) = 2 * n + 2 by ring, hlow, hhigh, show 2 * n + 1 = 1 + 2 * n by ring]
    dsimp only
    omega

theorem everyOther_holding (hn : n < 2 ^ 40) : Holding 0 (everyOther n) where
  ok := {
    positive := fun first len hfind ↦ by
      obtain ⟨k, -, hk⟩ := List.mem_map.mp (KeyMap.find?_eq_some_iff.mp hfind)
      cases hk
      exact Nat.one_pos
    fits := fun b ↦ everyOther_cover n b
    first_le := Nat.le_add_left 1 (2 * n) }
  backed := le_rfl
  image := {
    aligned := Nat.mul_mod_left _ _
    bounded := by
      change (2 * n + 1) * 4096 < 2 ^ 63
      omega }
  first := Nat.one_pos
  header := fun h ↦ absurd rfl h
  apart := fun b ↦ by
    rw [show recordedBlocks 0 (everyOther n) = 0 from rfl, span_zero, Nat.add_zero]
    exact everyOther_cover n b

theorem everyOther_size (n : ℕ) : (everyOther n).alloc.free.size = n := by
  change ((List.range n).map fun k ↦ (2 * k + 1, 1)).length = n
  rw [List.length_map, List.length_range]

theorem everyOther_released (n : ℕ) : releasedFrom 0 (everyOther n) = (everyOther n).alloc := rfl

theorem everyOther_estimate (n : ℕ) : estimate (everyOther n).alloc ≤ n + 2 := by
  unfold estimate
  rw [encode_length, everyOther_size, show perBlock = 4080 from rfl]
  omega

theorem everyOther_stores (hn : n < 2 ^ 40) : ∃ start d', writeAllocBlocks 0 (everyOther n) = .ok start d' := by
  apply writeAllocBlocks_answers (everyOther_holding hn) rfl rfl
  have hestimate := everyOther_estimate n
  change max ((((2 * n + 1) + estimate (everyOther n).alloc) * 4096 + 2 ^ 20 - 1) / 2 ^ 20 * 2 ^ 20)
    (((2 * n + 1) + estimate (everyOther n).alloc) * 4096) < 2 ^ 63
  omega

/-- No single block is enough, so that no extent is used up. -/
theorem everyOther_left (hmany : 512 ≤ n) : n ≤ extentsLeft (estimate (everyOther n).alloc) (everyOther n).alloc
    (everyOther n).image := by
  have hencode := encode_length (everyOther n).alloc
  have hsize := everyOther_size n
  have htwo : 2 ≤ estimate (everyOther n).alloc := by
    unfold estimate
    rw [hencode, hsize, show perBlock = 4080 from rfl]
    omega
  have hnone : bestFit (estimate (everyOther n).alloc) (everyOther n).alloc.free.entries none = none := by
    cases hfit : bestFit (estimate (everyOther n).alloc) (everyOther n).alloc.free.entries none with
    | none => rfl
    | some r =>
      obtain ⟨hmem, hle⟩ := (bestFit_mem _ _ _ hfit).resolve_right (by simp)
      obtain ⟨k, -, hk⟩ := List.mem_map.mp hmem
      rw [← hk] at hle
      dsimp only at hle
      omega
  unfold extentsLeft
  rw [hnone]
  dsimp only
  split_ifs <;> omega

/-- Block 2 and blocks 4 and 5 of six are free. -/
def threeFree : Allocator := ⟨(KeyMap.empty.insert 2 1).insert 4 2, 1, 6⟩

/-- Six blocks, the second one the snapshot of the allocator. -/
def snapshotted : AllocImage where
  alloc := threeFree
  image := ((Image.fresh []).setLenBytes (6 * blockSize)).writeBytes (1 * blockSize)
    ((snapshotBlock threeFree.encode 1 0).slice 0 blockSize)

theorem snapshotted_block : snapshotted.image.block 1 = snapshotBlock threeFree.encode 1 0 := by
  have hinside : 1 * blockSize + ((snapshotBlock threeFree.encode 1 0).slice 0 blockSize).length ≤
      ((Image.fresh []).setLenBytes (6 * blockSize)).len := by
    rw [Buf.slice_length, ← Nat.succ_mul]
    exact Nat.mul_le_mul_right _ (by decide)
  have hwrite : Image.writeBlock 1 (snapshotBlock threeFree.encode 1 0)
      ((Image.fresh []).setLenBytes (6 * blockSize)) = .ok () snapshotted.image := by
    apply Image.writeAllAt_answers
    · rfl
    · rfl
    · exact hinside
  exact ((Image.writeBlock_spec _ 1 _).of_ok hwrite).2.1

theorem snapshotted_recorded : recordedBlocks 1 snapshotted = 1 := by
  unfold recordedBlocks
  rw [if_neg (by decide), snapshotted_block, snapshotBlock_count]
  rfl

theorem snapshotted_apart (b : ℕ) :
    cover threeFree.free.entries b + span 1 1 b ≤ threeFree.area b := by
  change cover [(2, 1), (4, 2)] b + span 1 1 b ≤ span 1 5 b
  simp only [cover_cons, cover_nil]
  unfold span
  split_ifs <;> omega

theorem snapshotted_holding : Holding 1 snapshotted where
  ok := {
    positive := fun first len hfind ↦ by
      have hmem := KeyMap.find?_eq_some_iff.mp hfind
      change (first, len) ∈ [(2, 1), (4, 2)] at hmem
      grind
    fits := fun b ↦ (Nat.le_add_right _ _).trans (snapshotted_apart b)
    first_le := by decide }
  backed := le_rfl
  image := {
    aligned := by decide
    bounded := by decide }
  first := Nat.one_pos
  header _ := by
    rw [snapshotted_recorded, snapshotted_block]
    exact ⟨(snapshotBlock_header _ _).1, Nat.one_pos⟩
  apart b := by
    rw [snapshotted_recorded]
    exact snapshotted_apart b

theorem snapshotted_released : releasedFrom 1 snapshotted = ⟨(KeyMap.empty.insert 1 2).insert 4 2, 1, 6⟩ := by
  unfold releasedFrom
  rw [snapshotted_recorded]
  rfl

theorem snapshot_round_trip_sample : ∃ start d', writeAllocBlocks 1 snapshotted = .ok start d' ∧
    RoundTrip 1 start snapshotted d' := by
  have hlen : Image.alignedLen ((snapshotted.alloc.totalBlocks + estimate (releasedFrom 1 snapshotted)) * blockSize) <
      Image.maxHostLen := by
    rw [snapshotted_released]
    decide
  obtain ⟨start, d', hwrite⟩ := writeAllocBlocks_answers snapshotted_holding rfl rfl hlen
  refine ⟨start, d', hwrite, (snapshot_round_trip_iff snapshotted_holding hwrite).mpr ?_⟩
  rw [snapshotted_released]
  decide

/-- `2 ^ 28 - 1` free extents: the encoding has `2 ^ 32 + 8` bytes or more, and its length is cut to 32 bits. -/
theorem large_snapshot_not_read : ∃ start d', Holding 0 (everyOther (2 ^ 28 - 1)) ∧
    writeAllocBlocks 0 (everyOther (2 ^ 28 - 1)) = .ok start d' ∧ ¬RoundTrip 0 start (everyOther (2 ^ 28 - 1)) d' := by
  have hheld : Holding 0 (everyOther (2 ^ 28 - 1)) := everyOther_holding (by norm_num)
  obtain ⟨start, d', hwrite⟩ := everyOther_stores (n := 2 ^ 28 - 1) (by norm_num)
  have hstored := hheld.stored hwrite
  have hextents := hstored.extents
  have hleft := everyOther_left (n := 2 ^ 28 - 1) (by norm_num)
  refine ⟨start, d', hheld, hwrite, fun htrip ↦ ?_⟩
  have hfew := (hstored.roundTrip_iff hheld).mp htrip
  rw [hextents, everyOther_released] at hfew
  unfold maxExtents at hfew
  omega

end Allocator

end LinuxFile
