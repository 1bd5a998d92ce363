import LinuxFile.Spec.Records

/-!
# The bytes of a file

What a file holds is a function of its extents and of the blocks they name, as the cache shows them. It is
kept by everything that keeps these blocks: evictions, write-back, and writes to blocks of other owners.
-/

namespace LinuxFile

open Ledger

/-- The bytes of consecutive blocks, as the cache shows them. -/
def CachedImage.bytesOf (d : CachedImage) (phys count : ℕ) : Bytes :=
  (List.range' phys count).flatMap (fun b ↦ (d.view b).slice 0 blockSize)

/-- What `read_compressed_extent` makes of the blocks of a record. -/
def decodeRecord (lz : Lz4) (raw : Bytes) : Except Error Bytes :=
  match RecordHeader.parse (Buf.ofBytes raw.length raw) with
  | none => .error (Error.eio "bad compressed record")
  | some hdr =>
    if raw.length < headerSize + hdr.payloadLen then .error (Error.eio "compressed record truncated")
    else if Crc.crc32 ((raw.drop headerSize).take hdr.payloadLen) ≠ hdr.crc then
      .error (Error.eio "compressed record checksum mismatch")
    else decompress lz hdr.algo ((raw.drop headerSize).take hdr.payloadLen) hdr.uncompressedLen

namespace Inner

variable {s t : Inner} {i : Inode}

/-- The blocks of a compressed extent give `data` back. -/
structure PackedAs (s : Inner) (e : Extent) (data : Bytes) : Prop where
  decode : decodeRecord s.env.lz4 (s.disk.bytesOf e.physical (max e.physLen 1)) = .ok data
  length_le : data.length ≤ e.length * blockSize

def unpacked (s : Inner) (e : Extent) : Bytes :=
  match decodeRecord s.env.lz4 (s.disk.bytesOf e.physical (max e.physLen 1)) with
  | .ok data => data
  | .error _ => []

theorem PackedAs.unpacked_eq {e : Extent} {data : Bytes} (h : s.PackedAs e data) : s.unpacked e = data := by
  unfold unpacked
  rw [h.decode]

def cellByte (s : Inner) (p : ℕ) : Cell → UInt8
  | .hole => 0
  | .raw phys => (s.disk.view phys).byte (p % blockSize)
  | .packed e => (s.unpacked e).getD (p - e.logical * blockSize) 0

@[simp] theorem cellByte_hole (s : Inner) (p : ℕ) : s.cellByte p .hole = 0 := rfl

@[simp] theorem cellByte_raw (s : Inner) (p phys : ℕ) :
    s.cellByte p (.raw phys) = (s.disk.view phys).byte (p % blockSize) := rfl

@[simp] theorem cellByte_packed (s : Inner) (p : ℕ) (e : Extent) :
    s.cellByte p (.packed e) = (s.unpacked e).getD (p - e.logical * blockSize) 0 := rfl

/-- The byte of a file that its extents give. -/
def storedByte (s : Inner) (i : Inode) (p : ℕ) : UInt8 := s.cellByte p (cellAt i.extents (p / blockSize))

/-- The blocks of the file can be read, and a compressed record stands alone in its range. -/
structure Laid (s : Inner) (i : Inode) : Prop where
  stable : ∀ b, 0 < cover (extentRanges i.extents) b → s.disk.Stable b
  packed : ∀ e ∈ i.extents, e.isCompressed = true → ∃ data, s.PackedAs e data
  start : ∀ e ∈ i.extents, e.isCompressed = true → s.recordBlocks ∣ e.logical
  length : ∀ e ∈ i.extents, e.isCompressed = true → 0 < e.length ∧ e.length ≤ s.recordBlocks
  alone : ∀ e ∈ i.extents, e.isCompressed = true → ∀ n, e.logicalEnd ≤ n →
    n < e.logical + s.recordBlocks → cellAt i.extents n = .hole

/-! ## Blocks of a file -/

theorem cover_of_mem {extents : List Extent} {e : Extent} (he : e ∈ extents) {b : ℕ}
    (hlow : e.physical ≤ b) (hhigh : b < e.physical + e.physLen) : 0 < cover (extentRanges extents) b := by
  have hmem : (e.physical, e.physLen) ∈ extentRanges extents := List.mem_map_of_mem he
  have hle := span_le_cover hmem b
  rw [span_eq_one ⟨hlow, hhigh⟩] at hle
  exact hle

theorem cover_of_raw (hwf : i.Wf) {n phys : ℕ} (h : cellAt i.extents n = .raw phys) :
    0 < cover (extentRanges i.extents) phys := by
  obtain ⟨e, he, hn, hcell⟩ := exists_of_cellAt (by rw [h]; simp : cellAt i.extents n ≠ .hole)
  rw [h, Extent.cell] at hcell
  split_ifs at hcell with hpacked
  rw [Cell.raw.injEq] at hcell
  have hraw : e.compress = 0 := by simpa [Extent.isCompressed] using hpacked
  have hlen := (hwf.extents e he).physLen_eq hraw
  unfold Extent.logicalEnd at hn
  exact cover_of_mem he (by omega) (by omega)

theorem packed_of_cellAt {extents : List Extent} {n : ℕ} {e : Extent} (h : cellAt extents n = .packed e) :
    e ∈ extents ∧ e.isCompressed = true ∧ e.logical ≤ n ∧ n < e.logicalEnd := by
  obtain ⟨e', he, hn, hcell⟩ := exists_of_cellAt (by rw [h]; simp : cellAt extents n ≠ .hole)
  rw [h, Extent.cell] at hcell
  split_ifs at hcell with hpacked
  rw [Cell.packed.injEq] at hcell
  rw [hcell]
  exact ⟨he, hpacked, hn⟩

theorem physLen_pos (hwf : i.Wf) {e : Extent} (he : e ∈ i.extents) (hpacked : e.isCompressed = true) :
    0 < e.physLen := by
  have hne : e.compress ≠ 0 := by simpa [Extent.isCompressed] using hpacked
  have hpos := ((hwf.extents e he).packed hne).1
  unfold Extent.physLen
  rw [if_pos (by omega)]
  exact hpos

theorem cover_of_packed (hwf : i.Wf) {e : Extent} (he : e ∈ i.extents) (hpacked : e.isCompressed = true) {b : ℕ}
    (hlow : e.physical ≤ b) (hhigh : b < e.physical + max e.physLen 1) :
    0 < cover (extentRanges i.extents) b := by
  have hpos := physLen_pos hwf he hpacked
  exact cover_of_mem he hlow (by omega)

/-! ## What keeps the bytes -/

theorem KeepsBlocks.stable {ranges : List (ℕ × ℕ)} (h : KeepsBlocks ranges s t) {b : ℕ} (hb : 0 < cover ranges b)
    (hstable : s.disk.Stable b) : t.disk.Stable b ∧ t.disk.view b = s.disk.view b := by
  have hcopies := h b hb _ (CachedImage.stable_iff_copies.mp hstable)
  exact ⟨hcopies.stable, hcopies.view⟩

theorem KeepsBlocks.quiet {ranges : List (ℕ × ℕ)} (h : CachedImage.Quiet s.disk t.disk) :
    KeepsBlocks ranges s t := fun b _ P hP ↦ h.copies b (fun hf ↦ hf) P hP

theorem bytesOf_congr {d d' : CachedImage} {phys count : ℕ}
    (h : ∀ b, phys ≤ b → b < phys + count → d'.view b = d.view b) : d'.bytesOf phys count = d.bytesOf phys count := by
  unfold CachedImage.bytesOf
  apply List.flatMap_congr
  intro b hb
  rw [List.mem_range'_1] at hb
  rw [h b hb.1 hb.2]

theorem cellByte_congr (henv : t.env = s.env) {p : ℕ} {c : Cell}
    (hraw : ∀ phys, c = .raw phys → t.disk.view phys = s.disk.view phys)
    (hpacked : ∀ e, c = .packed e → ∀ b, e.physical ≤ b → b < e.physical + max e.physLen 1 →
      t.disk.view b = s.disk.view b) : t.cellByte p c = s.cellByte p c := by
  cases c with
  | hole => rfl
  | raw phys => rw [cellByte_raw, cellByte_raw, hraw phys rfl]
  | packed e =>
    rw [cellByte_packed, cellByte_packed, unpacked, unpacked, bytesOf_congr (hpacked e rfl), henv]

theorem storedByte_congr (hdisk : t.disk = s.disk) (henv : t.env = s.env) (i : Inode) (p : ℕ) :
    t.storedByte i p = s.storedByte i p :=
  cellByte_congr henv (fun _ _ ↦ by rw [hdisk]) (fun _ _ _ _ _ ↦ by rw [hdisk])

theorem Laid.congr (h : s.Laid i) (hdisk : t.disk = s.disk) (henv : t.env = s.env)
    (hrecords : t.recordBlocks = s.recordBlocks) : t.Laid i where
  stable := by
    rw [hdisk]
    exact h.stable
  packed e he hpacked := by
    obtain ⟨data, hdata⟩ := h.packed e he hpacked
    refine ⟨data, ?_, hdata.length_le⟩
    rw [hdisk, henv]
    exact hdata.decode
  start := by
    rw [hrecords]
    exact h.start
  length := by
    rw [hrecords]
    exact h.length
  alone := by
    rw [hrecords]
    exact h.alone

variable (hwf : i.Wf) (hblocks : KeepsBlocks (extentRanges i.extents) s t) (henv : t.env = s.env)
include hwf hblocks henv

theorem Laid.storedByte_eq (h : s.Laid i) (p : ℕ) : t.storedByte i p = s.storedByte i p := by
  apply cellByte_congr henv
  · intro phys hcell
    have hcover := cover_of_raw hwf hcell
    exact (hblocks.stable hcover (h.stable phys hcover)).2
  · intro e hcell b hlow hhigh
    obtain ⟨he, hpacked, -⟩ := packed_of_cellAt hcell
    have hcover := cover_of_packed hwf he hpacked hlow hhigh
    exact (hblocks.stable hcover (h.stable b hcover)).2

theorem Laid.packedAs (h : s.Laid i) {e : Extent} (he : e ∈ i.extents) (hpacked : e.isCompressed = true)
    {data : Bytes} (hdata : s.PackedAs e data) : t.PackedAs e data := by
  refine ⟨?_, hdata.length_le⟩
  rw [henv, bytesOf_congr (d := s.disk)]
  · exact hdata.decode
  · intro b hlow hhigh
    have hcover := cover_of_packed hwf he hpacked hlow hhigh
    exact (hblocks.stable hcover (h.stable b hcover)).2

theorem Laid.keep (h : s.Laid i) (hrecords : t.recordBlocks = s.recordBlocks) : t.Laid i where
  stable b hb := (hblocks.stable hb (h.stable b hb)).1
  packed e he hpacked := by
    obtain ⟨data, hdata⟩ := h.packed e he hpacked
    exact ⟨data, h.packedAs hwf hblocks henv he hpacked hdata⟩
  start := by
    rw [hrecords]
    exact h.start
  length := by
    rw [hrecords]
    exact h.length
  alone := by
    rw [hrecords]
    exact h.alone

omit hwf hblocks henv

/-! ## Compressed records -/

/-- All bytes of the range of a compressed record come from it. -/
theorem Laid.storedByte_packed (h : s.Laid i) (hclear : i.extents.Pairwise Clear) {e : Extent}
    (he : e ∈ i.extents) (hpacked : e.isCompressed = true) {p : ℕ} (hlow : e.logical * blockSize ≤ p)
    (hhigh : p < (e.logical + s.recordBlocks) * blockSize) :
    s.storedByte i p = (s.unpacked e).getD (p - e.logical * blockSize) 0 := by
  have hpos : 0 < blockSize := by decide
  have hstart : e.logical ≤ p / blockSize := (Nat.le_div_iff_mul_le hpos).mpr hlow
  have hstop : p / blockSize < e.logical + s.recordBlocks := (Nat.div_lt_iff_lt_mul hpos).mpr hhigh
  by_cases hin : p / blockSize < e.logicalEnd
  · unfold storedByte
    rw [cellAt_of_mem hclear he ⟨hstart, hin⟩, Extent.cell, if_pos hpacked]
    rfl
  · obtain ⟨data, hdata⟩ := h.packed e he hpacked
    have hbeyond : e.logicalEnd * blockSize ≤ p :=
      (Nat.le_div_iff_mul_le hpos).mp (Nat.le_of_not_lt hin)
    have hlen : data.length ≤ p - e.logical * blockSize := by
      have hle := hdata.length_le
      unfold Extent.logicalEnd at hbeyond
      rw [Nat.add_mul] at hbeyond
      omega
    unfold storedByte
    rw [h.alone e he hpacked _ (Nat.le_of_not_lt hin) hstop, hdata.unpacked_eq, List.getD_eq_default _ _ hlen]
    rfl

end Inner

end LinuxFile
