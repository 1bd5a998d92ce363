import LinuxFile.Spec.RawWrite

/-!
# Storing a record

A record that is stored replaces what stood in its range: all zeros become a hole, other data a raw or
a compressed extent. The blocks are taken and filled before the old ones are given back, so until then nothing
that is stored changes.
-/

namespace LinuxFile

open Ledger

/-! ## Decoding what was encoded -/

theorem tryCompress_payload {lz : Lz4} {algo : Compression} {src : Bytes}
    (h : (tryCompress lz algo src).1.isOff = false) : (tryCompress lz algo src).2 = lz.compress src := by
  unfold tryCompress at *
  split_ifs at h ⊢ with hsmall
  · cases h
  · cases algo with
    | off => cases h
    | lz4 =>
      dsimp only at h ⊢
      split_ifs at h ⊢ with hsaves
      · rfl
      · cases h

theorem flatMap_dataBlock (data : Bytes) {n : ℕ} (hlen : data.length = n * blockSize) :
    (List.range n).flatMap (fun j ↦ (dataBlock data j).slice 0 blockSize) = data := by
  induction n generalizing data with
  | zero =>
    rw [Nat.zero_mul] at hlen
    rw [List.eq_nil_of_length_eq_zero hlen]
    rfl
  | succ n ih =>
    have htail : (data.drop blockSize).length = n * blockSize := by
      rw [List.length_drop, hlen, Nat.succ_mul]
      omega
    have hhead : (dataBlock data 0).slice 0 blockSize = data.take blockSize := by
      unfold dataBlock
      rw [Nat.zero_mul, List.drop_zero, Buf.ofBytes_slice, List.take_take, min_self]
      · rw [List.length_take, hlen, Nat.succ_mul]
        omega
      · exact le_refl _
    have hshift : ∀ j, dataBlock data (j + 1) = dataBlock (data.drop blockSize) j := by
      intro j
      unfold dataBlock
      rw [List.drop_drop, Nat.succ_mul, Nat.add_comm blockSize]
    rw [List.range_succ_eq_map, List.flatMap_cons, List.flatMap_map, hhead]
    simp only [Nat.succ_eq_add_one, hshift]
    rw [ih _ htail, List.take_append_drop]

theorem take_recordImage {hdr : RecordHeader} (payload : Bytes) (hlen : payload.length = hdr.payloadLen) :
    (Inner.recordImage hdr payload).take (headerSize + payload.length) =
      hdr.encode.slice 0 headerSize ++ payload := by
  have hfits : headerSize + payload.length ≤ hdr.physBlocks * blockSize := by
    unfold RecordHeader.physBlocks
    rw [hlen]
    exact le_ceilBlocks_mul _
  have hwhole : (hdr.encode.slice 0 headerSize ++ payload).length = headerSize + payload.length := by simp
  unfold Inner.recordImage resizeBytes
  rw [List.take_append_of_le_length (by rw [List.length_take, hwhole]; omega), List.take_take, min_eq_left hfits,
    ← hwhole, List.take_length]

theorem decodeRecord_recordImage {lz : Lz4} {hdr : RecordHeader} (hvalid : hdr.Valid) {payload data : Bytes}
    (hlen : payload.length = hdr.payloadLen) (hcrc : hdr.crc = Crc.crc32 payload)
    (hdata : decompress lz hdr.algo payload hdr.uncompressedLen = .ok data) :
    decodeRecord lz (Inner.recordImage hdr payload) = .ok data := by
  set raw := Inner.recordImage hdr payload with hraw
  have htake := take_recordImage payload hlen
  rw [← hraw] at htake
  have hlong : headerSize + payload.length ≤ raw.length := by
    have := congrArg List.length htake
    rw [List.length_take, List.length_append, Buf.slice_length] at this
    omega
  have hhead : raw.take headerSize = hdr.encode.slice 0 headerSize := by
    calc raw.take headerSize = (raw.take (headerSize + payload.length)).take headerSize := by
          rw [List.take_take, min_eq_left (by omega)]
      _ = (hdr.encode.slice 0 headerSize ++ payload).take headerSize := by rw [htake]
      _ = hdr.encode.slice 0 headerSize := List.take_left' (by simp)
  have hparse : RecordHeader.parse (Buf.ofBytes raw.length raw) = some hdr := by
    apply RecordHeader.parse_eq_some (by omega) hvalid
    rw [Buf.ofBytes_slice (by omega) (by omega), hhead]
  have hpayload : (raw.drop headerSize).take hdr.payloadLen = payload := by
    calc (raw.drop headerSize).take hdr.payloadLen = (raw.take (headerSize + payload.length)).drop headerSize := by
          rw [List.drop_take, Nat.add_sub_cancel_left, hlen]
      _ = (hdr.encode.slice 0 headerSize ++ payload).drop headerSize := by rw [htake]
      _ = payload := List.drop_left' (by simp)
  unfold decodeRecord
  rw [hparse]
  dsimp only
  rw [if_neg (by omega), hpayload, if_neg (by simp [hcrc]), hdata]

/-- Blocks that show a run of bytes are read as that run. -/
theorem CachedImage.bytesOf_eq {d : CachedImage} {data : Bytes} {phys n : ℕ} (hlen : data.length = n * blockSize)
    (hview : ∀ b, phys ≤ b → b < phys + n → d.view b = dataBlock data (b - phys)) : d.bytesOf phys n = data := by
  unfold CachedImage.bytesOf
  rw [List.range'_eq_map_range, List.flatMap_map]
  refine Eq.trans (List.flatMap_congr fun k hk ↦ ?_) (flatMap_dataBlock data hlen)
  rw [List.mem_range] at hk
  rw [hview (phys + k) (Nat.le_add_right _ _) (by omega), Nat.add_sub_cancel_left]

namespace Inner

variable {s t : Inner} {i i' : Inode} {ino : ℕ}

/-! ## Records and blocks -/

theorem div_recordBytes (s : Inner) (p : ℕ) : p / s.recordBytes = p / blockSize / s.recordBlocks := by
  unfold recordBytes
  rw [Nat.mul_comm, Nat.div_div_eq_div_mul]

theorem div_eq_iff_range {n record size : ℕ} (hpos : 0 < size) :
    n / size = record ↔ record * size ≤ n ∧ n < record * size + size := by
  rw [Nat.div_eq_iff hpos, Nat.mul_comm]
  omega

/-- A compressed extent does not straddle the bounds of a record. -/
theorem Laid.aligned (h : s.Laid i) (record : ℕ) {e : Extent} (he : e ∈ i.extents) (hpacked : e.isCompressed = true) :
    e.logicalEnd ≤ record * s.recordBlocks ∨ record * s.recordBlocks + s.recordBlocks ≤ e.logical ∨
      record * s.recordBlocks ≤ e.logical ∧ e.logicalEnd ≤ record * s.recordBlocks + s.recordBlocks := by
  obtain ⟨r, hr⟩ := h.start e he hpacked
  have hlen := (h.length e he hpacked).2
  unfold Extent.logicalEnd
  rw [hr, Nat.mul_comm]
  rcases Nat.lt_trichotomy r record with hlt | heq | hgt
  · have hle : (r + 1) * s.recordBlocks ≤ record * s.recordBlocks := Nat.mul_le_mul_right _ hlt
    rw [Nat.add_mul] at hle
    omega
  · rw [heq]
    omega
  · have hle : (record + 1) * s.recordBlocks ≤ r * s.recordBlocks := Nat.mul_le_mul_right _ hgt
    rw [Nat.add_mul] at hle
    omega

/-! ## New blocks for a range -/

/-- New blocks from `phys` on hold `data`, and the inode has a hole where they will go. -/
structure Cleared (s : Inner) (ino : ℕ) (i : Inode) (start stop : ℕ) (data : Bytes) (phys n : ℕ) (w : Inner) :
    Prop where
  inodes : w.inodes = s.inodes.insert ino (punched start stop i)
  dirty : w.dirtyInodes = s.dirtyInodes.insert ino ()
  shell : SameShell s w
  record : w.recordCache = s.recordCache
  inv : w.Inv w.inodes [(phys, n)]
  keeps : ∀ k j, s.inodes.find? k = some j → KeepsBlocks (extentRanges j.extents) s w
  filled : ∀ j, j < max (ceilBlocks data.length) 1 → w.disk.Copies (· = dataBlock data j) (phys + j)

theorem clearRange_clears {α : Type} {Q : α → Inner → Prop} (h : s.Inv s.inodes [])
    (hmem : s.inodes.find? ino = some i) {start stop : ℕ} (hlt : start < stop) {data : Bytes} {n : ℕ}
    (hn : max (ceilBlocks data.length) 1 ≤ n) {f : ℕ → Fs α}
    (hf : ∀ phys w, Cleared s ino i start stop data phys n w → (f phys).Holds w Q (fun e _ ↦ e.IsHost)) :
    (do
      let phys ← onAlloc (Allocator.allocate n)
      writePhysicalBytes phys data
      punchLogicalRange ino start stop
      f phys).Holds s Q (fun e _ ↦ e.IsHost) := by
  refine (allocate_takes h (by omega)).bind ?_ (fun _ _ he ↦ he)
  rintro phys _ ⟨hinv, -, alloc, img, rfl, hgrown⟩
  refine (writePhysicalBytes_fills (n := n) hinv (fun b hlow hhigh ↦ ?_) data hn).bind ?_ (fun _ _ he ↦ he)
  · rw [cover_cons, span_eq_one ⟨hlow, hhigh⟩]
    omega
  · rintro _ _ ⟨hinv', d, rfl, hstep, hcopies⟩
    have hmem' : (withDisk { s with alloc := alloc, image := img } d).inodes.find? ino = some i := hmem
    rw [Exec.holds_bind_of_ok (punch_eq hmem' hlt)]
    refine hf phys _ ⟨rfl, rfl, rfl, rfl, punch_inv hinv' hmem' hlt, fun k j hj b hb P hP ↦ ?_, hcopies⟩
    refine hstep.copies b ?_ P ((CachedImage.Step.of_grown hgrown).copies b (fun hf ↦ hf) P hP)
    intro hin
    have hfree := (hinv.hand_free (b := b) (by
      rw [cover_cons, span_eq_one hin]
      omega)).2 k j hj
    rw [cover_ranges] at hfree
    omega

/-! ## The record in its new place -/

/-- The record of the file is now `data`, padded with zeros. -/
structure RecordStored (s : Inner) (ino : ℕ) (i : Inode) (record : ℕ) (data : Bytes) (i' : Inode) (t : Inner) :
    Prop where
  rewritten : Rewritten s ino i' t
  cache : t.recordCache = s.recordCache
  stowed : Stowed i i'
  bytes : ∀ p, t.storedByte i' p =
    if p / s.recordBytes = record then data.getD (p - record * s.recordBytes) 0 else s.storedByte i p

/-- What is left to say about the new cells of a record once its blocks are in place. -/
structure Placed (s : Inner) (i : Inode) (record : ℕ) (data : Bytes) (i' : Inode) (t : Inner) : Prop where
  stable : ∀ b, 0 < cover (extentRanges i'.extents) b → 0 < cover (extentRanges i.extents) b ∨ t.disk.Stable b
  packed : ∀ e ∈ i'.extents, e.isCompressed = true → e ∈ i.extents ∧
    (e.logicalEnd ≤ record * s.recordBlocks ∨ record * s.recordBlocks + s.recordBlocks ≤ e.logical) ∨
    e.logical = record * s.recordBlocks ∧ 0 < e.length ∧ e.length ≤ s.recordBlocks ∧ t.PackedAs e data ∧
      ∀ n, e.logicalEnd ≤ n → n < e.logical + s.recordBlocks → cellAt i'.extents n = .hole
  cells : ∀ n, ¬(record * s.recordBlocks ≤ n ∧ n < record * s.recordBlocks + s.recordBlocks) →
    cellAt i'.extents n = cellAt i.extents n
  bytes : ∀ p, record * s.recordBytes ≤ p → p < record * s.recordBytes + s.recordBytes →
    t.storedByte i' p = data.getD (p - record * s.recordBytes) 0

theorem recordStored_of_placed (h : s.Inv s.inodes []) (hmem : s.inodes.find? ino = some i) (hlaid : s.Laid i)
    {record : ℕ} {data : Bytes} (hinodes : t.inodes = s.inodes.insert ino i') (hshell : SameShell s t)
    (hrecord : t.recordCache = s.recordCache) (hinv : t.Inv t.inodes []) (hstowed : Stowed i i')
    (hkeeps : ∀ k j, s.inodes.find? k = some j → KeepsBlocks (extentRanges j.extents) s t)
    (hplaced : Placed s i record data i' t) : RecordStored s ino i record data i' t := by
  have hwf := h.numbered.shape ino i hmem
  have hpos : 0 < s.recordBlocks := h.geometry.records.1
  have hposB : 0 < s.recordBytes := Nat.mul_pos hpos (by decide)
  have hown := hkeeps ino i hmem
  have hold := hlaid.keep hwf hown hshell.env hshell.recordBlocks
  refine ⟨⟨hinodes, hshell, hinv, ?_, fun k j _ hj ↦ hkeeps k j hj⟩, hrecord, hstowed, fun p ↦ ?_⟩
  · refine ⟨fun b hb ↦ ?_, fun e he hp ↦ ?_, fun e he hp ↦ ?_, fun e he hp ↦ ?_, fun e he hp n hlow hhigh ↦ ?_⟩
    · exact (hplaced.stable b hb).elim (hold.stable b) id
    · rcases hplaced.packed e he hp with ⟨hin, -⟩ | ⟨-, -, -, hdata, -⟩
      · exact hold.packed e hin hp
      · exact ⟨data, hdata⟩
    · rcases hplaced.packed e he hp with ⟨hin, -⟩ | ⟨hlog, -⟩
      · exact hold.start e hin hp
      · rw [hlog, hshell.recordBlocks]
        exact Nat.dvd_mul_left _ _
    · rcases hplaced.packed e he hp with ⟨hin, -⟩ | ⟨-, hlen, hle, -⟩
      · exact hold.length e hin hp
      · rw [hshell.recordBlocks]
        exact ⟨hlen, hle⟩
    · rw [hshell.recordBlocks] at hhigh
      rcases hplaced.packed e he hp with ⟨hin, hout⟩ | ⟨-, -, -, -, halone⟩
      · -- the rest of an old record is not in the range of the new one
        obtain ⟨r, hr⟩ := hlaid.start e hin hp
        have hne : ¬(record * s.recordBlocks ≤ n ∧ n < record * s.recordBlocks + s.recordBlocks) := by
          rw [Nat.mul_comm] at hr
          have hlen := (hlaid.length e hin hp).1
          unfold Extent.logicalEnd at hout hlow
          intro hn
          have hr' : n / s.recordBlocks = r := (div_eq_iff_range hpos).mpr (by omega)
          have hrec : n / s.recordBlocks = record := (div_eq_iff_range hpos).mpr hn
          rw [hr'] at hrec
          rw [hrec] at hr
          omega
        rw [hplaced.cells n hne]
        exact hlaid.alone e hin hp n hlow hhigh
      · exact halone n hlow hhigh
  · rw [← hlaid.storedByte_eq hwf hown hshell.env p]
    split_ifs with hin
    · rw [div_eq_iff_range hposB] at hin
      exact hplaced.bytes p hin.1 hin.2
    · unfold storedByte
      rw [hplaced.cells]
      intro hn
      apply hin
      rw [div_recordBytes]
      exact (div_eq_iff_range hpos).mpr hn

theorem block_of_record (s : Inner) {record p : ℕ} (hlow : record * s.recordBytes ≤ p)
    (hhigh : p < record * s.recordBytes + s.recordBytes) :
    record * s.recordBlocks ≤ p / blockSize ∧ p / blockSize < record * s.recordBlocks + s.recordBlocks := by
  have hmul : (record * s.recordBlocks + s.recordBlocks) * blockSize = record * s.recordBytes + s.recordBytes := by
    unfold recordBytes
    rw [Nat.add_mul, Nat.mul_assoc]
  constructor
  · rw [Nat.le_div_iff_mul_le (by decide), Nat.mul_assoc]
    exact hlow
  · rw [Nat.div_lt_iff_lt_mul (by decide), hmul]
    exact hhigh

theorem punched_stable (h : s.Inv s.inodes []) (hmem : s.inodes.find? ino = some i) {start stop : ℕ}
    (hlt : start < stop) {b : ℕ} (hb : 0 < cover (extentRanges (punched start stop i).extents) b) :
    0 < cover (extentRanges i.extents) b := by
  have hcover := (punched_extents h hmem hlt).cover b
  omega

/-- A record without data is a hole. -/
theorem placed_of_zeros (h : s.Inv s.inodes []) (hmem : s.inodes.find? ino = some i) (hlaid : s.Laid i) {record : ℕ}
    {data : Bytes} (hzero : data.all (· == 0) = true) : Placed s i record data
      (punched (record * s.recordBlocks) (record * s.recordBlocks + s.recordBlocks) i) t := by
  have hlt : record * s.recordBlocks < record * s.recordBlocks + s.recordBlocks :=
    Nat.lt_add_of_pos_right h.geometry.records.1
  have hp := punched_extents h hmem hlt
  have hcell := hp.cell fun e he hpacked ↦ hlaid.aligned record he hpacked
  refine ⟨fun b hb ↦ Or.inl (punched_stable h hmem hlt hb), fun e he hpacked ↦ ?_, fun n hn ↦ ?_,
    fun p hlow hhigh ↦ ?_⟩
  · exact Or.inl ⟨hp.packed e he hpacked, hp.outside e he⟩
  · rw [hcell, if_neg hn]
  · unfold storedByte
    rw [hcell, if_pos (block_of_record s hlow hhigh), cellByte_hole]
    by_cases hin : p - record * s.recordBytes < data.length
    · rw [List.getD_eq_getElem _ _ hin]
      exact (beq_iff_eq.mp (List.all_eq_true.mp hzero _ (List.getElem_mem hin))).symm
    · rw [List.getD_eq_default _ _ (by omega)]

/-- A record in one extent. -/
theorem placed_of_added (h : s.Inv s.inodes []) (hmem : s.inodes.find? ino = some i) (hlaid : s.Laid i) {record : ℕ}
    {data : Bytes} {j : Inode} {ext : Extent} (hj : j.extents =
      (punched (record * s.recordBlocks) (record * s.recordBlocks + s.recordBlocks) i).extents)
    (hadded : Added j ext i'.extents) (hlogical : ext.logical = record * s.recordBlocks)
    (hlen : 0 < ext.length ∧ ext.length ≤ s.recordBlocks) (hdata : data.length ≤ ext.length * blockSize)
    (hstable : ∀ b, ext.physical ≤ b → b < ext.physical + ext.physLen → t.disk.Stable b)
    (hpacked : ext.isCompressed = true → t.PackedAs ext data)
    (hbytes : ∀ p, ext.logical ≤ p / blockSize → p / blockSize < ext.logicalEnd →
      t.cellByte p (ext.cell (p / blockSize)) = data.getD (p - record * s.recordBytes) 0) :
    Placed s i record data i' t := by
  have hlt : record * s.recordBlocks < record * s.recordBlocks + s.recordBlocks :=
    Nat.lt_add_of_pos_right h.geometry.records.1
  have hp := punched_extents h hmem hlt
  have hcell : ∀ n, cellAt i'.extents n = if ext.logical ≤ n ∧ n < ext.logicalEnd then ext.cell n
      else if record * s.recordBlocks ≤ n ∧ n < record * s.recordBlocks + s.recordBlocks then .hole
      else cellAt i.extents n := by
    intro n
    rw [hadded.cell, hj, hp.cell fun e he hpacked ↦ hlaid.aligned record he hpacked]
  have hend : ext.logicalEnd = ext.logical + ext.length := rfl
  refine ⟨fun b hb ↦ ?_, fun e he hpk ↦ ?_, fun n hn ↦ ?_, fun p hlow hhigh ↦ ?_⟩
  · rw [hadded.cover, hj] at hb
    by_cases hin : ext.physical ≤ b ∧ b < ext.physical + ext.physLen
    · exact Or.inr (hstable b hin.1 hin.2)
    · rw [span_eq_zero hin, Nat.add_zero] at hb
      exact Or.inl (punched_stable h hmem hlt hb)
  · rcases hadded.packed e he hpk with hold | rfl
    · rw [hj] at hold
      exact Or.inl ⟨hp.packed e hold hpk, hp.outside e hold⟩
    · refine Or.inr ⟨hlogical, hlen.1, hlen.2, hpacked hpk, fun n hlow hhigh ↦ ?_⟩
      rw [hcell, if_neg (by omega), if_pos (by omega)]
  · rw [hcell, if_neg (by omega), if_neg hn]
  · have hblock := block_of_record s hlow hhigh
    unfold storedByte
    rw [hcell]
    by_cases hin : p / blockSize < ext.logicalEnd
    · rw [if_pos ⟨by omega, hin⟩]
      exact hbytes p (by omega) hin
    · rw [if_neg (by omega), if_pos hblock, cellByte_hole, List.getD_eq_default]
      have hp' : (ext.logical + ext.length) * blockSize ≤ p :=
        (Nat.le_div_iff_mul_le (by decide)).mp (by omega)
      have hmul : ext.logical * blockSize = record * s.recordBytes := by
        rw [hlogical, Nat.mul_assoc]
        rfl
      rw [Nat.add_mul, hmul] at hp'
      omega

/-- The cleared range takes the new extent. `j` is the inode with the flags it will have. -/
theorem recordStored_of_added (h : s.Inv s.inodes []) (hmem : s.inodes.find? ino = some i) (hlaid : s.Laid i)
    {record : ℕ} {data bytes : Bytes} {phys n : ℕ} {w : Inner}
    (hw : Cleared s ino i (record * s.recordBlocks) (record * s.recordBlocks + s.recordBlocks) bytes phys n w)
    {j : Inode} {ext : Extent} (hj : j.extents =
      (punched (record * s.recordBlocks) (record * s.recordBlocks + s.recordBlocks) i).extents)
    (hadded : Added j ext i'.extents) (hstowed : Stowed i i')
    (hi' : i' = { punched (record * s.recordBlocks) (record * s.recordBlocks + s.recordBlocks) i with
      extents := i'.extents, dataKind := i'.dataKind, flags := i'.flags, blocks := i'.blocks })
    (hflags : j.flags &&& flagCompressed ≠ 0 → i'.flags &&& flagCompressed ≠ 0)
    (hlogical : ext.logical = record * s.recordBlocks) (hphys : ext.physical = phys) (hn : ext.physLen = n)
    (hlen : 0 < ext.length ∧ ext.length ≤ s.recordBlocks) (hdata : data.length ≤ ext.length * blockSize)
    (hstable : ∀ b, phys ≤ b → b < phys + n → w.disk.Stable b) (hhead : ext.isCompressed = true → w.HeaderAt ext)
    (hpacked : ext.isCompressed = true → w.PackedAs ext data)
    (hbytes : ∀ p, ext.logical ≤ p / blockSize → p / blockSize < ext.logicalEnd →
      w.cellByte p (ext.cell (p / blockSize)) = data.getD (p - record * s.recordBytes) 0) :
    RecordStored s ino i record data i'
      { w with inodes := w.inodes.insert ino i', dirtyInodes := w.dirtyInodes.insert ino () } := by
  have hmem' : w.inodes.find? ino =
      some (punched (record * s.recordBlocks) (record * s.recordBlocks + s.recordBlocks) i) := by
    rw [hw.inodes]
    exact KeyMap.find?_insert_self _ _ _
  have hinv := hw.inv.addExtent hmem' hi' (fun hne ↦ hstowed.flags_ne hne) hstowed.kind hj hflags hadded
    (show ∀ b, span ext.physical ext.physLen b + cover [] b ≤ cover [(phys, n)] b from fun b ↦ by
      rw [hphys, hn, cover_nil, cover_cons]
      exact Nat.le_refl _) hhead
  refine recordStored_of_placed h hmem hlaid ?_ (hw.shell.trans rfl) hw.record hinv hstowed hw.keeps
    (placed_of_added h hmem hlaid hj hadded hlogical hlen hdata ?_
      (fun hpk ↦ ⟨(hpacked hpk).decode, (hpacked hpk).length_le⟩) hbytes)
  · change w.inodes.insert ino i' = _
    rw [hw.inodes, KeyMap.insert_insert]
  · intro b hlow hhigh
    rw [hphys] at hlow
    rw [hphys, hn] at hhigh
    exact hstable b hlow hhigh

theorem Cleared.stable {start stop : ℕ} {data : Bytes} {phys n : ℕ} {w : Inner}
    (hw : Cleared s ino i start stop data phys n w) (hn : n = max (ceilBlocks data.length) 1) {b : ℕ}
    (hlow : phys ≤ b) (hhigh : b < phys + n) :
    w.disk.Stable b ∧ w.disk.view b = dataBlock data (b - phys) := by
  have hcopy := hw.filled (b - phys) (by omega)
  rw [Nat.add_sub_cancel' hlow] at hcopy
  exact ⟨hcopy.stable, hcopy.view⟩

/-- `store_record`. -/
theorem storeRecord_stores (h : s.Inv s.inodes []) (hmem : s.inodes.find? ino = some i) (hlaid : s.Laid i)
    {record : ℕ} (hrecord : record * s.recordBlocks ≤ maxFileSize / blockSize) {data : Bytes}
    (hdata : data.length ≤ s.recordBytes) :
    (storeRecord ino record data).Holds s (fun _ t ↦ ∃ i', RecordStored s ino i record data i' t)
      (fun e _ ↦ e.IsHost) := by
  have hrec := h.geometry.records
  have hwf := h.numbered.shape ino i hmem
  have hmax : maxFileSize / blockSize + maxRecordBlocks ≤ maxLogical := by decide
  have hsmall : maxRecordBlocks < u32Limit := by decide
  have hlen : max (ceilBlocks data.length) 1 ≤ s.recordBlocks := by
    have := ceilBlocks_le hdata
    omega
  have hlt : record * s.recordBlocks < record * s.recordBlocks + s.recordBlocks := by omega
  unfold storeRecord
  rw [Exec.holds_bind, Exec.holds_read]
  dsimp only
  by_cases hzero : data.all (· == 0) = true
  · rw [if_pos hzero, Exec.holds_iff_of_ok (punch_eq hmem hlt)]
    exact ⟨_, recordStored_of_placed h hmem hlaid rfl rfl rfl (punch_inv h hmem hlt) (stowed_of_punched _ _ i)
      (fun _ _ _ _ _ _ hP ↦ hP) (placed_of_zeros h hmem hlaid hzero)⟩
  rw [if_neg hzero, Exec.holds_bind_of_ok (getInode_mem hmem), Exec.holds_bind, Exec.holds_read]
  have hp := punched_extents h hmem hlt
  have hclear : ∀ phys n k, ∀ algo, n ≤ s.recordBlocks → ∀ e ∈ (punched (record * s.recordBlocks)
      (record * s.recordBlocks + s.recordBlocks) i).extents,
      Clear e (Extent.withPhys (record * s.recordBlocks) phys n k algo) := by
    intro phys n k algo hn e he b hb
    unfold Extent.withPhys Extent.logicalEnd at hb
    have := hp.outside e he
    unfold Extent.logicalEnd at this
    dsimp only at hb
    omega
  have hlong : data.length ≤ max (ceilBlocks data.length) 1 * blockSize :=
    (le_ceilBlocks_mul _).trans (Nat.mul_le_mul_right _ (le_max_left _ _))
  by_cases hoff : (tryCompress s.env.lz4 (Compression.fromU8 i.compression) data).1.isOff = true
  · rw [if_pos hoff]
    refine clearRange_clears h hmem hlt le_rfl ?_
    intro phys w hw
    have hmem' : w.inodes.find? ino =
        some (punched (record * s.recordBlocks) (record * s.recordBlocks + s.recordBlocks) i) := by
      rw [hw.inodes]
      exact KeyMap.find?_insert_self _ _ _
    have hwf' := hw.inv.numbered.shape ino _ hmem'
    refine (addExtent_eval hmem' rfl hwf' (Extent.withPhys_wf (by omega) (by omega) (by omega))
      (hclear phys _ _ _ hlen)).bind ?_ (fun _ _ he ↦ he.elim)
    rintro _ _ ⟨extents, hadded, rfl⟩
    rw [Exec.holds_iff_of_ok (getInodeMut_mem (KeyMap.find?_insert_self _ _ _) _), KeyMap.insert_insert,
      KeyMap.insert_insert]
    have hstowed : Stowed i { setExtents extents (punched (record * s.recordBlocks)
        (record * s.recordBlocks + s.recordBlocks) i) with blocks := sectorsOf extents } :=
      ⟨rfl, kindOf_ne_inline extents, Or.inl rfl⟩
    refine ⟨_, recordStored_of_added h hmem hlaid hw rfl hadded hstowed rfl id rfl rfl Extent.withPhys_physLen ⟨by dsimp only [Extent.withPhys]; omega, hlen⟩ hlong
      (fun b hlow hhigh ↦ (hw.stable rfl hlow hhigh).1) (fun hpk ↦ by cases hpk) (fun hpk ↦ by cases hpk) ?_⟩
    · intro p hlow hhigh
      change record * s.recordBlocks ≤ p / blockSize at hlow
      change p / blockSize < record * s.recordBlocks + max (ceilBlocks data.length) 1 at hhigh
      have hview := (hw.stable rfl (b := phys + (p / blockSize - record * s.recordBlocks)) (by omega) (by omega)).2
      rw [Nat.add_sub_cancel_left] at hview
      rw [Extent.cell_raw rfl, cellByte_raw]
      change (w.disk.view (phys + (p / blockSize - record * s.recordBlocks))).byte _ = _
      rw [hview, getD_dataBlock _ _ (Nat.mod_lt _ (by decide))]
      congr 1
      have hmul : record * s.recordBytes = record * s.recordBlocks * blockSize := by
        rw [Nat.mul_assoc]
        rfl
      have hdiv := Nat.div_add_mod p blockSize
      rw [hmul, Nat.sub_mul, Nat.mul_comm (p / blockSize)]
      have hle : record * s.recordBlocks * blockSize ≤ blockSize * (p / blockSize) := by
        rw [Nat.mul_comm blockSize]
        exact Nat.mul_le_mul_right _ hlow
      omega
  · rw [if_neg hoff]
    obtain ⟨hlz4, halgo, hpos, hsaves⟩ := tryCompress_packed (Bool.eq_false_of_not_eq_true hoff)
    have hpayload := tryCompress_payload (Bool.eq_false_of_not_eq_true hoff)
    set packed := tryCompress s.env.lz4 (Compression.fromU8 i.compression) data
    set hdr : RecordHeader := ⟨packed.1, max (ceilBlocks data.length) 1, packed.2.length, data.length,
      Crc.crc32 packed.2⟩ with hhdr
    have hvalid : hdr.Valid := header_valid hlz4 rfl hpos hsaves hdata hrec.1 hrec.2
    have hphys : 0 < hdr.physBlocks := physBlocks_pos hdr
    have hblocks : hdr.physBlocks = max (ceilBlocks (recordImage hdr packed.2).length) 1 := by
      rw [recordImage_blocks]
      omega
    refine clearRange_clears h hmem hlt hblocks.ge ?_
    intro phys w hw
    have hmem' : w.inodes.find? ino =
        some (punched (record * s.recordBlocks) (record * s.recordBlocks + s.recordBlocks) i) := by
      rw [hw.inodes]
      exact KeyMap.find?_insert_self _ _ _
    set i₁ := punched (record * s.recordBlocks) (record * s.recordBlocks + s.recordBlocks) i with hi₁
    have hwf' := hw.inv.numbered.shape ino _ hmem'
    have hjwf : Inode.Wf { i₁ with flags := i₁.flags ||| flagCompressed } :=
      ⟨fun e he ↦ (hwf'.extents e he).congr fun _ ↦ flags_set_compressed _, hwf'.clear, hwf'.tree, hwf'.size_le,
        hwf'.inline⟩
    set ext := Extent.withPhys (record * s.recordBlocks) phys (max (ceilBlocks data.length) 1) hdr.physBlocks
      packed.1.asU8 with hext
    have hcomp : ext.isCompressed = true := by
      change (packed.1.asU8 != 0) = true
      rw [hlz4]
      rfl
    have hextlen : ext.physLen = hdr.physBlocks := by
      unfold Extent.physLen
      exact if_pos (by change hdr.physBlocks ≠ 0; omega)
    have hextwf : ext.Wf { i₁ with flags := i₁.flags ||| flagCompressed } := by
      have hstop : record * s.recordBlocks + s.recordBlocks ≤ maxLogical := by omega
      refine ⟨hlen.trans_lt (by omega), (Nat.add_le_add_left hlen _).trans hstop, fun hraw ↦ ?_,
        fun _ ↦ ⟨hphys, flags_set_compressed _⟩, fun hzero ↦ ?_⟩
      · change packed.1.asU8 = 0 at hraw
        rw [hlz4] at hraw
        cases hraw
      · change max _ _ = 0 at hzero
        omega
    have hfilled : ∀ b, phys ≤ b → b < phys + hdr.physBlocks → w.disk.Stable b ∧
        w.disk.view b = dataBlock (recordImage hdr packed.2) (b - phys) :=
      fun b hlow hhigh ↦ hw.stable hblocks hlow hhigh
    have hpacked : w.PackedAs ext data := by
      refine ⟨?_, hlong⟩
      rw [hextlen, max_eq_left (by omega), hw.shell.env]
      change decodeRecord s.env.lz4 (w.disk.bytesOf phys hdr.physBlocks) = _
      rw [CachedImage.bytesOf_eq (by unfold recordImage; rw [resizeBytes_length]) fun b hlow hhigh ↦
        (hfilled b hlow hhigh).2]
      apply decodeRecord_recordImage hvalid rfl rfl
      rw [show hdr.algo = .lz4 from hlz4]
      unfold decompress
      dsimp only
      rw [hpayload, s.env.lz4.decompress_compress]
    rw [← bind_assoc]
    have hadd : (do
        addExtent ino ext
        getInodeMut ino (fun i ↦ { i with flags := i.flags ||| flagCompressed }) : Fs Unit).Holds w
        (fun _ t ↦ ∃ extents, Added { i₁ with flags := i₁.flags ||| flagCompressed } ext extents ∧ t = { w with
          inodes := w.inodes.insert ino { setExtents extents i₁ with flags := i₁.flags ||| flagCompressed }
          dirtyInodes := w.dirtyInodes.insert ino () }) (fun e _ ↦ e.IsHost) := by
      refine (addExtent_eval (j := { i₁ with flags := i₁.flags ||| flagCompressed }) hmem' rfl hjwf hextwf
        (hclear phys _ _ _ hlen)).bind ?_ (fun _ _ he ↦ he.elim)
      rintro _ _ ⟨extents, hadded, rfl⟩
      rw [Exec.holds_iff_of_ok (getInodeMut_mem (KeyMap.find?_insert_self _ _ _) _), KeyMap.insert_insert,
        KeyMap.insert_insert]
      exact ⟨extents, hadded, rfl⟩
    refine hadd.bind ?_ (fun _ _ he ↦ he)
    rintro _ _ ⟨extents, hadded, rfl⟩
    rw [Exec.holds_iff_of_ok (getInodeMut_mem (KeyMap.find?_insert_self _ _ _) _), KeyMap.insert_insert,
      KeyMap.insert_insert]
    have hstowed : Stowed i { setExtents extents i₁ with
        flags := i₁.flags ||| flagCompressed, blocks := sectorsOf extents } :=
      ⟨rfl, kindOf_ne_inline extents, Or.inr rfl⟩
    refine ⟨_, recordStored_of_added (j := { i₁ with flags := i₁.flags ||| flagCompressed }) h hmem hlaid hw rfl
      hadded hstowed rfl (fun _ ↦ flags_set_compressed _) rfl rfl hextlen
      ⟨Nat.lt_of_lt_of_le Nat.one_pos (le_max_right _ _), hlen⟩ hlong (fun b hlow hhigh ↦ (hfilled b hlow hhigh).1) ?_
      (fun _ ↦ hpacked) ?_⟩
    · intro _
      refine CachedImage.Copies.mono (hw.filled 0 (by omega)) ?_
      rintro _ rfl
      exact ⟨hdr, parse_recordImage hvalid _ rfl, rfl, rfl⟩
    · intro p hlow hhigh
      rw [Extent.cell, if_pos hcomp, cellByte_packed, hpacked.unpacked_eq]
      congr 1
      change p - record * s.recordBlocks * blockSize = p - record * (s.recordBlocks * blockSize)
      rw [Nat.mul_assoc]

end Inner

end LinuxFile
