import LinuxFile.Compress

/-!
# What is written is read back

A chain of field writes is read back field by field. Extent records are the one part whose number
varies; they are read back as long as every number fits its field.
-/

namespace LinuxFile

open Buf

variable {n : ℕ}

/-! ## Extent records -/

theorem putExtents_byte_of_notMem (b : Buf n) (off : ℕ) (extents : List Extent) {i : ℕ}
    (h : i < off ∨ off + 20 * extents.length ≤ i) : (putExtents b off extents).byte i = b.byte i := by
  induction extents generalizing b off with
  | nil => rfl
  | cons e rest ih =>
    rw [List.length_cons] at h
    have hlow : i < off + 20 ∨ off + 20 + 20 * rest.length ≤ i := by omega
    rw [putExtents, ih _ _ hlow, putU32, put_byte_of_notMem (by simp; omega), putU64,
      put_byte_of_notMem (by simp; omega), putU64, put_byte_of_notMem (by simp; omega)]

theorem slice_putExtents (b : Buf n) {off : ℕ} {extents : List Extent} {off' len : ℕ}
    (h : off' + len ≤ off ∨ off + 20 * extents.length ≤ off') :
    (putExtents b off extents).slice off' len = b.slice off' len :=
  slice_congr fun i _ _ ↦ putExtents_byte_of_notMem b off extents (by omega)

/-- What is left of an extent on disk: its numbers cut to their fields, and nothing about its
physical length or compression. -/
def Extent.stored (e : Extent) : Extent :=
  Extent.new (e.logical % 2 ^ 64) (e.physical % 2 ^ 64) (e.length % 2 ^ 32)

theorem getExtents_congr {b c : Buf n} {off count : ℕ}
    (h : ∀ i, off ≤ i → i < off + 20 * count → b.byte i = c.byte i) :
    getExtents b off count = getExtents c off count := by
  induction count generalizing off with
  | zero => rfl
  | succ count ih =>
    have hrest : getExtents b (off + 20) count = getExtents c (off + 20) count :=
      ih fun i hlow hhigh ↦ h i (by omega) (by omega)
    have hfield : ∀ at' len, off ≤ at' → at' + len ≤ off + 20 → b.slice at' len = c.slice at' len :=
      fun at' len hlow hhigh ↦ slice_congr fun i h1 h2 ↦ h i (by omega) (by omega)
    unfold getExtents
    rw [hrest, getU64, getU64, getU32, hfield off 8 (by omega) (by omega),
      hfield (off + 8) 8 (by omega) (by omega), hfield (off + 16) 4 (by omega) (by omega)]
    rfl

theorem getExtents_putExtents (b : Buf n) {off : ℕ} (extents : List Extent)
    (h : off + 20 * extents.length ≤ n) :
    getExtents (putExtents b off extents) off extents.length = extents.map Extent.stored := by
  induction extents generalizing b off with
  | nil => rfl
  | cons e rest ih =>
    rw [List.length_cons] at h
    have hslice : ∀ at' len, at' + len ≤ off + 20 →
        (putExtents b off (e :: rest)).slice at' len =
          (((b.putU64 off e.logical).putU64 (off + 8) e.physical).putU32 (off + 16) e.length).slice
            at' len := by
      intro at' len hlen
      exact slice_putExtents _ (Or.inl hlen)
    have hlogical : (putExtents b off (e :: rest)).getU64 off = e.logical % 2 ^ 64 := by
      rw [getU64, hslice off 8 (by omega), putU32, slice_put_of_disjoint _ (by simp), putU64,
        slice_put_of_disjoint _ (by simp), putU64, slice_put _ ⟨by simp, by omega⟩,
        leNat_leBytes_eight]
    have hphysical : (putExtents b off (e :: rest)).getU64 (off + 8) = e.physical % 2 ^ 64 := by
      rw [getU64, hslice (off + 8) 8 (by omega), putU32, slice_put_of_disjoint _ (by simp),
        putU64, slice_put _ ⟨by simp, by omega⟩, leNat_leBytes_eight]
    have hlength : (putExtents b off (e :: rest)).getU32 (off + 16) = e.length % 2 ^ 32 := by
      rw [getU32, hslice (off + 16) 4 (by omega), putU32, slice_put _ ⟨by simp, by omega⟩,
        leNat_leBytes_four]
    rw [List.length_cons, List.map_cons, getExtents, hlogical, hphysical, hlength, putExtents,
      ih _ (by omega)]
    rfl

theorem getTimespec_eq {b : Buf n} {off : ℕ} {t : Timespec}
    (hsec : b.slice off 8 = leBytes 8 t.sec.toUInt64.toNat)
    (hnsec : b.slice (off + 8) 4 = leBytes 4 t.nsec.toNat) : getTimespec b off = t := by
  unfold getTimespec getU64 getU32
  rw [hsec, hnsec, leNat_leBytes_eight, leNat_leBytes_four,
    Nat.mod_eq_of_lt t.sec.toUInt64.toNat_lt, Nat.mod_eq_of_lt t.nsec.toNat_lt]
  simp

/-! ## Superblock -/

/-- Every number of the superblock fits its field. -/
structure Superblock.InRange (sb : Superblock) : Prop where
  magic : sb.magic = Buf.ofBytes 8 magicBytes
  version : sb.version = formatVersion
  blockSize : sb.blockSize = LinuxFile.blockSize
  journalBlocks : sb.journalBlocks < 2 ^ 32
  firstDataBlock : sb.firstDataBlock < 2 ^ 32
  totalBlocks : sb.totalBlocks < 2 ^ 64
  inodeCount : sb.inodeCount < 2 ^ 64
  freeInodeCount : sb.freeInodeCount < 2 ^ 64
  nextInode : sb.nextInode < 2 ^ 64
  rootIno : sb.rootIno < 2 ^ 64
  generation : sb.generation < 2 ^ 64
  allocBlock : sb.allocBlock < 2 ^ 64
  journalSeq : sb.journalSeq < 2 ^ 64
  journalHead : sb.journalHead < 2 ^ 32
  journalTail : sb.journalTail < 2 ^ 32
  journalCommitted : sb.journalCommitted < 2 ^ 64
  extents : ∀ e ∈ sb.inodeTableExtents, e.stored = e

namespace Superblock

/-- The superblock as a reader of its encoding sees it: only the first extents of the inode table
are there. -/
def truncated (sb : Superblock) : Superblock :=
  { sb with inodeTableExtents := sb.inodeTableExtents.take maxTableExtents }

/-- The bytes of each field. -/
theorem encodeBody_fields (sb : Superblock) :
    sb.encodeBody.slice 0 8 = sb.magic.slice 0 8 ∧
    sb.encodeBody.slice 8 4 = leBytes 4 sb.version ∧
    sb.encodeBody.slice 12 4 = leBytes 4 sb.blockSize ∧
    sb.encodeBody.slice 16 4 = leBytes 4 sb.journalBlocks ∧
    sb.encodeBody.slice 20 4 = leBytes 4 sb.firstDataBlock ∧
    sb.encodeBody.slice 24 8 = leBytes 8 sb.totalBlocks ∧
    sb.encodeBody.slice 32 8 = leBytes 8 sb.inodeCount ∧
    sb.encodeBody.slice 40 8 = leBytes 8 sb.freeInodeCount ∧
    sb.encodeBody.slice 48 8 = leBytes 8 sb.nextInode ∧
    sb.encodeBody.slice 56 8 = leBytes 8 sb.rootIno ∧
    sb.encodeBody.slice 64 8 = leBytes 8 sb.generation ∧
    sb.encodeBody.slice 72 16 = sb.uuid.slice 0 16 ∧
    sb.encodeBody.slice 88 8 = leBytes 8 sb.features.toNat ∧
    sb.encodeBody.slice 96 8 = leBytes 8 sb.mtime.sec.toUInt64.toNat ∧
    sb.encodeBody.slice (96 + 8) 4 = leBytes 4 sb.mtime.nsec.toNat ∧
    sb.encodeBody.slice 108 1 = [sb.defaultCompression] ∧
    sb.encodeBody.slice 109 1 = [sb.recordBlocks] ∧
    sb.encodeBody.slice 112 8 = leBytes 8 sb.allocBlock ∧
    sb.encodeBody.slice 120 8 = leBytes 8 sb.journalSeq ∧
    sb.encodeBody.slice 128 4 = leBytes 4 sb.journalHead ∧
    sb.encodeBody.slice 132 4 = leBytes 4 sb.journalTail ∧
    sb.encodeBody.slice 136 8 = leBytes 8 sb.journalCommitted ∧
    sb.encodeBody.slice 144 4 =
      leBytes 4 (min sb.inodeTableExtents.length maxTableExtents) := by
  unfold encodeBody putTimespec
  refine ⟨?_, ?_, ?_, ?_, ?_, ?_, ?_, ?_, ?_, ?_, ?_, ?_, ?_, ?_, ?_, ?_, ?_, ?_, ?_, ?_, ?_, ?_, ?_⟩ <;>
    simp (disch := simp [superblockSize]) only [putU8, putU32, putU64, slice_putExtents,
      slice_put_of_disjoint, slice_put]

theorem decodeBody_eq {b : Buf superblockSize} {sb : Superblock} (h : sb.InRange)
    (hb : ∀ off len, off + len ≤ 148 → b.slice off len = sb.encodeBody.slice off len) :
    decodeBody b = { sb with
      inodeTableExtents := getExtents b 148 (min sb.inodeTableExtents.length maxTableExtents) } := by
  obtain ⟨h0, h1, h2, h3, h4, h5, h6, h7, h8, h9, h10, h11, h12, h13, h14, h15, h16, h17, h18, h19,
    h20, h21, h22⟩ := sb.encodeBody_fields
  have u32 : ∀ {off value : ℕ}, off + 4 ≤ 148 → sb.encodeBody.slice off 4 = leBytes 4 value →
      value < 2 ^ 32 → b.getU32 off = value := by
    intro off value hoff hslice hlt
    rw [getU32, hb off 4 hoff, hslice, leNat_leBytes_four, Nat.mod_eq_of_lt hlt]
  have u64 : ∀ {off value : ℕ}, off + 8 ≤ 148 → sb.encodeBody.slice off 8 = leBytes 8 value →
      value < 2 ^ 64 → b.getU64 off = value := by
    intro off value hoff hslice hlt
    rw [getU64, hb off 8 hoff, hslice, leNat_leBytes_eight, Nat.mod_eq_of_lt hlt]
  have u8 : ∀ {off : ℕ} {value : UInt8}, off + 1 ≤ 148 → sb.encodeBody.slice off 1 = [value] →
      b.byte off = value := by
    intro off value hoff hslice
    rw [byte_eq_slice, hb off 1 hoff, hslice]
    rfl
  have hcount : b.getU32 144 = min sb.inodeTableExtents.length maxTableExtents :=
    u32 (by norm_num) h22 (by unfold maxTableExtents; omega)
  apply Superblock.ext
  · exact sub_eq_of_slice_eq ((hb 0 8 (by norm_num)).trans h0)
  · exact u32 (by norm_num) h1 (by rw [h.version]; decide)
  · exact u32 (by norm_num) h2 (by rw [h.blockSize]; decide)
  · exact u32 (by norm_num) h3 h.journalBlocks
  · exact u32 (by norm_num) h4 h.firstDataBlock
  · exact u64 (by norm_num) h5 h.totalBlocks
  · exact u64 (by norm_num) h6 h.inodeCount
  · exact u64 (by norm_num) h7 h.freeInodeCount
  · exact u64 (by norm_num) h8 h.nextInode
  · exact u64 (by norm_num) h9 h.rootIno
  · exact u64 (by norm_num) h10 h.generation
  · exact sub_eq_of_slice_eq ((hb 72 16 (by norm_num)).trans h11)
  · change UInt64.ofNat (b.getU64 88) = sb.features
    rw [u64 (by norm_num) h12 sb.features.toNat_lt]
    simp
  · exact getTimespec_eq ((hb 96 8 (by norm_num)).trans h13) ((hb (96 + 8) 4 (by norm_num)).trans h14)
  · change getExtents b 148 (min (b.getU32 144) maxTableExtents) = _
    rw [hcount, min_eq_left (min_le_right _ _)]
  · exact u64 (by norm_num) h17 h.allocBlock
  · exact u64 (by norm_num) h18 h.journalSeq
  · exact u32 (by norm_num) h19 h.journalHead
  · exact u32 (by norm_num) h20 h.journalTail
  · exact u64 (by norm_num) h21 h.journalCommitted
  · exact u8 (by norm_num) h15
  · exact u8 (by norm_num) h16

theorem decode_encode_truncated (sb : Superblock) (h : sb.InRange) :
    decode sb.encode = .ok sb.truncated := by
  have hbody : ∀ off len, off + len ≤ superblockSize - 4 →
      sb.encode.slice off len = sb.encodeBody.slice off len := by
    intro off len hlen
    exact slice_put_of_disjoint _ (Or.inl hlen)
  have hcrc : sb.encode.getU32 (superblockSize - 4) =
      (Crc.crc32 (sb.encodeBody.slice 0 (superblockSize - 4))).toNat := by
    unfold encode putU32 getU32
    rw [slice_put _ ⟨by simp, by decide⟩, leNat_leBytes_four, Nat.mod_eq_of_lt (UInt32.toNat_lt _)]
  obtain ⟨h0, h1, h2, -⟩ := sb.encodeBody_fields
  have hlen : 148 ≤ superblockSize - 4 := by decide
  have hmagic : sb.encode.slice 0 8 = magicBytes := by
    rw [hbody 0 8 (by omega), h0, h.magic, Buf.ofBytes, slice_put _ ⟨by rfl, by norm_num⟩]
  have hversion : sb.encode.getU32 8 = formatVersion := by
    rw [getU32, hbody 8 4 (by omega), h1, leNat_leBytes_four, h.version]
    rfl
  have hblock : sb.encode.getU32 12 = LinuxFile.blockSize := by
    rw [getU32, hbody 12 4 (by omega), h2, leNat_leBytes_four, h.blockSize]
    rfl
  have hextents : getExtents sb.encode 148 (min sb.inodeTableExtents.length maxTableExtents) =
      sb.inodeTableExtents.take maxTableExtents := by
    have hlength : (sb.inodeTableExtents.take maxTableExtents).length =
        min sb.inodeTableExtents.length maxTableExtents := by
      rw [List.length_take, min_comm]
    have hcongr : getExtents sb.encode 148 (min sb.inodeTableExtents.length maxTableExtents) =
        getExtents sb.encodeBody 148 (min sb.inodeTableExtents.length maxTableExtents) := by
      apply getExtents_congr
      intro i _ hhigh
      refine put_byte_of_notMem (Or.inl ?_)
      unfold maxTableExtents at hhigh
      unfold superblockSize
      omega
    rw [hcongr, ← hlength]
    unfold encodeBody
    rw [getExtents_putExtents]
    · rw [List.map_congr_left (g := id) fun e he ↦ h.extents e (List.mem_of_mem_take he), List.map_id]
    · rw [hlength]
      unfold maxTableExtents superblockSize
      omega
  unfold decode
  rw [hbody 0 (superblockSize - 4) (by omega), hcrc, hmagic, hversion, hblock]
  simp only [ne_eq, not_true_eq_false, if_false]
  rw [decodeBody_eq h fun off len hle ↦ hbody off len (by omega), hextents]
  rfl

/-- The superblock is read back exactly when the extents of its inode table have room. -/
theorem decode_encode_iff (sb : Superblock) (h : sb.InRange) :
    decode sb.encode = .ok sb ↔ sb.inodeTableExtents.length ≤ maxTableExtents := by
  rw [decode_encode_truncated sb h, Except.ok.injEq, Superblock.ext_iff]
  simp only [truncated, true_and, and_true]
  exact List.take_eq_self_iff _

end Superblock

/-! ## Inodes -/

namespace Inode

/-- The inode as a reader of its slot sees it: numbers are reduced to the width of their field, and
inline data and extents to the room there is. -/
def stored (i : Inode) : Inode :=
  { i with
    nlink := i.nlink % 2 ^ 32
    size := i.size % 2 ^ 64
    blocks := i.blocks % 2 ^ 64
    extentTree := i.extentTree % 2 ^ 64
    xattrBlock := i.xattrBlock % 2 ^ 64
    inlineData := if i.dataKind = .inline then i.inlineData.take inlineMax else []
    extents := if i.dataKind = .inline then [] else (i.extents.take maxDirectExtents).map Extent.stored
    extentTreeBlocks := 0
    xattr := [] }

/-- The bytes of each field before the data area, and of the one after it. -/
theorem encodeHead_fields (i : Inode) :
    i.encodeHead.slice 0 2 = leBytes 2 i.mode.toNat ∧
    i.encodeHead.slice 2 4 = leBytes 4 i.nlink ∧
    i.encodeHead.slice 6 4 = leBytes 4 i.uid.toNat ∧
    i.encodeHead.slice 10 4 = leBytes 4 i.gid.toNat ∧
    i.encodeHead.slice 14 8 = leBytes 8 i.size ∧
    i.encodeHead.slice 22 8 = leBytes 8 i.blocks ∧
    i.encodeHead.slice 30 8 = leBytes 8 i.atime.sec.toUInt64.toNat ∧
    i.encodeHead.slice (30 + 8) 4 = leBytes 4 i.atime.nsec.toNat ∧
    i.encodeHead.slice 42 8 = leBytes 8 i.mtime.sec.toUInt64.toNat ∧
    i.encodeHead.slice (42 + 8) 4 = leBytes 4 i.mtime.nsec.toNat ∧
    i.encodeHead.slice 54 8 = leBytes 8 i.ctime.sec.toUInt64.toNat ∧
    i.encodeHead.slice (54 + 8) 4 = leBytes 4 i.ctime.nsec.toNat ∧
    i.encodeHead.slice 66 8 = leBytes 8 i.btime.sec.toUInt64.toNat ∧
    i.encodeHead.slice (66 + 8) 4 = leBytes 4 i.btime.nsec.toNat ∧
    i.encodeHead.slice 78 8 = leBytes 8 i.rdev.toNat ∧
    i.encodeHead.slice 86 4 = leBytes 4 i.flags.toNat ∧
    i.encodeHead.slice 90 4 = leBytes 4 i.generation.toNat ∧
    i.encodeHead.slice 94 1 = [i.dataKind.toU8] ∧
    i.encodeHead.slice 95 1 = [i.compression] ∧
    i.encodeHead.slice 96 8 = leBytes 8 i.extentTree ∧
    i.encodeHead.slice 240 8 = leBytes 8 i.xattrBlock := by
  unfold encodeHead putTimespec
  refine ⟨?_, ?_, ?_, ?_, ?_, ?_, ?_, ?_, ?_, ?_, ?_, ?_, ?_, ?_, ?_, ?_, ?_, ?_, ?_, ?_, ?_⟩ <;>
    simp (disch := simp [inodeSize]) only [putU8, putU16, putU32, putU64, slice_put_of_disjoint,
      slice_put]

/-- The data area and the checksum do not touch the other fields. -/
theorem encode_slice_head (i : Inode) {off len : ℕ} (h : off + len ≤ 104 ∨ off = 240 ∧ len ≤ 8) :
    i.encode.slice off len = i.encodeHead.slice off len := by
  have hcrc : i.encode.slice off len = i.encodeBody.slice off len :=
    slice_put_of_disjoint _ (by omega)
  rw [hcrc]
  unfold encodeBody
  have hdata : ∀ (data : Bytes) (v : ℕ), data.length ≤ inlineMax →
      ((i.encodeHead.putU16 104 v).put 106 data).slice off len = i.encodeHead.slice off len := by
    intro data v hlen
    unfold inlineMax at hlen
    rw [slice_put_of_disjoint _ (by omega), putU16, slice_put_of_disjoint _ (by simp; omega)]
  have hext : ∀ (extents : List Extent) (v : ℕ), extents.length ≤ maxDirectExtents →
      (putExtents (i.encodeHead.putU16 104 v) 106 extents).slice off len =
        i.encodeHead.slice off len := by
    intro extents v hlen
    unfold maxDirectExtents at hlen
    rw [slice_putExtents _ (by omega), putU16, slice_put_of_disjoint _ (by simp; omega)]
  split
  · exact hdata _ _ (by rw [List.length_take]; omega)
  · exact hext _ _ (by rw [List.length_take]; omega)
  · exact hext _ _ (by rw [List.length_take]; omega)

theorem fromU8_toU8 (kind : DataKind) : DataKind.fromU8 kind.toU8 = kind := by
  cases kind <;> rfl

/-- The count in front of the data area. -/
theorem encode_count (i : Inode) : i.encode.getU16 104 =
    if i.dataKind = .inline then min i.inlineData.length inlineMax
    else min i.extents.length maxDirectExtents := by
  have hcrc : i.encode.slice 104 2 = i.encodeBody.slice 104 2 :=
    slice_put_of_disjoint _ (by omega)
  have hself : ∀ v, v < 2 ^ 16 → leNat ((i.encodeHead.putU16 104 v).slice 104 2) = v := by
    intro v hv
    rw [putU16, slice_put _ ⟨by simp, by decide⟩, leNat_leBytes_two, Nat.mod_eq_of_lt hv]
  have hmax : inlineMax < 2 ^ 16 ∧ maxDirectExtents < 2 ^ 16 := by decide
  rw [getU16, hcrc]
  unfold encodeBody
  cases i.dataKind with
  | inline =>
    dsimp only
    rw [slice_put_of_disjoint _ (by omega), hself _ (by omega), if_pos rfl]
  | extents =>
    dsimp only
    rw [slice_putExtents _ (by omega), hself _ (by omega), if_neg (by decide)]
  | extentTree =>
    dsimp only
    rw [slice_putExtents _ (by omega), hself _ (by omega), if_neg (by decide)]

theorem encode_inline (i : Inode) (h : i.dataKind = .inline) :
    i.encode.slice 106 (min i.inlineData.length inlineMax) = i.inlineData.take inlineMax := by
  have hmax : inlineMax = 128 := rfl
  have hcrc : i.encode.slice 106 (min i.inlineData.length inlineMax) =
      i.encodeBody.slice 106 (min i.inlineData.length inlineMax) :=
    slice_put_of_disjoint _ (by omega)
  have hsize : inodeSize = 256 := rfl
  rw [hcrc]
  unfold encodeBody
  rw [h]
  dsimp only
  rw [slice_put _ ⟨by simp, by omega⟩]
  rcases le_total i.inlineData.length inlineMax with hle | hle
  · rw [min_eq_left hle, List.take_length, List.take_of_length_le hle]
  · rw [min_eq_right hle]

theorem encode_extents (i : Inode) (h : i.dataKind ≠ .inline) :
    getExtents i.encode 106 (min i.extents.length maxDirectExtents) =
      (i.extents.take maxDirectExtents).map Extent.stored := by
  have hmax : maxDirectExtents = 6 := rfl
  have hlength : (i.extents.take maxDirectExtents).length = min i.extents.length maxDirectExtents := by
    rw [List.length_take, min_comm]
  have hbody : i.encodeBody = putExtents (i.encodeHead.putU16 104
      (min i.extents.length maxDirectExtents)) 106 (i.extents.take maxDirectExtents) := by
    unfold encodeBody
    cases hkind : i.dataKind with
    | inline => exact absurd hkind h
    | extents => rfl
    | extentTree => rfl
  have hcongr : getExtents i.encode 106 (min i.extents.length maxDirectExtents) =
      getExtents i.encodeBody 106 (min i.extents.length maxDirectExtents) := by
    apply getExtents_congr
    intro j _ hhigh
    exact put_byte_of_notMem (Or.inl (by omega))
  rw [hcongr, hbody, ← hlength, getExtents_putExtents]
  rw [hlength]
  unfold inodeSize
  omega

theorem decodeHead_encode (i : Inode) : decodeHead i.ino i.encode =
    { i.stored with inlineData := [], extents := [] } := by
  obtain ⟨h0, h1, h2, h3, h4, h5, h6, h7, h8, h9, h10, h11, h12, h13, h14, h15, h16, h17, h18, h19,
    h20⟩ := i.encodeHead_fields
  have u32 : ∀ {off value : ℕ}, off + 4 ≤ 104 → i.encodeHead.slice off 4 = leBytes 4 value →
      i.encode.getU32 off = value % 2 ^ 32 := by
    intro off value hoff hslice
    rw [getU32, i.encode_slice_head (Or.inl hoff), hslice, leNat_leBytes_four]
  have u64 : ∀ {off value : ℕ}, off + 8 ≤ 104 ∨ off = 240 ∧ 8 ≤ 8 →
      i.encodeHead.slice off 8 = leBytes 8 value → i.encode.getU64 off = value % 2 ^ 64 := by
    intro off value hoff hslice
    rw [getU64, i.encode_slice_head hoff, hslice, leNat_leBytes_eight]
  have u8 : ∀ {off : ℕ} {value : UInt8}, off + 1 ≤ 104 → i.encodeHead.slice off 1 = [value] →
      i.encode.byte off = value := by
    intro off value hoff hslice
    rw [byte_eq_slice, i.encode_slice_head (Or.inl hoff), hslice]
    rfl
  have time : ∀ {off : ℕ} {t : Timespec}, off + 12 ≤ 104 →
      i.encodeHead.slice off 8 = leBytes 8 t.sec.toUInt64.toNat →
      i.encodeHead.slice (off + 8) 4 = leBytes 4 t.nsec.toNat → getTimespec i.encode off = t := by
    intro off t hoff hsec hnsec
    exact getTimespec_eq ((i.encode_slice_head (by omega)).trans hsec)
      ((i.encode_slice_head (by omega)).trans hnsec)
  have word : ∀ {off : ℕ} {value : UInt32}, off + 4 ≤ 104 →
      i.encodeHead.slice off 4 = leBytes 4 value.toNat → UInt32.ofNat (i.encode.getU32 off) = value := by
    intro off value hoff hslice
    rw [u32 hoff hslice, Nat.mod_eq_of_lt value.toNat_lt]
    simp
  apply Inode.ext
  · rfl
  · change UInt16.ofNat (i.encode.getU16 0) = i.mode
    rw [getU16, i.encode_slice_head (by omega), h0, leNat_leBytes_two,
      Nat.mod_eq_of_lt i.mode.toNat_lt]
    simp
  · exact u32 (by norm_num) h1
  · exact word (by norm_num) h2
  · exact word (by norm_num) h3
  · exact u64 (by norm_num) h4
  · exact u64 (by norm_num) h5
  · exact time (by norm_num) h6 h7
  · exact time (by norm_num) h8 h9
  · exact time (by norm_num) h10 h11
  · exact time (by norm_num) h12 h13
  · change UInt64.ofNat (i.encode.getU64 78) = i.rdev
    rw [u64 (by norm_num) h14, Nat.mod_eq_of_lt i.rdev.toNat_lt]
    simp
  · exact word (by norm_num) h15
  · exact word (by norm_num) h16
  · change DataKind.fromU8 (i.encode.byte 94) = i.dataKind
    rw [u8 (by norm_num) h17, fromU8_toU8]
  · exact u8 (by norm_num) h18
  · rfl
  · rfl
  · exact u64 (by norm_num) h19
  · rfl
  · exact u64 (by norm_num) h20
  · rfl

theorem decodeBody_encode (i : Inode) : decodeBody i.ino i.encode = i.stored := by
  have hstored : i.stored.dataKind = i.dataKind := rfl
  unfold decodeBody
  rw [decodeHead_encode]
  dsimp only
  rw [hstored]
  unfold stored
  cases hkind : i.dataKind with
  | inline =>
    dsimp only
    rw [encode_count, if_pos hkind, min_eq_left (min_le_right _ _), encode_inline i hkind, if_pos rfl,
      if_pos rfl]
  | extents =>
    dsimp only
    rw [encode_count, if_neg (by rw [hkind]; decide), min_eq_left (min_le_right _ _),
      encode_extents i (by rw [hkind]; decide), if_neg (by decide), if_neg (by decide)]
  | extentTree =>
    dsimp only
    rw [encode_count, if_neg (by rw [hkind]; decide), min_eq_left (min_le_right _ _),
      encode_extents i (by rw [hkind]; decide), if_neg (by decide), if_neg (by decide)]

theorem encode_mode (i : Inode) : i.encode.getU16 0 = i.mode.toNat := by
  rw [getU16, i.encode_slice_head (by omega), i.encodeHead_fields.1, leNat_leBytes_two,
    Nat.mod_eq_of_lt i.mode.toNat_lt]

/-- An inode read from its slot. -/
theorem decode_encode {i : Inode} (hmode : i.mode ≠ 0) :
    decode i.ino i.encode = .ok i.stored := by
  have hcrc : i.encode.getU32 252 = (Crc.crc32 (i.encode.slice 0 252)).toNat := by
    have hbody : i.encode.slice 0 252 = i.encodeBody.slice 0 252 := slice_put_of_disjoint _ (by omega)
    rw [hbody]
    unfold encode putU32 getU32
    rw [slice_put _ ⟨by simp, by decide⟩, leNat_leBytes_four, Nat.mod_eq_of_lt (UInt32.toNat_lt _)]
  unfold decode
  rw [if_neg (by rw [hcrc]; simp), if_neg ?_, decodeBody_encode]
  rw [encode_mode]
  intro hzero
  exact hmode (UInt16.toNat_inj.mp hzero)

end Inode

/-! ## Record headers -/

namespace RecordHeader

/-- What a header that describes a compressed record satisfies. -/
structure Valid (h : RecordHeader) : Prop where
  algo : h.algo = .lz4
  logical_pos : 0 < h.logicalBlocks
  logical_le : h.logicalBlocks ≤ maxRecordBlocks
  length_le : h.uncompressedLen ≤ h.logicalBlocks * blockSize
  payload_pos : 0 < h.payloadLen
  payload_lt : h.payloadLen < h.uncompressedLen
  phys_le : h.physBlocks ≤ h.logicalBlocks

theorem encode_fields (h : RecordHeader) :
    h.encode.slice 0 4 = headerMagic ∧
    h.encode.slice 4 1 = [h.algo.asU8] ∧
    h.encode.slice 6 2 = leBytes 2 h.logicalBlocks ∧
    h.encode.slice 8 4 = leBytes 4 h.payloadLen ∧
    h.encode.slice 12 4 = leBytes 4 h.uncompressedLen ∧
    h.encode.slice 16 4 = leBytes 4 h.crc.toNat := by
  unfold encode
  refine ⟨?_, ?_, ?_, ?_, ?_, ?_⟩ <;>
    simp (disch := simp [headerSize, headerMagic]) only [putU8, putU16, putU32, slice_put_of_disjoint,
      slice_put]

theorem slice_of_slice {m : ℕ} {b : Buf n} {c : Buf m} {len off k : ℕ}
    (h : b.slice 0 len = c.slice 0 len) (hk : off + k ≤ len) : b.slice off k = c.slice off k := by
  apply List.map_congr_left
  intro i hi
  rw [List.mem_range'_1] at hi
  have hget : (b.slice 0 len).getD i 0 = (c.slice 0 len).getD i 0 := by rw [h]
  rw [slice_getD b (by omega), slice_getD c (by omega), Nat.zero_add] at hget
  exact hget

/-- A block that starts with a valid header parses to it. -/
theorem parse_eq_some {b : Buf n} {h : RecordHeader} (hn : headerSize ≤ n) (hv : h.Valid)
    (hb : b.slice 0 headerSize = h.encode.slice 0 headerSize) : parse b = some h := by
  obtain ⟨h0, h1, h2, h3, h4, h5⟩ := h.encode_fields
  have hat : ∀ off len, off + len ≤ headerSize → b.slice off len = h.encode.slice off len :=
    fun off len hlen ↦ slice_of_slice hb hlen
  have hmax : maxRecordBlocks = 32 ∧ LinuxFile.blockSize = 4096 := ⟨rfl, rfl⟩
  have hle := hv.logical_le
  have hlen := hv.length_le
  have hpos := hv.payload_pos
  have hlt := hv.payload_lt
  have hphys := hv.phys_le
  have hlogical := hv.logical_pos
  have hbig : h.logicalBlocks * LinuxFile.blockSize ≤ 2 ^ 17 := by
    rw [hmax.2]
    omega
  have hmagic : b.slice 0 4 = headerMagic := (hat 0 4 (by decide)).trans h0
  have halgo : b.byte 4 = 1 := by
    rw [byte_eq_slice, hat 4 1 (by decide), h1, hv.algo]
    rfl
  have e2 : b.getU16 6 = h.logicalBlocks := by
    rw [getU16, hat 6 2 (by decide), h2, leNat_leBytes_two, Nat.mod_eq_of_lt (by omega)]
  have e3 : b.getU32 8 = h.payloadLen := by
    rw [getU32, hat 8 4 (by decide), h3, leNat_leBytes_four, Nat.mod_eq_of_lt (by omega)]
  have e4 : b.getU32 12 = h.uncompressedLen := by
    rw [getU32, hat 12 4 (by decide), h4, leNat_leBytes_four, Nat.mod_eq_of_lt (by omega)]
  have e5 : UInt32.ofNat (b.getU32 16) = h.crc := by
    rw [getU32, hat 16 4 (by decide), h5, leNat_leBytes_four, Nat.mod_eq_of_lt h.crc.toNat_lt]
    simp
  have heq : (⟨.lz4, h.logicalBlocks, h.payloadLen, h.uncompressedLen, h.crc⟩ : RecordHeader) = h := by
    rw [← hv.algo]
  unfold parse
  rw [if_neg (by rw [hmagic]; simp; omega), if_neg (by rw [halgo]; simp)]
  dsimp only
  rw [e2, e3, e4, e5, if_neg (by omega), if_neg (by omega), if_neg (by omega), if_neg, heq]
  rw [heq]
  omega

end RecordHeader

end LinuxFile
