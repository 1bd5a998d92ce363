import LinuxFile.Spec.Codec
import LinuxFile.Spec.Listing

/-!
# Inodes and directories as bytes

An inode is read back from its slot as it was written, but for the extents that have no room there.
A directory is read back entry by entry. The reader of directories is followed here with the cursor
of the source, so that a slice past the end of the buffer would show.
-/

namespace LinuxFile

/-! ## Inodes -/

namespace Inode

/-- The numbers fit their fields. -/
structure InRange (i : Inode) : Prop where
  nlink : i.nlink < 2 ^ 32
  size : i.size < 2 ^ 64
  blocks : i.blocks < 2 ^ 64
  extentTree : i.extentTree < 2 ^ 64
  xattrBlock : i.xattrBlock < 2 ^ 64
  extents : ∀ e ∈ i.extents, e.logical < 2 ^ 64 ∧ e.physical < 2 ^ 64 ∧ e.length < 2 ^ 32

/-- The fields with a fixed place in the slot. -/
structure SameFields (i j : Inode) : Prop where
  mode : i.mode = j.mode
  nlink : i.nlink = j.nlink
  uid : i.uid = j.uid
  gid : i.gid = j.gid
  size : i.size = j.size
  blocks : i.blocks = j.blocks
  atime : i.atime = j.atime
  mtime : i.mtime = j.mtime
  ctime : i.ctime = j.ctime
  btime : i.btime = j.btime
  rdev : i.rdev = j.rdev
  flags : i.flags = j.flags
  generation : i.generation = j.generation
  dataKind : i.dataKind = j.dataKind
  compression : i.compression = j.compression
  extentTree : i.extentTree = j.extentTree
  xattrBlock : i.xattrBlock = j.xattrBlock

/-- What a slot holds of an extent. -/
def placed (e : Extent) : ℕ × ℕ × ℕ := (e.logical, e.physical, e.length)

theorem decode_encode_any {i : Inode} (ino : ℕ) (hmode : i.mode ≠ 0) :
    decode ino i.encode = .ok { i.stored with ino := ino } :=
  decode_encode (i := { i with ino := ino }) hmode

theorem stored_sameFields {i : Inode} (h : i.InRange) : i.stored.SameFields i where
  mode := rfl
  nlink := Nat.mod_eq_of_lt h.nlink
  uid := rfl
  gid := rfl
  size := Nat.mod_eq_of_lt h.size
  blocks := Nat.mod_eq_of_lt h.blocks
  atime := rfl
  mtime := rfl
  ctime := rfl
  btime := rfl
  rdev := rfl
  flags := rfl
  generation := rfl
  dataKind := rfl
  compression := rfl
  extentTree := Nat.mod_eq_of_lt h.extentTree
  xattrBlock := Nat.mod_eq_of_lt h.xattrBlock

theorem stored_extents {i : Inode} (h : i.InRange) (hkind : i.dataKind ≠ .inline) :
    i.stored.extents.map placed = (i.extents.take maxDirectExtents).map placed := by
  unfold stored
  dsimp only
  rw [if_neg hkind, List.map_map]
  apply List.map_congr_left
  intro e he
  have hfits := h.extents e (List.mem_of_mem_take he)
  unfold placed Extent.stored Extent.new
  simp only [Function.comp_apply, Nat.mod_eq_of_lt hfits.1, Nat.mod_eq_of_lt hfits.2.1,
    Nat.mod_eq_of_lt hfits.2.2]

/-- A number and what is left of it in a field are written alike. -/
theorem leBytes_mod (width value : ℕ) : leBytes width (value % 256 ^ width) = leBytes width value := by
  have hread := leBytes_leNat (leBytes width value)
  rw [leBytes_length, leNat_leBytes] at hread
  exact hread

theorem putExtents_stored {n : ℕ} : ∀ (extents : List Extent) (b : Buf n) (off : ℕ),
    putExtents b off (extents.map Extent.stored) = putExtents b off extents
  | [], _, _ => rfl
  | e :: extents, b, off => by
    have hlogical : leBytes 8 (e.logical % 2 ^ 64) = leBytes 8 e.logical := leBytes_mod 8 _
    have hphysical : leBytes 8 (e.physical % 2 ^ 64) = leBytes 8 e.physical := leBytes_mod 8 _
    have hlength : leBytes 4 (e.length % 2 ^ 32) = leBytes 4 e.length := leBytes_mod 4 _
    rw [List.map_cons, putExtents, putExtents, putExtents_stored extents]
    unfold Extent.stored Extent.new Buf.putU64 Buf.putU32
    dsimp only
    rw [hlogical, hphysical, hlength]

theorem encodeHead_stored (i : Inode) (ino : ℕ) :
    ({ i.stored with ino := ino } : Inode).encodeHead = i.encodeHead := by
  have hnlink : leBytes 4 (i.nlink % 2 ^ 32) = leBytes 4 i.nlink := leBytes_mod 4 _
  have hsize : leBytes 8 (i.size % 2 ^ 64) = leBytes 8 i.size := leBytes_mod 8 _
  have hblocks : leBytes 8 (i.blocks % 2 ^ 64) = leBytes 8 i.blocks := leBytes_mod 8 _
  have htree : leBytes 8 (i.extentTree % 2 ^ 64) = leBytes 8 i.extentTree := leBytes_mod 8 _
  have hxattr : leBytes 8 (i.xattrBlock % 2 ^ 64) = leBytes 8 i.xattrBlock := leBytes_mod 8 _
  unfold encodeHead stored Buf.putU64 Buf.putU32
  dsimp only
  rw [hnlink, hsize, hblocks, htree, hxattr]

theorem encode_stored (i : Inode) (ino : ℕ) : ({ i.stored with ino := ino } : Inode).encode = i.encode := by
  have hhead := encodeHead_stored i ino
  have hbody : ({ i.stored with ino := ino } : Inode).encodeBody = i.encodeBody := by
    unfold encodeBody
    rw [hhead]
    have hkind : i.stored.dataKind = i.dataKind := rfl
    have htake : ∀ n, ((i.extents.take maxDirectExtents).map Extent.stored).take n =
        ((i.extents.take maxDirectExtents).take n).map Extent.stored := fun n ↦ (List.map_take ..).symm
    dsimp only
    rw [hkind]
    unfold stored
    cases hdata : i.dataKind with
    | inline =>
      dsimp only
      rw [if_pos rfl, List.length_take, min_comm inlineMax, min_eq_left (min_le_right _ inlineMax),
        List.take_take, min_eq_left (min_le_right _ inlineMax)]
    | extents =>
      dsimp only
      rw [if_neg (by decide), List.length_map, List.length_take, min_comm maxDirectExtents,
        min_eq_left (min_le_right _ maxDirectExtents), htake, putExtents_stored, List.take_take, min_self]
    | extentTree =>
      dsimp only
      rw [if_neg (by decide), List.length_map, List.length_take, min_comm maxDirectExtents,
        min_eq_left (min_le_right _ maxDirectExtents), htake, putExtents_stored, List.take_take, min_self]
  unfold encode
  rw [hbody]

/-- An inode is read back from the bytes it is written as: every field, its inline data, and as many of its
extents as the slot holds. Writing what was read gives the same bytes again. -/
theorem slot_round_trip {i : Inode} (hmode : i.mode ≠ 0) (hrange : i.InRange)
    (hdata : i.dataKind = .inline → i.inlineData.length ≤ inlineMax) (ino : ℕ) :
    (∃ j, decode ino i.encode = .ok j ∧ j.ino = ino ∧ j.SameFields i ∧
      (i.dataKind = .inline → j.inlineData = i.inlineData) ∧
      (i.dataKind ≠ .inline →
        j.extents.map placed = (i.extents.take (min maxDirectExtents i.extents.length)).map placed)) ∧
    ∀ i' ino' j, decode ino' (encode i') = .ok j → j.encode = encode i' := by
  constructor
  · refine ⟨{ i.stored with ino := ino }, decode_encode_any ino hmode, rfl, ?_, ?_, ?_⟩
    · exact { stored_sameFields hrange with }
    · intro hkind
      have hread : i.stored.inlineData = i.inlineData.take inlineMax := if_pos hkind
      exact hread.trans (List.take_of_length_le (hdata hkind))
    · intro hkind
      have hread := stored_extents hrange hkind
      rw [← List.take_eq_take_min]
      exact hread
  · intro i' ino' j hdecode
    by_cases hzero : i'.mode = 0
    · unfold decode at hdecode
      rw [encode_mode, hzero] at hdecode
      split_ifs at hdecode
      next hnonzero => exact absurd rfl hnonzero
    · rw [decode_encode_any ino' hzero] at hdecode
      cases hdecode
      exact encode_stored i' ino'

/-- A file of seven extents, changed before 1970. -/
def sampleSlot : Inode :=
  { Inode.new ⟨-1, 999999999⟩ 9 0o100644 1000 1000 with
    dataKind := .extentTree
    extents := (List.range 7).map fun k ↦ Extent.new (2 * k) (100 + k) 1
    extentTree := 300 }

theorem slot_round_trip_sample : ∃ j, decode 9 sampleSlot.encode = .ok j ∧ j.SameFields sampleSlot ∧
    j.extents.map placed =
      [(0, 100, 1), (2, 101, 1), (4, 102, 1), (6, 103, 1), (8, 104, 1), (10, 105, 1)] := by
  have hrange : sampleSlot.InRange := by
    constructor <;> decide
  obtain ⟨⟨j, hdecode, -, hfields, -, hextents⟩, -⟩ :=
    slot_round_trip (i := sampleSlot) (by decide) hrange (by decide) 9
  exact ⟨j, hdecode, hfields, hextents (by decide)⟩

end Inode

/-! ## Directories -/

theorem sliceAt_of_le (buf : Bytes) (off len : ℕ) (h : off + len ≤ buf.length) :
    sliceAt buf off len = .ok ((buf.drop off).take len) := if_pos h

/-- The cursor stands where the rest of the buffer begins. It may stand past the end, after the last name. -/
theorem scanEntries_eq (buf : Bytes) : ∀ (n off : ℕ) (out : List DirEntry),
    scanEntries buf n off out = .ok ((decodeEntries n (buf.drop off)).map (out ++ ·))
  | 0, off, out => by
    unfold scanEntries decodeEntries
    simp only [Except.map, List.append_nil]
  | n + 1, off, out => by
    have hlen : (buf.drop off).length = buf.length - off := List.length_drop
    unfold scanEntries decodeEntries
    by_cases hshort : off + 12 > buf.length
    · rw [if_pos hshort, if_pos (by omega)]
      rfl
    · have hino := sliceAt_of_le buf off 8 (by omega)
      have hnlen := sliceAt_of_le buf (off + 8) 2 (by omega)
      have hft : sliceAt buf (off + 10) 1 = .ok [(buf.drop off).getD 10 0] := by
        rw [sliceAt_of_le buf (off + 10) 1 (by omega), List.getD_eq_getElem _ _ (by omega), ← List.drop_drop,
          List.take_one_drop_eq_of_lt_length (by omega : 10 < (buf.drop off).length), List.get_eq_getElem]
      rw [if_neg hshort, if_neg (by omega), hino, hnlen, hft]
      simp only [bind, Except.bind, List.getD_cons_zero]
      have hsame : (buf.drop (off + 8)).take 2 = ((buf.drop off).drop 8).take 2 := by
        rw [List.drop_drop]
      rw [hsame]
      set nlen := leNat (((buf.drop off).drop 8).take 2) with hdef
      by_cases hname : off + 12 + nlen > buf.length
      · rw [if_pos hname, if_pos (by omega)]
        rfl
      · have hslice := sliceAt_of_le buf (off + 12) nlen (by omega)
        have hrest : (buf.drop off).drop (12 + nlen + namePad nlen) =
            buf.drop (off + 12 + nlen + namePad nlen) := by
          rw [List.drop_drop]
          congr 1
          omega
        rw [if_neg hname, if_neg (by omega), hslice, hrest]
        dsimp only
        rw [scanEntries_eq buf n]
        cases decodeEntries n (buf.drop (off + 12 + nlen + namePad nlen)) with
        | error e => rfl
        | ok entries =>
          simp only [Except.map, List.append_assoc, List.cons_append, List.nil_append, List.drop_drop]

/-- The count in the head of a directory; an empty buffer is a directory without entries. -/
def storedCount (buf : Bytes) : ℕ := if buf = [] then 0 else leNat ((buf.drop 4).take 4)

/-- If the buffer has the head of a directory, its count is at most `room`. -/
def Reservable (room : ℕ) (buf : Bytes) : Prop :=
  8 ≤ buf.length → buf.take 4 = dirMagic → storedCount buf ≤ room

/-- No read of `decode_dir` is out of bounds, and it gets the memory it reserves exactly if there is so much. -/
theorem scanDir_eq (room : ℕ) (buf : Bytes) :
    (Reservable room buf → scanDir room buf = .ok (decodeDir buf)) ∧
    (¬Reservable room buf → scanDir room buf = .error .outOfMemory) := by
  unfold scanDir decodeDir Reservable storedCount
  by_cases hempty : buf = []
  · subst hempty
    exact ⟨fun _ ↦ rfl, fun h ↦ absurd (fun hlen _ ↦ absurd hlen (by decide)) h⟩
  · rw [if_neg hempty, if_neg hempty, if_neg hempty]
    by_cases hshort : buf.length < 8
    · rw [if_pos hshort, if_pos (Or.inl hshort)]
      exact ⟨fun _ ↦ rfl, fun h ↦ absurd (fun hlen _ ↦ absurd hlen (by omega)) h⟩
    · have hmagic := sliceAt_of_le buf 0 4 (by omega)
      have hcount := sliceAt_of_le buf 4 4 (by omega)
      rw [if_neg hshort, hmagic, hcount, List.drop_zero]
      simp only [bind, Except.bind]
      by_cases hbad : buf.take 4 ≠ dirMagic
      · rw [if_pos hbad, if_pos (Or.inr hbad)]
        exact ⟨fun _ ↦ rfl, fun h ↦ absurd (fun _ hdir ↦ absurd hdir hbad) h⟩
      · have hgood : ¬(buf.length < 8 ∨ buf.take 4 ≠ dirMagic) := not_or.mpr ⟨hshort, hbad⟩
        rw [if_neg hbad, if_neg hgood, scanEntries_eq]
        have hhead : ∀ {P : Prop}, (8 ≤ buf.length → buf.take 4 = dirMagic → P) ↔ P :=
          fun {P} ↦ ⟨fun h ↦ h (by omega) (not_not.mp hbad), fun h _ _ ↦ h⟩
        rw [hhead, not_le]
        refine ⟨fun hroom ↦ ?_, fun hroom ↦ if_pos hroom⟩
        rw [if_neg (not_lt.mpr hroom)]
        cases decodeEntries (leNat ((buf.drop 4).take 4)) (buf.drop 8) with
        | error e => rfl
        | ok entries => rfl

theorem decodeDir_length {buf : Bytes} {entries : List DirEntry} (h : decodeDir buf = .ok entries) :
    entries.length = storedCount buf := by
  unfold decodeDir at h
  unfold storedCount
  split_ifs at h with hempty hbad
  · cases h
    rw [if_pos hempty]
    rfl
  · rw [if_neg hempty]
    exact (decodeEntries_fits _ _ h).1

theorem reservable_encodeDir {room : ℕ} {entries : List DirEntry} (hcount : entries.length < 2 ^ 32) :
    Reservable room (encodeDir entries) ↔ entries.length ≤ room := by
  have hstored : storedCount (encodeDir entries) = entries.length := by
    unfold storedCount encodeDir
    rw [if_neg (by simp [dirMagic])]
    have hfour : (dirMagic ++ leBytes 4 entries.length ++ entries.flatMap encodeEntry).drop 4 =
        leBytes 4 entries.length ++ entries.flatMap encodeEntry := rfl
    rw [hfour, List.take_left' (leBytes_length 4 _), leNat_leBytes]
    exact Nat.mod_eq_of_lt hcount
  unfold Reservable
  rw [hstored]
  refine ⟨fun h ↦ h ?_ ?_, fun h _ _ ↦ h⟩
  · unfold encodeDir
    simp only [List.length_append, leBytes_length, dirMagic, List.length_cons, List.length_nil]
    omega
  · rfl

/-- In a process that has memory for `room` entries, a directory is read back as it was written, and any buffer gives
an error or as many entries as it says, without a read out of bounds, exactly if the count in the head of the buffer is
at most `room`. -/
theorem directory_round_trip_iff (room : ℕ) :
    (∀ entries : List DirEntry, (∀ e ∈ entries, e.ino < 2 ^ 64 ∧ e.name.length ≤ 65535) →
      entries.length < 2 ^ 32 → (scanDir room (encodeDir entries) = .ok (.ok entries) ↔ entries.length ≤ room)) ∧
    ∀ buf : Bytes, ((∃ e, scanDir room buf = .ok (.error e)) ∨
      ∃ entries, scanDir room buf = .ok (.ok entries) ∧ entries.length = storedCount buf) ↔ Reservable room buf := by
  constructor
  · intro entries hentries hcount
    have hfits : ∀ e ∈ entries, e.Fits := fun e he ↦
      ⟨(hentries e he).1, Nat.lt_succ_of_le (hentries e he).2⟩
    have hread : decodeDir (encodeDir entries) = .ok entries := by
      rw [decodeDir_encodeDir hfits, Nat.mod_eq_of_lt hcount, List.take_length]
    rw [← reservable_encodeDir hcount]
    refine ⟨fun h ↦ ?_, fun h ↦ ?_⟩
    · by_contra hnot
      rw [(scanDir_eq room _).2 hnot] at h
      cases h
    · rw [(scanDir_eq room _).1 h, hread]
  · intro buf
    refine ⟨fun h ↦ ?_, fun h ↦ ?_⟩
    · by_contra hnot
      rw [(scanDir_eq room buf).2 hnot] at h
      rcases h with ⟨e, he⟩ | ⟨entries, hentries, -⟩
      · cases he
      · cases hentries
    · rw [(scanDir_eq room buf).1 h]
      cases hdecode : decodeDir buf with
      | error e => exact Or.inl ⟨e, rfl⟩
      | ok entries => exact Or.inr ⟨entries, rfl, decodeDir_length hdecode⟩

theorem directory_round_trip_sample :
    scanDir 2 (encodeDir [⟨2, .directory, [46]⟩, ⟨5, .symlink, []⟩]) =
        .ok (.ok [⟨2, .directory, [46]⟩, ⟨5, .symlink, []⟩]) ∧
      scanDir 1 (encodeDir [⟨2, .directory, [46]⟩, ⟨5, .symlink, []⟩]) ≠
        .ok (.ok [⟨2, .directory, [46]⟩, ⟨5, .symlink, []⟩]) := by
  have hfits : ∀ e ∈ [(⟨2, .directory, [46]⟩ : DirEntry), ⟨5, .symlink, []⟩], e.ino < 2 ^ 64 ∧ e.name.length ≤ 65535 := by
    decide
  have hiff := fun room ↦ (directory_round_trip_iff room).1 _ hfits (by decide)
  exact ⟨(hiff 2).mpr le_rfl, fun h ↦ absurd ((hiff 1).mp h) (by decide)⟩

/-- Eight bytes that promise 2^32 - 1 entries abort a process that has memory for 2^31 of them. -/
theorem promised_entries_abort :
    scanDir (2 ^ 31) [0x44, 0x49, 0x52, 0x31, 0xff, 0xff, 0xff, 0xff] = .error .outOfMemory ∧
      ¬∃ result, scanDir (2 ^ 31) [0x44, 0x49, 0x52, 0x31, 0xff, 0xff, 0xff, 0xff] = .ok result := by
  have habort : scanDir (2 ^ 31) [0x44, 0x49, 0x52, 0x31, 0xff, 0xff, 0xff, 0xff] = .error .outOfMemory := by
    decide +kernel
  refine ⟨habort, ?_⟩
  rintro ⟨result, hresult⟩
  rw [habort] at hresult
  cases hresult

end LinuxFile
