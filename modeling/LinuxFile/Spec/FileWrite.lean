import LinuxFile.Spec.FileRead

/-!
# Writing files

What `write_data` does to the file it is called on and to all others. A file that compresses is written record by
record, a raw one block by block.
-/

namespace LinuxFile

theorem overwriteBytes_length {data new : Bytes} {off : ℕ} (h : off + new.length ≤ data.length) :
    (overwriteBytes data off new).length = data.length := by
  unfold overwriteBytes
  rw [List.length_append, List.length_append, List.length_take, List.length_drop]
  omega

theorem getD_overwriteBytes {data new : Bytes} {off : ℕ} (h : off + new.length ≤ data.length) (q : ℕ) :
    (overwriteBytes data off new).getD q 0 =
      if off ≤ q ∧ q < off + new.length then new.getD (q - off) 0 else data.getD q 0 := by
  have htake : (data.take off).length = off := by
    rw [List.length_take]
    omega
  unfold overwriteBytes
  rw [List.append_assoc]
  simp only [List.getD_eq_getElem?_getD]
  by_cases hlow : q < off
  · rw [List.getElem?_append_left (by omega), List.getElem?_take, if_pos hlow, if_neg (by omega)]
  · rw [List.getElem?_append_right (by omega), htake]
    by_cases hhigh : q < off + new.length
    · rw [List.getElem?_append_left (by omega), if_pos ⟨by omega, hhigh⟩]
    · rw [List.getElem?_append_right (by omega), List.getElem?_drop, if_neg (by omega)]
      congr 2
      omega

/-- A buffer made long enough for a write. -/
theorem lengthened_length (data : Bytes) (stop : ℕ) :
    (if data.length < stop then resizeBytes data stop else data).length = max stop data.length := by
  split_ifs with hlt
  · rw [resizeBytes_length]
    omega
  · omega

theorem getD_lengthened (data : Bytes) (stop p : ℕ) :
    (if data.length < stop then resizeBytes data stop else data).getD p 0 = data.getD p 0 := by
  split_ifs with hlt
  · by_cases hp : p < stop
    · exact getD_resizeBytes _ hp
    · rw [List.getD_eq_default _ _ (by rw [resizeBytes_length]; omega), List.getD_eq_default _ _ (by omega)]
  · rfl

theorem getD_slice (data : Bytes) (start : ℕ) {len q : ℕ} (hq : q < len) :
    ((data.drop start).take len).getD q 0 = data.getD (start + q) 0 := by
  simp only [List.getD_eq_getElem?_getD]
  rw [List.getElem?_take, if_pos hq, List.getElem?_drop]

namespace Inner

open Ledger

variable {s t u : Inner} {i i' i'' : Inode} {ino k : ℕ}

/-! ## One file changes -/

/-- Only file `ino` may have other bytes than before. -/
structure Edited (s : Inner) (ino : ℕ) (t : Inner) : Prop where
  sound : t.Sound
  shell : SameShell s t
  none : ∀ k, k ≠ ino → s.inodes.find? k = none → t.inodes.find? k = none
  others : ∀ k i, k ≠ ino → s.inodes.find? k = some i → ∃ i', t.inodes.find? k = some i' ∧ SameData s k i t i'

theorem Sound.edited (h : s.Sound) (ino : ℕ) : Edited s ino s :=
  ⟨h, SameShell.refl s, fun _ _ hk ↦ hk, fun k i _ hi ↦ ⟨i, hi, SameData.refl s k i⟩⟩

theorem SameFiles.edited (h : SameFiles s t) (hsound : t.Sound) (ino : ℕ) : Edited s ino t :=
  ⟨hsound, h.shell, fun k _ hk ↦ h.none k hk, fun k i _ hi ↦ h.some k i hi⟩

theorem Edited.trans (hst : Edited s ino t) (htu : Edited t ino u) : Edited s ino u where
  sound := htu.sound
  shell := hst.shell.trans htu.shell
  none k hne hk := htu.none k hne (hst.none k hne hk)
  others k i hne hi := by
    obtain ⟨i', hi', hdata⟩ := hst.others k i hne hi
    obtain ⟨i'', hi'', hdata'⟩ := htu.others k i' hne hi'
    exact ⟨i'', hi'', hdata.trans hdata'⟩

theorem Edited.recordBytes (h : Edited s ino t) : t.recordBytes = s.recordBytes := by
  unfold Inner.recordBytes
  rw [h.shell.recordBlocks]

theorem Edited.contents (h : Edited s ino t) (hk : k ≠ ino) : t.contents k = s.contents k := by
  cases hfind : s.inodes.find? k with
  | none =>
    unfold Inner.contents
    rw [hfind, h.none k hk hfind]
  | some i =>
    obtain ⟨i', hi', hdata⟩ := h.others k i hk hfind
    rw [contents_of_mem hfind, contents_of_mem hi', hdata.size]
    apply List.map_congr_left
    intro p hp
    exact hdata.bytes p (List.mem_range.mp hp)

theorem Rewritten.edited (h : Rewritten s ino i' t) (hs : s.Sound) (hcache : t.recordCache = s.recordCache)
    (hinline : i'.dataKind = .inline → i'.inlineData.length = i'.size)
    (hheld : ∀ c, t.recordCache = some c → c.ino = ino → t.HeldOk c) : Edited s ino t where
  sound := h.sound hs hinline hheld fun c hc _ ↦ by rw [← hcache]; exact hc
  shell := h.shell
  none k hne hk := (h.find_ne hne).trans hk
  others k i hne hi := by
    have hstored := h.storedByte_ne hs hne hi
    have hbyte : ∀ p, t.fileByte k i p = s.fileByte k i p := fun p ↦
      fileByte_congr hcache h.shell.recordBlocks (hstored p)
    refine ⟨i, (h.find_ne hne).trans hi, Or.inl rfl, fun p _ ↦ hbyte p, fun p _ hz ↦ ?_⟩
    unfold Blank
    rw [hbyte p, hstored p]
    exact hz

/-- A change of the inode that leaves its blocks alone. -/
theorem Sound.rewrite (h : s.Sound) (hmem : s.inodes.find? ino = some i) (hwf : i'.Wf) (hino : i'.ino = i.ino)
    (hranges : i'.ranges = i.ranges) (hext : i'.extents = i.extents)
    (hrecord : i.usesCompression = true → i.dataKind ≠ .inline →
      i'.usesCompression = true ∧ i'.dataKind ≠ .inline) :
    Rewritten s ino i'
      { s with inodes := s.inodes.insert ino i', dirtyInodes := s.dirtyInodes.insert ino () } where
  inodes := rfl
  shell := rfl
  inv := h.inv.update hmem i' hwf hino hranges hext hrecord
  laid := by
    have hlaid := h.laid ino i hmem
    refine ⟨?_, ?_, ?_, ?_, ?_⟩
    · rw [hext]
      exact hlaid.stable
    · intro e he hpacked
      rw [hext] at he
      obtain ⟨data, hdata⟩ := hlaid.packed e he hpacked
      exact ⟨data, ⟨hdata.decode, hdata.length_le⟩⟩
    · rw [hext]
      exact hlaid.start
    · rw [hext]
      exact hlaid.length
    · rw [hext]
      exact hlaid.alone
  others _ _ _ _ := fun _ _ _ hP ↦ hP

theorem storedByte_extents (hext : i'.extents = i.extents) (p : ℕ) : s.storedByte i' p = s.storedByte i p := by
  unfold storedByte
  rw [hext]

/-! ## Files that compress -/

/-- File `ino` after the first `done` bytes of a write at `off`. -/
structure RecordsWritten (s : Inner) (ino : ℕ) (i : Inode) (off : ℕ) (buf : Bytes) (done : ℕ) (i' : Inode)
    (t : Inner) : Prop where
  edited : Edited s ino t
  find : t.inodes.find? ino = some i'
  stowed : i' = i ∨ Stowed i i'
  held : done = 0 ∨ ∃ c, t.recordCache = some c ∧ c.ino = ino ∧ c.dirty = true ∧
    c.record = (off + done - 1) / s.recordBytes
  inside : ∀ p, off ≤ p → p < off + done → t.fileByte ino i' p = buf.getD (p - off) 0
  outside : ∀ p, p < off ∨ off + done ≤ p → p < i.size → t.fileByte ino i' p = s.fileByte ino i p
  blank : ∀ p, p < off ∨ off + done ≤ p → i.size ≤ p → s.Blank ino i p → t.Blank ino i' p

/-- The held record with a chunk of new bytes. -/
theorem fileByte_overwrite (hkind : i.dataKind ≠ .inline) {record : ℕ} {data : Bytes} {dirty : Bool}
    (hheld : s.recordCache = some ⟨ino, record, data, dirty⟩) (hlen : data.length = s.recordBytes) {c : Chunk}
    (hc : c.index = record) {part : Bytes} (hpart : part.length = c.len) (hfits : c.within + c.len ≤ s.recordBytes)
    (p : ℕ) :
    fileByte { s with recordCache := some ⟨ino, record, overwriteBytes data c.within part, true⟩ } ino i p =
      if c.index * s.recordBytes + c.within ≤ p ∧ p < c.index * s.recordBytes + c.within + c.len then
        part.getD (p - (c.index * s.recordBytes + c.within)) 0 else s.fileByte ino i p := by
  rw [fileByte_hold hkind, fileByte_held hheld hkind, getD_overwriteBytes (by omega)]
  dsimp only
  by_cases hin : c.index * s.recordBytes + c.within ≤ p ∧ p < c.index * s.recordBytes + c.within + c.len
  · obtain ⟨hdiv, hmod⟩ := div_eq_record hfits hin.1 hin.2
    rw [if_pos hin, if_pos ⟨rfl, by rw [← hc, hdiv]⟩, if_pos (by omega), hmod, Nat.add_sub_cancel_left]
  · rw [if_neg hin]
    by_cases hrec : ino = ino ∧ record = p / s.recordBytes
    · rw [if_pos hrec, if_pos hrec, if_neg]
      have hmod := mod_eq_sub hrec.2.symm
      have hle : record * s.recordBytes ≤ p := by
        rw [hrec.2]
        exact Nat.div_mul_le_self p s.recordBytes
      rw [hmod, hpart]
      rw [hc] at hin
      omega
    · rw [if_neg hrec, if_neg hrec]

/-- Another record of the file that has one in memory. -/
theorem edited_of_held {c c' : RecordCache} (hc : s.recordCache = some c) (hino : c'.ino = c.ino)
    (hsound : Sound { s with recordCache := some c' }) : Edited s c.ino { s with recordCache := some c' } := by
  have hbyte : ∀ k x, k ≠ c.ino → ∀ p, fileByte { s with recordCache := some c' } k x p = s.fileByte k x p := by
    intro k x hk p
    by_cases hkind : x.dataKind = .inline
    · rw [fileByte_inline hkind, fileByte_inline hkind]
    · rw [fileByte_hold hkind, fileByte_held hc hkind, if_neg fun hin ↦ hk (hin.1.symm.trans hino),
        if_neg fun hin ↦ hk hin.1.symm]
  refine ⟨hsound, rfl, fun _ _ hk ↦ hk, fun k x hk hx ↦ ⟨x, hx, Or.inl rfl, fun p _ ↦ hbyte k x hk p,
    fun p _ hz ↦ ⟨?_, hz.2⟩⟩⟩
  rw [hbyte k x hk p]
  exact hz.1

theorem writeRecordChunk_writes (huses : i.usesCompression = true) (hkind : i.dataKind ≠ .inline) {off : ℕ}
    {buf : Bytes} {c : Chunk}
    {i₁ : Inode} (hwritten : RecordsWritten s ino i off buf c.done i₁ t) (hstop : off + buf.length ≤ maxFileSize)
    (hpos : 0 < c.len) (hplace : c.index * s.recordBytes + c.within = off + c.done)
    (hfits : c.within + c.len ≤ s.recordBytes) (hle : c.done + c.len ≤ buf.length) :
    (writeRecordChunk ino buf c).Holds t
      (fun _ u ↦ ∃ i₂, RecordsWritten s ino i off buf (c.done + c.len) i₂ u) (fun e _ ↦ e.IsHost) := by
  have hbytes := hwritten.edited.recordBytes
  have hsize₁ : i₁.size = i.size := by
    rcases hwritten.stowed with rfl | hstowed
    · rfl
    · rw [hstowed.same]
  have huses₁ : i₁.usesCompression = true := by
    rcases hwritten.stowed with rfl | hstowed
    · exact huses
    · exact hstowed.usesCompression huses
  have hkind₁ : i₁.dataKind ≠ .inline := by
    rcases hwritten.stowed with rfl | hstowed
    · exact hkind
    · exact hstowed.kind
  have hrecord : c.index * t.recordBlocks ≤ maxFileSize / blockSize :=
    record_le (p := off + c.done) (by rw [hbytes]; omega) (by omega)
  unfold writeRecordChunk
  refine (cachedRecord_fetches hwritten.edited.sound hwritten.find huses₁ hkind₁ hrecord).bind ?_
    (fun _ _ he ↦ he)
  intro data u hheld
  obtain ⟨i₂, hi₂, hdata⟩ := hheld.same.some ino i₁ hwritten.find
  obtain ⟨dirty, hcache⟩ := hheld.held
  have hubytes : u.recordBytes = s.recordBytes := hheld.same.recordBytes.trans hbytes
  have hlen : data.length = u.recordBytes := by
    rw [hubytes, ← hbytes]
    exact hheld.length
  have hkind₂ : i₂.dataKind ≠ .inline := fun hk ↦ hkind₁ (hdata.inline_iff.mp hk)
  have huses₂ : i₂.usesCompression = true := hdata.usesCompression.trans huses₁
  set part := (buf.drop c.done).take c.len with hpart
  have hpartlen : part.length = c.len := by
    rw [hpart, List.length_take, List.length_drop]
    omega
  rw [← hubytes] at hplace hfits
  dsimp only
  rw [if_neg (by omega), Exec.holds_modify]
  have hbyte := fileByte_overwrite hkind₂ hcache hlen (c := c) rfl hpartlen hfits
  set v : Inner := { u with recordCache := some ⟨ino, c.index, overwriteBytes data c.within part, true⟩ } with hv
  have hsound : v.Sound := by
    refine hheld.sound.hold hi₂ huses₂ hkind₂ ?_ ?_ (fun hd ↦ by cases hd)
    · rw [hheld.same.shell.recordBlocks]
      exact hrecord
    · rw [overwriteBytes_length (by omega)]
      exact hlen
  have hedited : Edited u ino v := edited_of_held hcache rfl hsound
  refine ⟨i₂, (hwritten.edited.trans (hheld.same.edited hheld.sound ino)).trans hedited, hi₂, ?_, ?_, fun p hlow hhigh ↦ ?_,
    fun p hp hsize ↦ ?_, fun p hp hsize hz ↦ ?_⟩
  · rcases hdata.stowed with rfl | ⟨hstowed, -⟩
    · exact hwritten.stowed
    · rcases hwritten.stowed with rfl | hstowed₁
      · exact Or.inr hstowed
      · exact Or.inr (hstowed₁.trans hstowed)
  · refine Or.inr ⟨_, rfl, rfl, rfl, ?_⟩
    rw [hubytes] at hplace hfits
    exact (div_eq_record (c := c) hfits (by omega) (by omega)).1.symm
  · rw [hbyte p, hplace]
    split_ifs with hin
    · rw [hpart, getD_slice _ _ (by omega)]
      congr 1
      omega
    · have hpos' : c.done ≠ 0 := by omega
      obtain ⟨c', hc', hino', hdirty', hrec'⟩ := hwritten.held.resolve_left hpos'
      rw [← hwritten.inside p hlow (by omega)]
      refine hheld.all (fun c'' hc'' _ ↦ ?_) i₁ i₂ hwritten.find hi₂ p fun hdiv ↦ ⟨c', hc', hino', ?_⟩
      · rw [hc'] at hc''
        cases hc''
        exact hdirty'
      · -- the chunk lies in the record that the last one left in memory
        rw [hbytes] at hdiv
        rw [hubytes] at hplace hfits
        have hlast : (off + c.done) / s.recordBytes = c.index :=
          (div_eq_record (c := c) hfits (by omega) (by omega)).1
        have hmono := Nat.div_le_div_right (c := s.recordBytes) (by omega : p ≤ off + c.done - 1)
        have hmono' := Nat.div_le_div_right (c := s.recordBytes) (by omega : off + c.done - 1 ≤ off + c.done)
        omega
  · rw [hbyte p, if_neg (by omega), hdata.bytes p (by omega)]
    exact hwritten.outside p (by omega) hsize
  · have hz₁ := hwritten.blank p (by omega) hsize hz
    have hz₂ := hdata.blank p (by omega) hz₁
    refine ⟨?_, hz₂.2⟩
    rw [hbyte p, if_neg (by omega)]
    exact hz₂.1

theorem Sound.recordsWritten_zero (h : s.Sound) (hmem : s.inodes.find? ino = some i) (off : ℕ) (buf : Bytes) :
    RecordsWritten s ino i off buf 0 i s where
  edited := h.edited ino
  find := hmem
  stowed := Or.inl rfl
  held := Or.inl rfl
  inside p hlow hhigh := by omega
  outside _ _ _ := rfl
  blank _ _ _ hz := hz

/-- A write to a file that compresses. -/
theorem writeDataCompressed_writes (h : s.Sound) (hmem : s.inodes.find? ino = some i)
    (huses : i.usesCompression = true) (hkind : i.dataKind ≠ .inline) {off : ℕ} {buf : Bytes}
    (hstop : off + buf.length ≤ maxFileSize) :
    (writeDataCompressed ino off buf).Holds s
      (fun _ t ↦ ∃ i', RecordsWritten s ino i off buf buf.length i' t) (fun e _ ↦ e.IsHost) := by
  unfold writeDataCompressed
  rw [Exec.holds_bind, Exec.holds_read]
  refine (Exec.holds_forEach (fun rest t ↦ ∃ done i', Chunk.Tiles s.recordBytes off buf.length done rest ∧
    RecordsWritten s ino i off buf done i' t) ?_ _ ?_).mono ?_ (fun _ _ he ↦ he)
  · rintro c rest t ⟨done, i₁, htiles, hwritten⟩
    cases htiles with
    | cons pos le place fits whole tail =>
      refine (writeRecordChunk_writes huses hkind hwritten hstop pos place fits le).mono ?_ (fun _ _ he ↦ he)
      rintro _ u ⟨i₂, hchunk⟩
      exact ⟨_, i₂, tail, hchunk⟩
  · exact ⟨0, i, Chunk.list_tiles h.records_pos off buf.length, h.recordsWritten_zero hmem off buf⟩
  · rintro _ t ⟨done, i', htiles, hwritten⟩
    cases htiles
    exact ⟨i', hwritten⟩

/-! ## Inline data that has become too long for the inode of a file that compresses -/

/-- A new inode for the file: its bytes are those of `full`, stored as records up to `done`. -/
structure Spilled (s : Inner) (ino : ℕ) (i : Inode) (full : Bytes) (done : ℕ) (i' : Inode) (t : Inner) : Prop where
  rewritten : Rewritten s ino i' t
  cache : t.recordCache = s.recordCache
  stowed : i' = i ∨ Stowed i i'
  below : ∀ p, p < done → t.storedByte i' p = full.getD p 0
  above : ∀ p, done ≤ p → t.storedByte i' p = 0

theorem storeRecord_spills (hrecords : 0 < s.recordBytes) (hkind : i.dataKind ≠ .inline) {full : Bytes}
    {c : Chunk} {i₁ : Inode} (h : Spilled s ino i full c.done i₁ t) (hstop : full.length ≤ maxFileSize)
    (hpos : 0 < c.len) (hplace : c.index * s.recordBytes + c.within = 0 + c.done)
    (hfits : c.within + c.len ≤ s.recordBytes) (hle : c.done + c.len ≤ full.length)
    (hwithin : c.within = 0) :
    (storeRecord ino c.index ((full.drop c.done).take c.len)).Holds t
      (fun _ u ↦ ∃ i₂, Spilled s ino i full (c.done + c.len) i₂ u) (fun e _ ↦ e.IsHost) := by
  have hbytes := h.rewritten.recordBytes
  have hlen : ((full.drop c.done).take c.len).length = c.len := by
    rw [List.length_take, List.length_drop]
    omega
  have hstart : c.index * s.recordBytes = c.done := by omega
  refine (storeRecord_stores h.rewritten.inv h.rewritten.find h.rewritten.laid
    (record_le (p := c.done) (by rw [hbytes]; omega) (by omega)) (by rw [hlen, hbytes]; omega)).mono ?_
    (fun _ _ he ↦ he)
  rintro _ u ⟨i₂, hstored⟩
  have hin : ∀ p, p / s.recordBytes = c.index ↔ c.done ≤ p ∧ p < c.done + s.recordBytes := by
    intro p
    rw [div_eq_iff_range hrecords, hstart]
  have hbyte : ∀ p, u.storedByte i₂ p = if c.done ≤ p ∧ p < c.done + s.recordBytes then
      ((full.drop c.done).take c.len).getD (p - c.done) 0 else t.storedByte i₁ p := by
    intro p
    rw [hstored.bytes p, hbytes, hstart]
    by_cases hp : c.done ≤ p ∧ p < c.done + s.recordBytes
    · rw [if_pos ((hin p).mpr hp), if_pos hp]
    · rw [if_neg fun hq ↦ hp ((hin p).mp hq), if_neg hp]
  refine ⟨i₂, h.rewritten.trans hstored.rewritten, hstored.cache.trans h.cache, ?_, fun p hp ↦ ?_, fun p hp ↦ ?_⟩
  · rcases h.stowed with rfl | hstowed
    · exact Or.inr hstored.stowed
    · exact Or.inr (hstowed.trans hstored.stowed)
  · rw [hbyte p]
    split_ifs with hr
    · rw [getD_slice _ _ (by omega), Nat.add_sub_cancel' hr.1]
    · exact h.below p (by omega)
  · rw [hbyte p]
    split_ifs with hr
    · rw [List.getD_eq_default _ _ (by rw [hlen]; omega)]
    · exact h.above p (by omega)

theorem storeRecords_spill (hrecords : 0 < s.recordBytes) (hkind : i.dataKind ≠ .inline) {full : Bytes}
    (h : Spilled s ino i full 0 i s) (hstop : full.length ≤ maxFileSize) :
    (Exec.forEach (fun c ↦ storeRecord ino c.index ((full.drop c.done).take c.len))
      (Chunk.list s.recordBytes 0 full.length)).Holds s
      (fun _ t ↦ ∃ i', Spilled s ino i full full.length i' t) (fun e _ ↦ e.IsHost) := by
  refine (Exec.holds_forEach (fun rest t ↦ ∃ done i', Chunk.Tiles s.recordBytes 0 full.length done rest ∧
    (done % s.recordBytes = 0 ∨ done = full.length) ∧ Spilled s ino i full done i' t) ?_ _ ?_).mono ?_
    (fun _ _ he ↦ he)
  · rintro c rest t ⟨done, i₁, htiles, halign, hspilled⟩
    cases htiles with
    | cons pos le place fits whole tail =>
      have hzero : c.done % s.recordBytes = 0 := halign.resolve_right (by omega)
      have hwithin : c.within = 0 := by
        rw [Nat.zero_add] at place
        rw [← place, Nat.mul_add_mod', Nat.mod_eq_of_lt (by omega)] at hzero
        exact hzero
      refine (storeRecord_spills hrecords hkind hspilled hstop pos place fits le hwithin).mono ?_ (fun _ _ he ↦ he)
      rintro _ u ⟨i₂, hspilled'⟩
      refine ⟨_, i₂, tail, ?_, hspilled'⟩
      rcases whole with hunit | hend
      · left
        rw [Nat.add_mod, hzero, show c.len = s.recordBytes by omega, Nat.mod_self]
        rfl
      · exact Or.inr hend
  · exact ⟨0, i, Chunk.list_tiles hrecords 0 full.length, Or.inl (Nat.zero_mod _), h⟩
  · rintro _ t ⟨done, i', htiles, -, hspilled⟩
    cases htiles
    exact ⟨i', hspilled⟩

/-! ## The whole of `write_data` -/

/-- No byte of the write lies in the block of position `p`. -/
def Untouched (off len p : ℕ) : Prop := ∀ q, off ≤ q → q < off + len → q / blockSize ≠ p / blockSize

/-- A write of `len` bytes at `off` leaves position `p` alone. A raw file gets a block as it was left by its last
owner, so a position in a hole is only safe if the write does not touch its block. -/
def Spared (i : Inode) (off len p : ℕ) : Prop :=
  if i.dataKind = .inline then
    off + len ≤ inlineMax ∨ i.usesCompression = true ∨ (ceilBlocks i.inlineData.length < u32Limit ∧
      (p / blockSize < ceilBlocks i.inlineData.length ∨ Untouched off len p))
  else i.usesCompression = true ∨ cellAt i.extents (p / blockSize) ≠ .hole ∨ Untouched off len p

/-- File `ino` after `write_data`. -/
structure FileWritten (s : Inner) (ino : ℕ) (i : Inode) (off : ℕ) (buf : Bytes) (i' : Inode) (t : Inner) :
    Prop where
  edited : Edited s ino t
  find : t.inodes.find? ino = some i'
  size : i'.size = max (off + buf.length) i.size
  inside : ∀ p, off ≤ p → p < off + buf.length → t.fileByte ino i' p = buf.getD (p - off) 0
  outside : ∀ p, p < off ∨ off + buf.length ≤ p → Spared i off buf.length p → p < i.size →
    t.fileByte ino i' p = s.fileByte ino i p
  blank : ∀ p, p < off ∨ off + buf.length ≤ p → Spared i off buf.length p → i.size ≤ p → s.Blank ino i p →
    t.Blank ino i' p

theorem Sound.not_held_inline (h : s.Sound) (hmem : s.inodes.find? ino = some i) (hkind : i.dataKind = .inline) :
    ∀ c, s.recordCache = some c → c.ino ≠ ino := by
  rintro c hc rfl
  obtain ⟨x, hx, -, hxkind⟩ := (h.held c hc).owner
  rw [hmem] at hx
  cases hx
  exact hxkind hkind

theorem storedByte_inline (hwf : i.Wf) (hkind : i.dataKind = .inline) (p : ℕ) : s.storedByte i p = 0 := by
  unfold storedByte
  rw [hwf.inline hkind]
  rfl

theorem extendSize_wf (hwf : i.Wf) (now : Timespec) {stop : ℕ} (hstop : stop ≤ maxFileSize) :
    (extendSize now stop i).Wf :=
  ⟨fun e he ↦ (hwf.extents e he).congr id, hwf.clear, hwf.tree, max_le hstop hwf.size_le, hwf.inline⟩

theorem fileByte_inode (hext : i'.extents = i.extents) (hkind : i'.dataKind = i.dataKind)
    (hinline : i'.inlineData = i.inlineData) (k p : ℕ) : s.fileByte k i' p = s.fileByte k i p := by
  unfold fileByte
  rw [hkind, hinline, storedByte_extents hext]

/-- A write that stays in the inode. -/
theorem writeInline_writes (h : s.Sound) (hmem : s.inodes.find? ino = some i) (hkind : i.dataKind = .inline)
    (now : Timespec) {off : ℕ} {buf : Bytes} (hstop : off + buf.length ≤ maxFileSize) :
    FileWritten s ino i off buf (writeInline now off buf i)
      { s with
        inodes := s.inodes.insert ino (writeInline now off buf i)
        dirtyInodes := s.dirtyInodes.insert ino () } := by
  have hwf := h.wf hmem
  have hlen := h.inline ino i hmem hkind
  set data := if i.inlineData.length < off + buf.length then resizeBytes i.inlineData (off + buf.length)
    else i.inlineData with hdata
  have hdatalen : data.length = max (off + buf.length) i.size := by
    rw [hdata, lengthened_length, hlen]
  have hbyte : ∀ p, data.getD p 0 = i.inlineData.getD p 0 := fun p ↦ getD_lengthened _ _ p
  have hover : off + buf.length ≤ data.length := by omega
  have hnew : (writeInline now off buf i).inlineData = overwriteBytes data off buf := rfl
  have hwf' : (writeInline now off buf i).Wf :=
    ⟨fun e he ↦ (hwf.extents e he).congr id, hwf.clear, hwf.tree, max_le hstop hwf.size_le, hwf.inline⟩
  have hkind' : (writeInline now off buf i).dataKind = .inline := hkind
  have hrewritten := h.rewrite hmem hwf' rfl rfl rfl fun _ hk ↦ absurd hkind hk
  have hnone := h.not_held_inline hmem hkind
  refine ⟨hrewritten.edited h rfl (fun _ ↦ ?_) (fun c hc hck ↦ absurd hck (hnone c hc)), hrewritten.find, rfl,
    fun p hlow hhigh ↦ ?_, fun p hp _ hsize ↦ ?_, fun p hp _ hsize _ ↦ ⟨?_, ?_⟩⟩
  · rw [hnew, overwriteBytes_length hover, hdatalen]
    rfl
  · rw [fileByte_inline hkind', hnew, getD_overwriteBytes hover, if_pos ⟨hlow, hhigh⟩]
  · rw [fileByte_inline hkind', fileByte_inline hkind, hnew, getD_overwriteBytes hover, if_neg (by omega), hbyte]
  · rw [fileByte_inline hkind', hnew, getD_overwriteBytes hover, if_neg (by omega), hbyte,
      List.getD_eq_default _ _ (by omega)]
  · exact storedByte_inline hwf' hkind' p

/-- The size grows; a record in memory must not count as clean any more. -/
theorem extendSize_edited (h : s.Sound) (hmem : s.inodes.find? ino = some i) (hkind : i.dataKind ≠ .inline)
    (hheld : s.DirtyHeld ino) (now : Timespec) {stop : ℕ} (hstop : stop ≤ maxFileSize) :
    Edited s ino { s with
      inodes := s.inodes.insert ino (extendSize now stop i), dirtyInodes := s.dirtyInodes.insert ino () } := by
  have hrewritten := h.rewrite hmem (extendSize_wf (h.wf hmem) now hstop) rfl rfl rfl fun hu hk ↦ ⟨hu, hk⟩
  refine hrewritten.edited h rfl (fun hk ↦ absurd hk hkind) ?_
  intro c hc hck
  have hok := h.held c hc
  obtain ⟨x, hx, huses, -⟩ := hok.owner
  rw [hck, hmem] at hx
  cases hx
  refine ⟨⟨extendSize now stop i, ?_, huses, hkind⟩, hok.length, fun hclean ↦ ?_⟩
  · rw [hck]
    exact hrewritten.find
  · rw [hheld c hc hck] at hclean
    cases hclean

/-- A write by records, and the new size. -/
theorem RecordsWritten.extended {off : ℕ} {buf : Bytes} {i₁ : Inode}
    (h : RecordsWritten s ino i off buf buf.length i₁ t) (hne : buf ≠ []) (hkind : i.dataKind ≠ .inline)
    (hstop : off + buf.length ≤ maxFileSize) (now : Timespec) :
    FileWritten s ino i off buf (extendSize now (off + buf.length) i₁)
      { t with
        inodes := t.inodes.insert ino (extendSize now (off + buf.length) i₁)
        dirtyInodes := t.dirtyInodes.insert ino () } := by
  have hkind₁ : i₁.dataKind ≠ .inline := by
    rcases h.stowed with rfl | hstowed
    · exact hkind
    · exact hstowed.kind
  have hsize₁ : i₁.size = i.size := by
    rcases h.stowed with rfl | hstowed
    · rfl
    · rw [hstowed.same]
  have hpos : buf.length ≠ 0 := fun hzero ↦ hne (List.length_eq_zero_iff.mp hzero)
  have hheld : t.DirtyHeld ino := by
    intro c hc _
    obtain ⟨c', hc', -, hdirty, -⟩ := h.held.resolve_left hpos
    rw [hc] at hc'
    cases hc'
    exact hdirty
  have hbyte : ∀ p, fileByte { t with
      inodes := t.inodes.insert ino (extendSize now (off + buf.length) i₁)
      dirtyInodes := t.dirtyInodes.insert ino () } ino (extendSize now (off + buf.length) i₁) p =
        t.fileByte ino i₁ p := fun p ↦ fileByte_inode (s := t) rfl rfl rfl ino p
  refine ⟨h.edited.trans (extendSize_edited h.edited.sound h.find hkind₁ hheld now hstop),
    KeyMap.find?_insert_self _ _ _, ?_, fun p hlow hhigh ↦ ?_, fun p hp _ hsize ↦ ?_, fun p hp _ hsize hz ↦ ?_⟩
  · exact congrArg (max (off + buf.length)) hsize₁
  · rw [hbyte p]
    exact h.inside p hlow hhigh
  · rw [hbyte p]
    exact h.outside p hp hsize
  · have hz₁ := h.blank p hp hsize hz
    refine ⟨?_, hz₁.2⟩
    rw [hbyte p]
    exact hz₁.1

/-- The inode of a file whose data leaves it. -/
def spilledInode (now : Timespec) (stop : ℕ) (i : Inode) : Inode :=
  extendSize now stop { i with inlineData := [], dataKind := .extents }

theorem spillInline_writes (h : s.Sound) (hmem : s.inodes.find? ino = some i) (hkind : i.dataKind = .inline)
    {off : ℕ} {buf : Bytes} (hstop : off + buf.length ≤ maxFileSize) :
    (spillInline ino off buf i).Holds s (fun _ t ↦ ∃ i', FileWritten s ino i off buf i' t)
      (fun e _ ↦ e.IsHost) := by
  have hwf := h.wf hmem
  have hlen := h.inline ino i hmem hkind
  unfold spillInline
  rw [Exec.holds_bind, Exec.holds_get]
  dsimp only
  set data := if i.inlineData.length < off + buf.length then resizeBytes i.inlineData (off + buf.length)
    else i.inlineData with hdata
  have hdatalen : data.length = max (off + buf.length) i.size := by
    rw [hdata, lengthened_length, hlen]
  have hbyte : ∀ p, data.getD p 0 = i.inlineData.getD p 0 := fun p ↦ getD_lengthened _ _ p
  have hover : off + buf.length ≤ data.length := by omega
  set full := overwriteBytes data off buf with hfull
  have hfulllen : full.length = max (off + buf.length) i.size := by
    rw [hfull, overwriteBytes_length hover, hdatalen]
  rw [Exec.holds_bind_of_ok (getInodeMut_mem hmem _)]
  -- first the inode gives up its inline data
  set i₀ := spilledInode s.env.now (off + buf.length) i with hi₀
  have hkind₀ : i₀.dataKind ≠ .inline := by
    intro hk
    cases hk
  have hext₀ : i₀.extents = [] := hwf.inline hkind
  have hwf₀ : i₀.Wf :=
    ⟨fun e he ↦ (hwf.extents e he).congr id, hwf.clear, hwf.tree, max_le hstop hwf.size_le,
      fun hk ↦ absurd hk hkind₀⟩
  have hrewritten := h.rewrite hmem hwf₀ rfl rfl rfl fun _ hk ↦ absurd hkind hk
  have hnone := h.not_held_inline hmem hkind
  set s₀ : Inner := { s with inodes := s.inodes.insert ino i₀, dirtyInodes := s.dirtyInodes.insert ino () } with hs₀
  have hedited : Edited s ino s₀ :=
    hrewritten.edited h rfl (fun hk ↦ absurd hk hkind₀) (fun c hc hck ↦ absurd hck (hnone c hc))
  have hspilled : Spilled s₀ ino i₀ full 0 i₀ s₀ := by
    refine ⟨hedited.sound.rewritten_refl hrewritten.find, rfl, Or.inl rfl, fun p hp ↦ by omega, fun p _ ↦ ?_⟩
    unfold storedByte
    rw [hext₀]
    rfl
  refine (storeRecords_spill (s := s₀) h.records_pos hkind₀ hspilled (by rw [hfulllen]; exact max_le hstop hwf.size_le)).mono
    ?_ (fun _ _ he ↦ he)
  rintro _ t ⟨i', hdone⟩
  have hkind' : i'.dataKind ≠ .inline := by
    rcases hdone.stowed with rfl | hstowed
    · exact hkind₀
    · exact hstowed.kind
  have hcache : ∀ c, t.recordCache = some c → c.ino ≠ ino := by
    intro c hc
    rw [hdone.cache] at hc
    exact hnone c hc
  have hbyte' : ∀ p, t.fileByte ino i' p = full.getD p 0 := by
    intro p
    rw [fileByte_stored hkind' hcache]
    by_cases hp : p < full.length
    · exact hdone.below p hp
    · rw [hdone.above p (by omega), List.getD_eq_default _ _ (by omega)]
  refine ⟨i', hedited.trans (hdone.rewritten.edited hedited.sound hdone.cache (fun hk ↦ absurd hk hkind')
    (fun c hc hck ↦ absurd hck (hcache c hc))), hdone.rewritten.find, ?_, fun p hlow hhigh ↦ ?_, fun p hp _ hsize ↦ ?_,
    fun p hp _ hsize _ ↦ ?_⟩
  · rcases hdone.stowed with rfl | hstowed
    · rfl
    · rw [hstowed.same]
      rfl
  · rw [hbyte' p, hfull, getD_overwriteBytes hover, if_pos ⟨hlow, hhigh⟩]
  · rw [hbyte' p, fileByte_inline hkind, hfull, getD_overwriteBytes hover, if_neg (by omega), hbyte]
  · have hzero : full.getD p 0 = 0 := by
      rw [hfull, getD_overwriteBytes hover, if_neg (by omega), hbyte, List.getD_eq_default _ _ (by omega)]
    refine ⟨(hbyte' p).trans hzero, ?_⟩
    rw [← fileByte_stored hkind' hcache]
    exact (hbyte' p).trans hzero

/-! ## Raw files -/

/-- A write by blocks, and the new size. -/
theorem RawWritten.extended {off : ℕ} {buf : Bytes} {i₁ : Inode} (hs : s.Sound) (hmem : s.inodes.find? ino = some i)
    (hkind : i.dataKind ≠ .inline) (huses : i.usesCompression = false)
    (h : RawWritten s ino i off buf buf.length i₁ t) (hstop : off + buf.length ≤ maxFileSize) (now : Timespec) :
    FileWritten s ino i off buf (extendSize now (off + buf.length) i₁)
      { t with
        inodes := t.inodes.insert ino (extendSize now (off + buf.length) i₁)
        dirtyInodes := t.dirtyInodes.insert ino () } := by
  have hnone := hs.held_ne hmem huses
  have hnone' : ∀ c, t.recordCache = some c → c.ino ≠ ino := by
    intro c hc
    rw [h.record] at hc
    exact hnone c hc
  have hkind₁ := h.recut.kind
  have hsize₁ : i₁.size = i.size := by rw [h.recut.same]
  have hedited : Edited s ino t :=
    h.rewritten.edited hs h.record (fun hk ↦ absurd hk hkind₁) (fun c hc hck ↦ absurd hck (hnone' c hc))
  have hbyte : ∀ p, fileByte { t with
      inodes := t.inodes.insert ino (extendSize now (off + buf.length) i₁)
      dirtyInodes := t.dirtyInodes.insert ino () } ino (extendSize now (off + buf.length) i₁) p =
        t.storedByte i₁ p := fun p ↦ fileByte_stored (s := { t with
      inodes := t.inodes.insert ino (extendSize now (off + buf.length) i₁)
      dirtyInodes := t.dirtyInodes.insert ino () }) (i := extendSize now (off + buf.length) i₁) hkind₁ hnone' p
  have hspared : ∀ p, Spared i off buf.length p → cellAt i.extents (p / blockSize) ≠ .hole ∨
      Untouched off buf.length p := by
    intro p hp
    unfold Spared at hp
    rw [if_neg hkind, huses] at hp
    exact hp.resolve_left (by simp)
  refine ⟨hedited.trans (extendSize_edited hedited.sound h.rewritten.find hkind₁
    (fun c hc hck ↦ absurd hck (hnone' c hc)) now hstop), KeyMap.find?_insert_self _ _ _, ?_, fun p hlow hhigh ↦ ?_,
    fun p hp hsp hsize ↦ ?_, fun p hp hsp hsize hz ↦ ?_⟩
  · exact congrArg (max (off + buf.length)) hsize₁
  · rw [hbyte p]
    exact h.inside p hlow hhigh
  · rw [hbyte p, h.outside p hp (hspared p hsp), fileByte_stored hkind hnone]
  · have hstored : t.storedByte i₁ p = 0 := by
      rw [h.outside p hp (hspared p hsp)]
      exact hz.2
    exact ⟨(hbyte p).trans hstored, hstored⟩

/-- Moving the inline data of a raw file to blocks changes no byte of it. -/
theorem Promoted.edited (hs : s.Sound) (hmem : s.inodes.find? ino = some i) (hkind : i.dataKind = .inline)
    {i₁ : Inode} (h : Promoted s ino i i₁ t) : Edited s ino t := by
  have hnone := hs.not_held_inline hmem hkind
  refine h.rewritten.edited hs h.record (fun hk ↦ absurd hk h.recut.kind) (fun c hc hck ↦ ?_)
  rw [h.record] at hc
  exact absurd hck (hnone c hc)

theorem Promoted.fileByte {i₁ : Inode} (hs : s.Sound) (hmem : s.inodes.find? ino = some i)
    (hkind : i.dataKind = .inline) (h : Promoted s ino i i₁ t) (hsmall : ceilBlocks i.inlineData.length < u32Limit)
    (p : ℕ) : t.fileByte ino i₁ p = s.fileByte ino i p := by
  have hnone := hs.not_held_inline hmem hkind
  rw [fileByte_stored h.recut.kind (fun c hc ↦ hnone c (by rw [← h.record]; exact hc)), h.bytes hsmall p,
    fileByte_inline hkind]

theorem FileWritten.of_promoted {off : ℕ} {buf : Bytes} {i₁ : Inode} (hs : s.Sound)
    (hmem : s.inodes.find? ino = some i) (hkind : i.dataKind = .inline) (huses : i.usesCompression = false)
    (hlong : ¬off + buf.length ≤ inlineMax) (h : Promoted s ino i i₁ t)
    (hwritten : FileWritten t ino i₁ off buf i' u) : FileWritten s ino i off buf i' u := by
  have hsize₁ : i₁.size = i.size := by rw [h.recut.same]
  have hspared : ∀ p, Spared i off buf.length p → ceilBlocks i.inlineData.length < u32Limit ∧
      Spared i₁ off buf.length p := by
    intro p hp
    unfold Spared at hp ⊢
    rw [if_pos hkind, huses] at hp
    obtain ⟨hsmall, hblock⟩ := (hp.resolve_left hlong).resolve_left (by simp)
    rw [if_neg h.recut.kind]
    exact ⟨hsmall, Or.inr (hblock.imp_left (h.mapped hsmall _))⟩
  refine ⟨(h.edited hs hmem hkind).trans hwritten.edited, hwritten.find, ?_, hwritten.inside,
    fun p hp hsp hsize ↦ ?_, fun p hp hsp hsize hz ↦ ?_⟩
  · rw [hwritten.size, hsize₁]
  · obtain ⟨hsmall, hsp₁⟩ := hspared p hsp
    rw [hwritten.outside p hp hsp₁ (by rwa [hsize₁]), h.fileByte hs hmem hkind hsmall]
  · obtain ⟨hsmall, hsp₁⟩ := hspared p hsp
    refine hwritten.blank p hp hsp₁ (by rwa [hsize₁]) ⟨?_, ?_⟩
    · rw [h.fileByte hs hmem hkind hsmall]
      exact hz.1
    · rw [h.bytes hsmall p, ← fileByte_inline (s := s) hkind ino]
      exact hz.1

/-- `write_data` answers the length of the buffer, and the file has the new bytes. -/
theorem writeData_writes (h : s.Sound) (hwritable : s.writable = true) (hmem : s.inodes.find? ino = some i)
    {off : ℕ} {buf : Bytes} (hne : buf ≠ []) (hstop : off + buf.length ≤ maxFileSize) :
    (writeData ino off buf).Holds s (fun n t ↦ n = buf.length ∧ ∃ i', FileWritten s ino i off buf i' t)
      (fun e _ ↦ e.IsHost) := by
  have hwf := h.wf hmem
  unfold writeData
  rw [Exec.holds_bind_of_ok (requireWrite_ok hwritable), if_neg hne, if_neg (by omega)]
  dsimp only
  rw [Exec.holds_bind_of_ok (getInode_mem hmem), Exec.holds_bind, Exec.holds_read]
  by_cases hinline : i.dataKind = .inline ∧ off + buf.length ≤ inlineMax ∧ i.extents = []
  · rw [if_pos hinline, Exec.holds_bind_of_ok (getInodeMut_mem hmem _)]
    exact ⟨rfl, _, writeInline_writes h hmem hinline.1 _ hstop⟩
  rw [if_neg hinline]
  by_cases huses : i.usesCompression = true
  · rw [if_pos huses]
    by_cases hkind : i.dataKind = .inline
    · rw [if_pos hkind]
      exact (spillInline_writes h hmem hkind hstop).bind (fun _ t ht ↦ ⟨rfl, ht⟩) (fun _ _ he ↦ he)
    · rw [if_neg hkind]
      refine (writeDataCompressed_writes h hmem huses hkind hstop).bind ?_ (fun _ _ he ↦ he)
      rintro _ t ⟨i₁, hwritten⟩
      rw [Exec.holds_bind_of_ok (getInodeMut_mem hwritten.find _)]
      exact ⟨rfl, _, hwritten.extended hne hkind hstop _⟩
  · rw [if_neg huses]
    rw [Bool.not_eq_true] at huses
    by_cases hkind : i.dataKind = .inline
    · have hlong : ¬off + buf.length ≤ inlineMax := fun hle ↦ hinline ⟨hkind, hle, hwf.inline hkind⟩
      rw [Exec.when, if_pos hkind]
      refine (promoteInline_promotes h.inv hmem hkind).bind ?_ (fun _ _ he ↦ he)
      rintro _ t ⟨i₁, hpromoted⟩
      have hsound := (hpromoted.edited h hmem hkind).sound
      have hfind := hpromoted.rewritten.find
      have huses₁ : i₁.usesCompression = false := hpromoted.recut.usesCompression.trans huses
      refine (writeDataRaw_writes hsound.inv hfind (hsound.laid ino i₁ hfind) hpromoted.recut.kind hpromoted.raw
        hstop).bind ?_ (fun _ _ he ↦ he)
      rintro _ u ⟨i₂, hwritten⟩
      rw [Exec.holds_bind_of_ok (getInodeMut_mem hwritten.rewritten.find _)]
      exact ⟨rfl, _, FileWritten.of_promoted h hmem hkind huses hlong hpromoted
        (hwritten.extended hsound hfind hpromoted.recut.kind huses₁ hstop _)⟩
    · have hraw := raw_of_uncompressed hwf huses
      rw [Exec.when, if_neg hkind, Exec.holds_bind, Exec.holds_exec_pure]
      refine (writeDataRaw_writes h.inv hmem (h.laid ino i hmem) hkind hraw hstop).bind ?_ (fun _ _ he ↦ he)
      rintro _ t ⟨i₁, hwritten⟩
      rw [Exec.holds_bind_of_ok (getInodeMut_mem hwritten.rewritten.find _)]
      exact ⟨rfl, _, hwritten.extended h hmem hkind huses hstop _⟩

end Inner

end LinuxFile
