import LinuxFile.Spec.HeldRecord

/-!
# Reading files

`read_data` answers the bytes of the file and leaves all files as they are.
-/

namespace LinuxFile

theorem slice_eq_map (data : Bytes) {within len : ℕ} (start : ℕ) (h : within + len ≤ data.length) :
    (data.drop within).take len = (List.range' start len).map (fun p ↦ data.getD (within + (p - start)) 0) := by
  apply List.ext_getElem
  · rw [List.length_take, List.length_drop, List.length_map, List.length_range']
    omega
  · intro q hq _
    rw [List.length_take, List.length_drop] at hq
    rw [List.getElem_take, List.getElem_drop, List.getElem_map, List.getElem_range', Nat.one_mul,
      Nat.add_sub_cancel_left, List.getD_eq_getElem _ _ (by omega)]

theorem resizeBytes_self (data : Bytes) : resizeBytes data data.length = data := by
  unfold resizeBytes
  rw [List.take_length, Nat.sub_self]
  exact List.append_nil data

namespace Inner

open Ledger

variable {s t u : Inner} {i i' i'' : Inode} {ino k : ℕ}

/-- The bytes of a record that a chunk lies in. -/
theorem div_eq_record {c : Chunk} {size p : ℕ} (hfits : c.within + c.len ≤ size)
    (hlow : c.index * size + c.within ≤ p) (hhigh : p < c.index * size + c.within + c.len) :
    p / size = c.index ∧ p % size = c.within + (p - (c.index * size + c.within)) := by
  have hdiv : p / size = c.index := by
    apply Nat.div_eq_of_lt_le
    · omega
    · rw [Nat.add_mul, Nat.one_mul]
      omega
  refine ⟨hdiv, ?_⟩
  rw [mod_eq_sub hdiv]
  omega

/-- A record that begins before the largest file ends. -/
theorem record_le {record p : ℕ} (hlow : record * s.recordBytes ≤ p) (hp : p ≤ maxFileSize) :
    record * s.recordBlocks ≤ maxFileSize / blockSize := by
  rw [Nat.le_div_iff_mul_le (by decide), Nat.mul_assoc]
  exact hlow.trans hp

theorem readRecordChunks_reads {off n done : ℕ} {chunks : List Chunk} {size : ℕ}
    (htiles : Chunk.Tiles size off n done chunks) : ∀ (s : Inner) (i : Inode), s.Sound →
    s.inodes.find? ino = some i → i.usesCompression = true → i.dataKind ≠ .inline → s.recordBytes = size →
    off + n ≤ i.size → (readRecordChunks ino chunks).Holds s
      (fun data t ↦ data = (List.range' (off + done) (n - done)).map (s.fileByte ino i) ∧ t.Sound ∧ SameFiles s t)
      (fun e _ ↦ e.IsHost) := by
  induction htiles with
  | nil =>
    intro s i h _ _ _ _ _
    rw [Nat.sub_self]
    exact ⟨rfl, h, SameFiles.refl s⟩
  | @cons c rest pos le place fits whole tail ih =>
    intro s i h hmem huses hkind hsize hin
    unfold readRecordChunks
    have hlow : c.index * s.recordBytes ≤ off + c.done := by
      rw [hsize]
      omega
    have hmax := (h.wf hmem).size_le
    refine (cachedRecord_fetches h hmem huses hkind (record_le hlow (by omega))).bind ?_ (fun _ _ he ↦ he)
    intro data t hheld
    obtain ⟨i', hi', hdata⟩ := hheld.same.some ino i hmem
    obtain ⟨dirty, hcache⟩ := hheld.held
    have hkind' : i'.dataKind ≠ .inline := fun hk ↦ hkind (hdata.inline_iff.mp hk)
    have hbytes : t.recordBytes = size := hheld.same.recordBytes.trans hsize
    refine (ih t i' hheld.sound hi' (hdata.usesCompression.trans huses) hkind' hbytes
      (by rw [hdata.size]; exact hin)).bind ?_ (fun _ _ he ↦ he)
    rintro tail u ⟨rfl, hsound, hsame⟩
    refine ⟨?_, hsound, hheld.same.trans hsame⟩
    -- the part in the held record, then the rest
    have hlen : data.length = size := hheld.length.trans hsize
    have hpart : (data.drop c.within).take c.len =
        (List.range' (off + c.done) c.len).map (s.fileByte ino i) := by
      rw [slice_eq_map data (off + c.done) (by omega)]
      apply List.map_congr_left
      intro p hp
      rw [List.mem_range'_1] at hp
      obtain ⟨hdiv, hmod⟩ := div_eq_record fits (p := p) (by omega) (by omega)
      rw [← hdata.bytes p (by omega), fileByte_held hcache hkind', hbytes, if_pos ⟨rfl, hdiv.symm⟩, hmod, place]
    have hlen' : ((data.drop c.within).take c.len).length = c.len := by
      rw [List.length_take, List.length_drop]
      omega
    have hrest : (List.range' (off + (c.done + c.len)) (n - (c.done + c.len))).map (t.fileByte ino i') =
        (List.range' (off + c.done + c.len) (n - c.done - c.len)).map (s.fileByte ino i) := by
      rw [← Nat.add_assoc, Nat.sub_add_eq]
      apply List.map_congr_left
      intro p hp
      rw [List.mem_range'_1] at hp
      exact hdata.bytes p (by omega)
    have hself : resizeBytes ((data.drop c.within).take c.len) c.len = (data.drop c.within).take c.len :=
      (congrArg (resizeBytes _) hlen'.symm).trans (resizeBytes_self _)
    rw [hself, hpart, hrest, ← List.map_append, ← range'_split (by omega)]

/-- `read_data` answers the bytes of the file. -/
theorem readData_reads (h : s.Sound) (hmem : s.inodes.find? ino = some i) (off count : ℕ) :
    (readData ino off count).Holds s
      (fun data t ↦ data = (List.range' off (min (i.size - off) count)).map (s.fileByte ino i) ∧ t.Sound ∧
        SameFiles s t) (fun e _ ↦ e.IsHost) := by
  unfold readData
  rw [Exec.holds_bind_of_ok (getInode_mem hmem)]
  by_cases hend : i.size ≤ off
  · rw [if_pos hend, Nat.sub_eq_zero_of_le hend, Nat.zero_min]
    exact ⟨rfl, h, SameFiles.refl s⟩
  rw [if_neg hend]
  dsimp only
  by_cases hzero : min (i.size - off) count = 0
  · rw [if_pos hzero, hzero]
    exact ⟨rfl, h, SameFiles.refl s⟩
  rw [if_neg hzero]
  by_cases hkind : i.dataKind = .inline
  · have hlen := h.inline ino i hmem hkind
    rw [if_pos hkind, inlineSlice, if_neg (by omega)]
    refine ⟨?_, h, SameFiles.refl s⟩
    rw [slice_eq_map i.inlineData off (by omega)]
    apply List.map_congr_left
    intro p hp
    rw [List.mem_range'_1] at hp
    rw [fileByte_inline hkind, Nat.add_sub_cancel' hp.1]
  rw [if_neg hkind]
  by_cases huses : i.usesCompression = true
  · rw [if_pos huses, Exec.holds_bind, Exec.holds_read]
    have htiles := Chunk.list_tiles h.records_pos off (min (i.size - off) count)
    refine (readRecordChunks_reads htiles s i h hmem huses hkind rfl (by omega)).mono ?_ (fun _ _ he ↦ he)
    rintro data t ⟨rfl, hsound, hsame⟩
    exact ⟨rfl, hsound, hsame⟩
  · rw [if_neg huses]
    rw [Bool.not_eq_true] at huses
    have hraw := raw_of_uncompressed (h.wf hmem) huses
    refine (readDataRaw_reads h hmem hkind (by omega) fun p _ _ e ↦ not_packed_of_raw hraw _ e).mono ?_
      (fun _ _ he ↦ he)
    rintro data t ⟨rfl, hlook⟩
    refine ⟨?_, h.looked hlook, h.sameFiles_looked hlook⟩
    apply List.map_congr_left
    intro p _
    exact (fileByte_stored hkind (h.held_ne hmem huses) p).symm

end Inner

end LinuxFile
