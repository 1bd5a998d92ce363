import LinuxFile.Spec.Files
import LinuxFile.Spec.RawFiles
import LinuxFile.Theorems.Orphans

/-!
# What a write and a truncation leave alone

A file that does not compress is written block by block. A block that the file has keeps the bytes around those that
are written. A block that is taken for a hole keeps what the image held there, since nothing clears it, so the other
bytes of that block are no longer zero.
-/

namespace LinuxFile.Inner

variable {s t : Inner} {i : Inode} {ino off n : ℕ} {buf : Bytes}

/-- One write, as reading shows it: the bytes written, the bytes below the old size, and the other files. -/
structure WriteFrame (s : Inner) (ino : ℕ) (i : Inode) (off : ℕ) (buf : Bytes) (n : ℕ) (t : Inner) : Prop where
  count : n = buf.length
  size : ∃ i', t.inodes.find? ino = some i' ∧ i'.size = max i.size (off + buf.length)
  reads : t.ReadGives ino off buf.length buf
  outside : ∀ p, p < i.size → p < off ∨ off + buf.length ≤ p →
    t.ReadGives ino p 1 [s.fileByte ino i p]
  others : ∀ k, k ≠ ino → t.contents k = s.contents k

/-- One truncation: the bytes below both sizes, and the other files. -/
structure TruncateFrame (s : Inner) (ino : ℕ) (i : Inode) (n : ℕ) (t : Inner) : Prop where
  below : ∀ p, p < min n i.size → t.ReadGives ino p 1 [s.fileByte ino i p]
  others : ∀ k, k ≠ ino → t.contents k = s.contents k

theorem read_one {data : Bytes} {p : ℕ} (h : p < data.length) : PlainFile.read data p 1 = [data.getD p 0] := by
  unfold PlainFile.read
  rw [List.getD_eq_getElem _ _ h, List.drop_eq_getElem_cons h, List.take_succ_cons, List.take_zero]

/-- A file that does not compress is read byte by byte. -/
theorem Sound.readGives_byte (h : t.Sound) (hraw : RawFile ino t) {p : ℕ} (hp : p < (t.contents ino).length) :
    t.ReadGives ino p 1 [(t.contents ino).getD p 0] := by
  obtain ⟨j, hj, huses⟩ := hraw
  rw [← read_one hp]
  exact h.readGives hj (Or.inl huses) p 1

theorem writeData_frame (h : s.Sound) (hwritable : s.writable = true) (hmem : s.inodes.find? ino = some i)
    (huses : i.usesCompression = false) (hne : buf ≠ []) (hstop : off + buf.length ≤ maxFileSize)
    (hrun : writeData ino off buf s = .ok n t)
    (hspared : ∀ p, p < i.size → p < off ∨ off + buf.length ≤ p → Spared i off buf.length p) :
    WriteFrame s ino i off buf n t := by
  have hraw : RawFile ino t := (writeData_keepsRaw ino off buf).of_ok hrun ⟨i, hmem, huses⟩
  obtain ⟨hcount, i', hwritten⟩ := (writeData_writes h hwritable hmem hne hstop).of_ok hrun
  obtain ⟨j, hj, hjuses⟩ := hraw
  refine ⟨hcount, ⟨i', hwritten.find, ?_⟩, ?_, fun p hp hout ↦ ?_, fun k hk ↦ hwritten.edited.contents hk⟩
  · rw [hwritten.size, Nat.max_comm]
  · have hread := hwritten.edited.sound.readGives hj (Or.inl hjuses) off buf.length
    rwa [hwritten.inside_eq hmem] at hread
  · have hbyte := hwritten.getD_outside hmem hout (hspared p hp hout) hp
    have hlen := hwritten.length hmem
    rw [length_contents hmem] at hlen
    rw [getD_contents hmem, if_pos hp] at hbyte
    rw [← hbyte]
    exact hwritten.edited.sound.readGives_byte ⟨j, hj, hjuses⟩ (by omega)

theorem truncateData_size_le (hwritable : s.writable = true) (hrun : truncateData ino n s = .ok () t) :
    n ≤ maxFileSize := by
  by_contra hlarge
  unfold truncateData at hrun
  rw [Exec.bind_eq_of_ok (requireWrite_ok hwritable), if_pos (by omega)] at hrun
  cases hrun

theorem truncateData_frame (h : s.Sound) (hwritable : s.writable = true) (hmem : s.inodes.find? ino = some i)
    (huses : i.usesCompression = false) (hrun : truncateData ino n s = .ok () t) : TruncateFrame s ino i n t := by
  obtain ⟨i', hcut⟩ := (truncateData_cuts h hwritable hmem (truncateData_size_le hwritable hrun)).of_ok hrun
  have hraw : RawFile ino t := (truncateData_keepsRaw ino n).of_ok hrun ⟨i, hmem, huses⟩
  refine ⟨fun p hp ↦ ?_, fun k hk ↦ hcut.edited.contents hk⟩
  obtain ⟨hlow, hhigh⟩ := lt_min_iff.mp hp
  have hbyte := hcut.getD_below hmem hlow hhigh
  have hlen := hcut.length
  rw [getD_contents hmem, if_pos hhigh] at hbyte
  rw [← hbyte]
  exact hcut.edited.sound.readGives_byte hraw (by omega)

/-- In every state of a mount without host errors a write that fills every block it takes for a hole below the old
size changes nothing but its own bytes, and a truncation changes nothing below the new size. -/
theorem write_and_truncate_frame (hs : s.Reached) (hmem : s.inodes.find? ino = some i)
    (huses : i.usesCompression = false) :
    (∀ off buf n t, buf ≠ [] → off + buf.length ≤ maxFileSize → writeData ino off buf s = .ok n t →
      (∀ p, p < i.size → p < off ∨ off + buf.length ≤ p → Spared i off buf.length p) →
      WriteFrame s ino i off buf n t) ∧
    ∀ n t, truncateData ino n s = .ok () t → TruncateFrame s ino i n t := by
  constructor
  · intro off buf n t hne hstop hrun hspared
    exact writeData_frame hs.tidy.sound hs.tidy.writable hmem huses hne hstop hrun hspared
  · intro n t hrun
    exact truncateData_frame hs.tidy.sound hs.tidy.writable hmem huses hrun

/-- The file does not compress, and a write of one byte at its start returns. -/
def writeTest (s : Inner) (before : Inode → Bool) (after : Inner → Bool) : Bool :=
  (s.inodes.find? 2).any (fun i ↦ !i.usesCompression && before i) &&
    (writeData 2 0 [1] s).okAnd fun _ t ↦ after t

theorem writeTest_runs {before : Inode → Bool} {after : Inner → Bool} (h : writeTest s before after = true) :
    ∃ i n t, s.inodes.find? 2 = some i ∧ i.usesCompression = false ∧ before i = true ∧
      writeData 2 0 [1] s = .ok n t ∧ after t = true := by
  unfold writeTest at h
  rw [Bool.and_eq_true] at h
  obtain ⟨i, hi, hbefore⟩ := (Option.any_eq_true ..).mp h.1
  rw [Bool.and_eq_true, Bool.not_eq_true'] at hbefore
  obtain ⟨n, t, hrun, hafter⟩ := Outcome.exists_of_okAnd h.2
  exact ⟨i, n, t, hi, hbefore.1, hbefore.2, hrun, hafter⟩

/-- A file of one block. -/
def oneBlock : List Operation :=
  [.createChild rootIno [0x61] (sIfreg ||| 0o644) 0 0 0 Creds.root, .writeData 2 0 (List.replicate 200 1)]

theorem write_and_truncate_frame_sample : ∃ s i n t, s.Reached ∧ s.inodes.find? 2 = some i ∧
    writeData 2 0 [1] s = .ok n t ∧ WriteFrame s 2 i 0 [1] n t := by
  have hplay : (sampleCalls oneBlock).okAnd (fun calls s ↦ (calls.all fun call ↦ call.2.regular call.1) &&
      writeTest s (fun i ↦ decide (i.dataKind ≠ .inline ∧ i.size ≤ blockSize) &&
        i.extents.any fun e ↦ e.containsLogical 0) fun _ ↦ true) = true := by
    decide +kernel
  obtain ⟨-, -, s, -, -, -, hs, htest⟩ := sampleCalls_reached hplay
  obtain ⟨i, n, t, hi, huses, hbefore, hrun, -⟩ := writeTest_runs htest
  rw [Bool.and_eq_true] at hbefore
  obtain ⟨hkind, hsize⟩ := of_decide_eq_true hbefore.1
  obtain ⟨e, he, hcontains⟩ := List.any_eq_true.mp hbefore.2
  refine ⟨s, i, n, t, hs, hi, hrun,
    (write_and_truncate_frame hs hi huses).1 0 [1] n t (List.cons_ne_nil _ _) (by decide) hrun fun p hp _ ↦ ?_⟩
  unfold Spared
  rw [if_neg hkind, Nat.div_eq_of_lt (hp.trans_le hsize)]
  exact Or.inr (Or.inl fun hhole ↦
    cellAt_eq_hole_iff.mp hhole e he (Extent.containsLogical_iff.mp hcontains))

/-- A file whose first block is a hole, after it gave back two blocks with data. -/
def staleHole : List Operation :=
  oneBlock ++ [.writeData 2 blockSize (List.replicate 200 1), .truncateData 2 0, .writeData 2 blockSize [1]]

/-- A byte of the hole that was not written shows data of the block taken for it. -/
theorem write_shows_stale_byte : ∃ first calls s i n t, sampleImage = .ok () first ∧
    Exec.Runs Operation.exec first calls s ∧ calls.map Prod.snd = staleHole ∧ s.Reached ∧
    s.inodes.find? 2 = some i ∧ i.usesCompression = false ∧ writeData 2 0 [1] s = .ok n t ∧
    ¬WriteFrame s 2 i 0 [1] n t := by
  have hplay : (sampleCalls staleHole).okAnd (fun calls s ↦ (calls.all fun call ↦ call.2.regular call.1) &&
      ((readData 2 1 1 s).okAnd (fun data _ ↦ decide (data = [0])) &&
        writeTest s (fun i ↦ decide (1 < i.size)) fun t ↦
          (readData 2 1 1 t).okAnd (fun data _ ↦ decide (data = [1])))) = true := by
    decide +kernel
  obtain ⟨first, calls, s, himage, hrun, hops, hs, htest⟩ := sampleCalls_reached hplay
  rw [Bool.and_eq_true] at htest
  obtain ⟨i, n, t, hi, huses, hsize, hwrite, hafter⟩ := writeTest_runs htest.2
  obtain ⟨old, u, hold, hzero⟩ := Outcome.exists_of_okAnd htest.1
  obtain ⟨new, v, hnew, hone⟩ := Outcome.exists_of_okAnd hafter
  refine ⟨first, calls, s, i, n, t, himage, hrun, hops, hs, hi, huses, hwrite, fun hframe ↦ ?_⟩
  have hsize := of_decide_eq_true hsize
  have hbefore : old = [s.fileByte 2 i 1] := by
    rw [((readData_contents hs.tidy.sound hi 1 1).of_ok hold).1, read_one (by rwa [length_contents hi]),
      getD_contents hi, if_pos hsize]
  have hsame : new = [s.fileByte 2 i 1] := (hframe.outside 1 hsize (Or.inr (by decide))).2.of_ok hnew
  rw [← hbefore, of_decide_eq_true hzero, of_decide_eq_true hone] at hsame
  exact absurd hsame (by decide)

end LinuxFile.Inner
