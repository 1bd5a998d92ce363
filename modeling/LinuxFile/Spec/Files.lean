import LinuxFile.Library.PlainFile
import LinuxFile.Spec.FileTruncate
import LinuxFile.Spec.Remount

/-!
# Files as lists of bytes

What reading, one write and one truncation do to the bytes of a file, said of the lists `Inner.contents`.
-/

namespace LinuxFile.Inner

variable {s t : Inner} {i i' : Inode} {ino off n p : ℕ} {buf : Bytes}

theorem length_contents (hmem : s.inodes.find? ino = some i) : (s.contents ino).length = i.size := by
  rw [contents_of_mem hmem, List.length_map, List.length_range]

theorem getD_contents (hmem : s.inodes.find? ino = some i) (p : ℕ) :
    (s.contents ino).getD p 0 = if p < i.size then s.fileByte ino i p else 0 := by
  rw [contents_of_mem hmem, List.getD_eq_getElem?_getD, List.getElem?_map]
  split_ifs with h
  · rw [List.getElem?_range h]
    rfl
  · rw [List.getElem?_eq_none (by rw [List.length_range]; omega)]
    rfl

theorem read_contents (hmem : s.inodes.find? ino = some i) (off count : ℕ) :
    PlainFile.read (s.contents ino) off count =
      (List.range' off (min (i.size - off) count)).map (s.fileByte ino i) := by
  unfold PlainFile.read
  rw [contents_of_mem hmem, List.range_eq_range', ← List.map_drop, ← List.map_take, List.drop_range',
    Nat.zero_add, Nat.mul_one]
  by_cases h : i.size - off ≤ count
  · rw [List.take_range'_of_length_le h, Nat.min_eq_left h]
  · rw [List.take_range'_of_length_ge (Nat.le_of_not_le h), Nat.min_eq_right (Nat.le_of_not_le h)]

/-- Reading a file gives its bytes and changes no file. -/
theorem readData_contents (h : s.Sound) (hmem : s.inodes.find? ino = some i) (off count : ℕ) :
    (readData ino off count).Holds s
      (fun data t ↦ data = PlainFile.read (s.contents ino) off count ∧ t.Sound ∧ SameFiles s t)
      (fun e _ ↦ e.IsHost) := by
  rw [read_contents hmem]
  exact readData_reads h hmem off count

/-- Reading gives these bytes, unless the host fails. -/
def ReadGives (s : Inner) (ino off count : ℕ) (data : Bytes) : Prop :=
  readData ino off count s ≠ .panic ∧
    (readData ino off count).Holds s (fun read _ ↦ read = data) (fun e _ ↦ e.IsHost)

theorem readChunks_returns (i : Inode) : ∀ chunks, (readChunks i chunks).Returns
  | [] => .pure _
  | c :: rest => by
    rw [readChunks_cons]
    refine .bind ?_ fun part ↦ .bind (readChunks_returns i rest) fun tail ↦ .pure _
    unfold readChunk
    cases mapFileBlock i c.index with
    | some phys => exact .bind (.zoom (BlockCache.get_returns phys)) fun block ↦ .pure _
    | none => exact .pure _

/-- A read that does not go through the records cannot be cut short. -/
theorem readData_ne_panic {E : Error → Inner → Prop}
    (hget : (getInode ino).Holds s (fun i t ↦ t.inodes.find? ino = some i ∧
      (i.usesCompression = false ∨ i.dataKind = .inline) ∧ (i.dataKind = .inline → i.inlineData.length = i.size)) E)
    (off count : ℕ) : readData ino off count s ≠ .panic := by
  unfold readData
  apply Exec.bind_ne_panic_of_holds (getInode_returns ino s) hget
  rintro i t ⟨hmem, hraw, hinline⟩
  by_cases hoff : i.size ≤ off
  · rw [if_pos hoff]
    exact Exec.Returns.pure _ t
  · rw [if_neg hoff]
    by_cases hn : min (i.size - off) count = 0
    · rw [if_pos hn]
      exact Exec.Returns.pure _ t
    · rw [if_neg hn]
      by_cases hkind : i.dataKind = .inline
      · have hlen := hinline hkind
        rw [if_pos hkind]
        unfold inlineSlice
        rw [if_neg (by omega)]
        exact Exec.Returns.pure _ t
      · have huses : ¬i.usesCompression = true := by
          rw [hraw.resolve_right hkind]
          exact Bool.false_ne_true
        rw [if_neg hkind, if_neg huses]
        unfold readDataRaw
        rw [Exec.bind_eq_of_ok (getInode_mem hmem), if_neg hoff, if_neg hkind]
        exact readChunks_returns i _ t

theorem readData_returns (h : s.Sound) (hmem : s.inodes.find? ino = some i)
    (hraw : i.usesCompression = false ∨ i.dataKind = .inline) (off count : ℕ) :
    readData ino off count s ≠ .panic := by
  apply readData_ne_panic (E := fun _ _ ↦ True)
  rw [Exec.holds_iff_of_ok (getInode_mem hmem)]
  exact ⟨hmem, hraw, h.inline ino i hmem⟩

theorem Sound.readGives (h : s.Sound) (hmem : s.inodes.find? ino = some i)
    (hraw : i.usesCompression = false ∨ i.dataKind = .inline) (off count : ℕ) :
    s.ReadGives ino off count (PlainFile.read (s.contents ino) off count) :=
  ⟨readData_returns h hmem hraw off count,
    (readData_contents h hmem off count).mono (fun _ _ hread ↦ hread.1) (fun _ _ he ↦ he)⟩

/-- Nothing is stored behind the end of the file. -/
def BlankEnd (s : Inner) (ino : ℕ) (i : Inode) : Prop := ∀ p, i.size ≤ p → s.Blank ino i p

theorem SameData.blankEnd (h : SameData s ino i t i') (hblank : s.BlankEnd ino i) : t.BlankEnd ino i' := by
  intro p hp
  rw [h.size] at hp
  exact h.blank p hp (hblank p hp)

namespace FileWritten

variable (h : FileWritten s ino i off buf i' t)

include h

theorem length (hmem : s.inodes.find? ino = some i) :
    (t.contents ino).length = max (off + buf.length) (s.contents ino).length := by
  rw [length_contents h.find, length_contents hmem, h.size]

theorem getD_inside (hlow : off ≤ p) (hhigh : p < off + buf.length) :
    (t.contents ino).getD p 0 = buf.getD (p - off) 0 := by
  rw [getD_contents h.find, h.size, if_pos (by omega), h.inside p hlow hhigh]

theorem getD_outside (hmem : s.inodes.find? ino = some i) (hp : p < off ∨ off + buf.length ≤ p)
    (hspared : Spared i off buf.length p) (hlt : p < i.size) :
    (t.contents ino).getD p 0 = (s.contents ino).getD p 0 := by
  rw [getD_contents h.find, getD_contents hmem, h.size, if_pos (by omega), if_pos hlt,
    h.outside p hp hspared hlt]

theorem inside_eq (hmem : s.inodes.find? ino = some i) :
    PlainFile.read (t.contents ino) off buf.length = buf := by
  have hlen : (PlainFile.read (t.contents ino) off buf.length).length = buf.length := by
    unfold PlainFile.read
    rw [List.length_take, List.length_drop, h.length hmem]
    omega
  apply PlainFile.eq_of_getD 0 hlen
  intro q hq
  rw [hlen] at hq
  unfold PlainFile.read
  rw [PlainFile.getD_take, if_pos hq, PlainFile.getD_drop, h.getD_inside (by omega) (by omega),
    Nat.add_sub_cancel_left]

/-- A write that spares what it does not write is a write to a list. -/
theorem contents_eq (hmem : s.inodes.find? ino = some i) (hblank : s.BlankEnd ino i)
    (hspared : ∀ p, p < off ∨ off + buf.length ≤ p → Spared i off buf.length p) :
    t.contents ino = PlainFile.write 0 (s.contents ino) off buf := by
  apply PlainFile.eq_of_getD 0
  · rw [h.length hmem, PlainFile.length_write]
  · intro p hp
    rw [length_contents h.find] at hp
    rw [PlainFile.getD_write]
    split_ifs with hin
    · exact h.getD_inside hin.1 hin.2
    · have hout : p < off ∨ off + buf.length ≤ p := by omega
      by_cases hlt : p < i.size
      · exact h.getD_outside hmem hout (hspared p hout) hlt
      · have hend := h.blank p hout (hspared p hout) (by omega) (hblank p (by omega))
        rw [getD_contents h.find, if_pos hp, getD_contents hmem, if_neg hlt, hend.1]

theorem blankEnd (hblank : s.BlankEnd ino i)
    (hspared : ∀ p, p < off ∨ off + buf.length ≤ p → Spared i off buf.length p) : t.BlankEnd ino i' := by
  intro p hp
  rw [h.size] at hp
  exact h.blank p (by omega) (hspared p (by omega)) (by omega) (hblank p (by omega))

end FileWritten

namespace FileCut

variable (h : FileCut s ino i n i' t)

include h

theorem length : (t.contents ino).length = n := by
  rw [length_contents h.find, h.size]

theorem getD_below (hmem : s.inodes.find? ino = some i) (hp : p < n) (hlt : p < i.size) :
    (t.contents ino).getD p 0 = (s.contents ino).getD p 0 := by
  rw [getD_contents h.find, getD_contents hmem, h.size, if_pos hp, if_pos hlt, h.below p hp hlt]

/-- Cutting a file whose end is blank is cutting a list. -/
theorem contents_eq (hmem : s.inodes.find? ino = some i) (hblank : s.BlankEnd ino i) :
    t.contents ino = PlainFile.truncate 0 (s.contents ino) n := by
  apply PlainFile.eq_of_getD 0
  · rw [h.length, PlainFile.length_truncate]
  · intro p hp
    rw [h.length] at hp
    rw [PlainFile.getD_truncate, if_pos hp]
    by_cases hlt : p < i.size
    · exact h.getD_below hmem hp hlt
    · have hend := h.blank p (by omega) (hblank p (by omega))
      rw [getD_contents h.find, h.size, if_pos hp, getD_contents hmem, if_neg hlt, hend.1]

theorem blankEnd (hblank : s.BlankEnd ino i)
    (hcut : ∀ p, n ≤ p → p < i.size →
      i.usesCompression = true ∨ i.dataKind = .inline ∨ ceilBlocks n * blockSize ≤ p) : t.BlankEnd ino i' := by
  intro p hp
  rw [h.size] at hp
  by_cases hlt : p < i.size
  · exact h.cut p hp hlt (hcut p hp hlt)
  · exact h.blank p (by omega) (hblank p (by omega))

end FileCut

end LinuxFile.Inner
