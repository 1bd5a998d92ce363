import LinuxFile.Inner.Directory

/-!
# Entries written and read back

The count of a directory's entries has 32 bits. Below that number the entries of an encoded directory are
read back as they were; a directory of exactly so many reads as an empty one.
-/

namespace LinuxFile

/-- The entry fits its fields. -/
structure DirEntry.Fits (e : DirEntry) : Prop where
  ino : e.ino < 2 ^ 64
  name : e.name.length < 2 ^ 16

theorem fromDirFt_dirFt (ft : FileType) : fromDirFt (dirFt ft) = ft := by
  cases ft <;> rfl

theorem encodeEntry_length (e : DirEntry) :
    (encodeEntry e).length = 12 + e.name.length + namePad e.name.length := by
  unfold encodeEntry
  simp only [List.length_append, leBytes_length, List.length_cons, List.length_nil, List.length_replicate]

section Fields

variable {e : DirEntry} (h : e.Fits) (rest : Bytes)

include h

theorem leNat_ino : leNat ((encodeEntry e ++ rest).take 8) = e.ino := by
  unfold encodeEntry
  simp only [List.append_assoc]
  rw [List.take_left' (leBytes_length 8 e.ino), leNat_leBytes_eight, Nat.mod_eq_of_lt h.ino]

theorem leNat_nameLength : leNat (((encodeEntry e ++ rest).drop 8).take 2) = e.name.length := by
  unfold encodeEntry
  simp only [List.append_assoc]
  rw [List.drop_left' (leBytes_length 8 e.ino), List.take_left' (leBytes_length 2 e.name.length),
    leNat_leBytes_two, Nat.mod_eq_of_lt h.name]

omit h

theorem encodeEntry_type : (encodeEntry e ++ rest).getD 10 0 = dirFt e.fileType := by
  have hsplit : encodeEntry e ++ rest = (leBytes 8 e.ino ++ leBytes 2 e.name.length) ++
      ([dirFt e.fileType, 0] ++ (e.name ++ (List.replicate (namePad e.name.length) 0 ++ rest))) := by
    unfold encodeEntry
    simp only [List.append_assoc]
  have hlen : (leBytes 8 e.ino ++ leBytes 2 e.name.length).length = 10 := by
    rw [List.length_append, leBytes_length, leBytes_length]
  rw [hsplit, List.getD_append_right _ _ _ _ hlen.le, hlen]
  rfl

theorem encodeEntry_name : ((encodeEntry e ++ rest).drop 12).take e.name.length = e.name := by
  have hsplit : encodeEntry e ++ rest = (leBytes 8 e.ino ++ leBytes 2 e.name.length ++ [dirFt e.fileType, 0]) ++
      (e.name ++ (List.replicate (namePad e.name.length) 0 ++ rest)) := by
    unfold encodeEntry
    simp only [List.append_assoc]
  rw [hsplit, List.drop_left' (by simp), List.take_left' rfl]

end Fields

theorem decodeEntries_encode (entries : List DirEntry) (h : ∀ e ∈ entries, e.Fits) (rest : Bytes) :
    ∀ count, count ≤ entries.length →
      decodeEntries count (entries.flatMap encodeEntry ++ rest) = .ok (entries.take count) := by
  induction entries with
  | nil =>
    intro count hcount
    rw [Nat.le_zero.mp hcount]
    rfl
  | cons e entries ih =>
    intro count hcount
    cases count with
    | zero => rfl
    | succ count =>
      have hfits := h e List.mem_cons_self
      have hlen := encodeEntry_length e
      rw [List.flatMap_cons, List.append_assoc]
      set tail := entries.flatMap encodeEntry ++ rest with htail
      have htotal : (encodeEntry e ++ tail).length = 12 + e.name.length + namePad e.name.length + tail.length := by
        rw [List.length_append, hlen]
      have hdrop : (encodeEntry e ++ tail).drop (12 + e.name.length + namePad e.name.length) = tail :=
        List.drop_left' hlen
      unfold decodeEntries
      rw [if_neg (by omega)]
      dsimp only
      rw [leNat_nameLength hfits, if_neg (by omega), hdrop,
        ih (fun x hx ↦ h x (List.mem_cons_of_mem e hx)) count (by simpa using hcount)]
      dsimp only
      rw [leNat_ino hfits, encodeEntry_type, fromDirFt_dirFt, encodeEntry_name]
      rfl

/-- What is read back of an encoded directory. -/
theorem decodeDir_encodeDir {entries : List DirEntry} (h : ∀ e ∈ entries, e.Fits) :
    decodeDir (encodeDir entries) = .ok (entries.take (entries.length % 2 ^ 32)) := by
  have hmagic : (encodeDir entries).take 4 = dirMagic := by
    unfold encodeDir
    rw [List.append_assoc]
    exact List.take_left' rfl
  have hcount : ((encodeDir entries).drop 4).take 4 = leBytes 4 entries.length := by
    unfold encodeDir
    rw [List.append_assoc, List.drop_left' (show dirMagic.length = 4 from rfl), List.take_left' (leBytes_length 4 _)]
  have hbody : (encodeDir entries).drop 8 = entries.flatMap encodeEntry := by
    unfold encodeDir
    exact List.drop_left' (by simp [dirMagic])
  have hlen : 8 ≤ (encodeDir entries).length := by
    unfold encodeDir dirMagic
    simp only [List.length_append, leBytes_length, List.length_cons, List.length_nil]
    omega
  have hne : encodeDir entries ≠ [] := fun hnil ↦ by
    rw [hnil] at hlen
    simp at hlen
  unfold decodeDir
  rw [if_neg hne, if_neg (by rw [hmagic]; simp; omega), hcount, leNat_leBytes_four, hbody]
  have hdecode := decodeEntries_encode entries h [] (entries.length % 2 ^ 32) (Nat.mod_le _ _)
  rw [List.append_nil] at hdecode
  exact hdecode

theorem decodeEntries_fits : ∀ (count : ℕ) (rest : Bytes) {entries : List DirEntry},
    decodeEntries count rest = .ok entries → entries.length = count ∧ ∀ e ∈ entries, e.Fits
  | 0, rest, entries, h => by
    cases h
    exact ⟨rfl, fun e he ↦ by simp at he⟩
  | count + 1, rest, entries, h => by
    unfold decodeEntries at h
    split_ifs at h with hshort
    dsimp only at h
    split_ifs at h with hname
    split at h
    · cases h
    · rename_i later hlater
      cases h
      obtain ⟨hlen, hfits⟩ := decodeEntries_fits count _ hlater
      refine ⟨by rw [List.length_cons, hlen], fun e he ↦ ?_⟩
      rcases List.mem_cons.mp he with rfl | he
      · have hino := leNat_lt (rest.take 8)
        have hnlen := leNat_lt ((rest.drop 8).take 2)
        have h8 : (rest.take 8).length = 8 := by rw [List.length_take]; omega
        have h2 : ((rest.drop 8).take 2).length = 2 := by rw [List.length_take, List.length_drop]; omega
        rw [h8] at hino
        rw [h2] at hnlen
        refine ⟨hino, lt_of_le_of_lt ?_ hnlen⟩
        exact List.length_take_le _ _
      · exact hfits e he

/-- The entries of a directory that has been read fit their fields. -/
theorem decodeDir_fits {buf : Bytes} {entries : List DirEntry} (h : decodeDir buf = .ok entries) :
    entries.length < 2 ^ 32 ∧ ∀ e ∈ entries, e.Fits := by
  unfold decodeDir at h
  split_ifs at h with hempty hbad
  · cases h
    exact ⟨by simp, fun e he ↦ by simp at he⟩
  · obtain ⟨hlen, hfits⟩ := decodeEntries_fits _ _ h
    refine ⟨?_, hfits⟩
    rw [hlen]
    have hcount := leNat_lt ((buf.drop 4).take 4)
    rw [not_or] at hbad
    have h4 : ((buf.drop 4).take 4).length = 4 := by rw [List.length_take, List.length_drop]; omega
    rw [h4] at hcount
    exact hcount

/-- Writing entries back that were read takes no more bytes than they had, but for the padding of the last name. -/
theorem decodeEntries_size : ∀ (count : ℕ) (rest : Bytes) {entries : List DirEntry},
    decodeEntries count rest = .ok entries → (entries.flatMap encodeEntry).length ≤ rest.length + 3
  | 0, rest, entries, h => by
    cases h
    simp
  | count + 1, rest, entries, h => by
    unfold decodeEntries at h
    split_ifs at h with hshort
    dsimp only at h
    split_ifs at h with hname
    split at h
    · cases h
    · rename_i later hlater
      cases h
      have ih := decodeEntries_size count _ hlater
      have hlen : ((rest.drop 12).take (leNat ((rest.drop 8).take 2))).length = leNat ((rest.drop 8).take 2) := by
        rw [List.length_take, List.length_drop]
        omega
      have hpad : namePad (leNat ((rest.drop 8).take 2)) ≤ 3 := by
        unfold namePad
        omega
      have hfew : later ≠ [] → 12 ≤ (later.flatMap encodeEntry).length := by
        intro hne
        obtain ⟨e, more, rfl⟩ := List.exists_cons_of_ne_nil hne
        rw [List.flatMap_cons, List.length_append, encodeEntry_length]
        omega
      rw [List.length_drop] at ih
      rw [List.flatMap_cons, List.length_append, encodeEntry_length]
      dsimp only
      rw [hlen]
      by_cases hnil : later = []
      · rw [hnil, List.flatMap_nil, List.length_nil]
        omega
      · have := hfew hnil
        omega

theorem flatMap_eraseP_length {p : DirEntry → Bool} : ∀ {entries : List DirEntry} {e : DirEntry},
    entries.find? p = some e →
      ((entries.eraseP p).flatMap encodeEntry).length + 12 ≤ (entries.flatMap encodeEntry).length
  | x :: entries, e, h => by
    rw [List.find?_cons] at h
    split at h
    · rename_i hx
      rw [List.eraseP_cons_of_pos hx, List.flatMap_cons, List.length_append, encodeEntry_length]
      omega
    · rename_i hx
      have ih := flatMap_eraseP_length h
      rw [List.eraseP_cons_of_neg (by rw [hx]; decide), List.flatMap_cons, List.flatMap_cons, List.length_append,
        List.length_append]
      omega

/-- A directory without one of its entries takes no more room than before. -/
theorem encodeDir_eraseP_length {buf : Bytes} {entries : List DirEntry} (h : decodeDir buf = .ok entries)
    {p : DirEntry → Bool} {e : DirEntry} (he : entries.find? p = some e) :
    (encodeDir (entries.eraseP p)).length ≤ buf.length := by
  have hhead : ∀ es, (encodeDir es).length = 8 + (es.flatMap encodeEntry).length := by
    intro es
    unfold encodeDir dirMagic
    simp only [List.length_append, leBytes_length, List.length_cons, List.length_nil]
  unfold decodeDir at h
  split_ifs at h with hempty hbad
  · cases h
    cases he
  · have hsize := decodeEntries_size _ _ h
    have herase := flatMap_eraseP_length he
    rw [List.length_drop] at hsize
    rw [not_or] at hbad
    rw [hhead]
    omega

end LinuxFile
