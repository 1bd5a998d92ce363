import LinuxFile.Spec.FileWrite

/-!
# Changing the size of files

`truncate_data` keeps the bytes below the new and the old size. What lies past the new size becomes zero in files
that compress and in inline files; a raw file keeps the last block it still needs as it is.
-/

namespace LinuxFile

theorem div_lt_ceilBlocks {p n : ℕ} : p / blockSize < ceilBlocks n ↔ p < ceilBlocks n * blockSize :=
  Nat.div_lt_iff_lt_mul (by decide)

namespace Inner

open Ledger

variable {s t u : Inner} {i i' i'' : Inode} {ino k : ℕ}

/-- File `ino` after its size was set to `n`. -/
structure FileCut (s : Inner) (ino : ℕ) (i : Inode) (n : ℕ) (i' : Inode) (t : Inner) : Prop where
  edited : Edited s ino t
  find : t.inodes.find? ino = some i'
  size : i'.size = n
  below : ∀ p, p < n → p < i.size → t.fileByte ino i' p = s.fileByte ino i p
  blank : ∀ p, i.size ≤ p → s.Blank ino i p → t.Blank ino i' p
  cut : ∀ p, n ≤ p → p < i.size →
    i.usesCompression = true ∨ i.dataKind = .inline ∨ ceilBlocks n * blockSize ≤ p → t.Blank ino i' p
  record : t.recordCache = none

/-- Shrinking a file and then moving its bytes. -/
theorem FileCut.trans {n : ℕ} (hn : n ≤ i.size) (hst : FileCut s ino i n i' t) (htu : FileCut t ino i' n i'' u) :
    FileCut s ino i n i'' u where
  edited := hst.edited.trans htu.edited
  find := htu.find
  size := htu.size
  below p hlt hp := (htu.below p hlt (by rwa [hst.size])).trans (hst.below p hlt hp)
  blank p hp hz := htu.blank p (by rw [hst.size]; omega) (hst.blank p hp hz)
  cut p hle hp hcase := htu.blank p (by rwa [hst.size]) (hst.cut p hle hp hcase)
  record := htu.record

/-- The held record leaves memory first. -/
theorem FileCut.of_emptied {n : ℕ} (h : Emptied s t) (hdata : SameData s ino i t i') (hcut : FileCut t ino i' n i'' u) :
    FileCut s ino i n i'' u where
  edited := (h.same.edited h.sound ino).trans hcut.edited
  find := hcut.find
  size := hcut.size
  below p hn hp := (hcut.below p hn (by rwa [hdata.size])).trans (hdata.bytes p hp)
  blank p hp hz := hcut.blank p (by rwa [hdata.size]) (hdata.blank p hp hz)
  cut p hn hp hcase := by
    refine hcut.cut p hn (by rwa [hdata.size]) ?_
    rw [hdata.usesCompression, hdata.inline_iff]
    exact hcase
  record := hcut.record

/-- A new inode over the same image that gives back some of its blocks. -/
theorem Sound.reshape (h : s.Sound) (hnone : s.recordCache = none) (hmem : s.inodes.find? ino = some i)
    (hwf : i'.Wf) (hino : i'.ino = i.ino) (freed : List (ℕ × ℕ))
    (hcover : ∀ b, cover i'.ranges b + cover freed b ≤ cover i.ranges b)
    (hpacked : ∀ e ∈ i'.extents, e.isCompressed = true → e ∈ i.extents) (hlaid : s.Laid i') :
    Rewritten s ino i' { s with
      alloc := freed.foldl (fun a r ↦ a.freeRange r.1 r.2) s.alloc
      inodes := s.inodes.insert ino i'
      dirtyInodes := s.dirtyInodes.insert ino () } where
  inodes := rfl
  shell := rfl
  inv := by
    refine h.inv.exchange hmem i' hwf hino freed [] (fun b ↦ ?_) (fun e he hp ↦ ?_) (fun c hc ↦ ?_)
    · rw [cover_nil]
      exact hcover b
    · exact h.inv.onDisk.headers ino i (h.inv.numbered.memory ino i hmem) e (hpacked e he hp) hp
    · rw [hnone] at hc
      cases hc
  laid := hlaid.congr rfl rfl rfl
  others _ _ _ _ := fun _ _ _ hP ↦ hP

theorem Rewritten.edited_of_none (h : Rewritten s ino i' t) (hs : s.Sound) (hcache : t.recordCache = s.recordCache)
    (hnone : s.recordCache = none) (hinline : i'.dataKind = .inline → i'.inlineData.length = i'.size) :
    Edited s ino t := by
  refine h.edited hs hcache hinline fun c hc ↦ ?_
  rw [hcache, hnone] at hc
  cases hc

/-- An inode whose bytes are all in it. -/
theorem FileCut.of_inline {n : ℕ} (hedited : Edited s ino t) (hfind : t.inodes.find? ino = some i')
    (hnone : t.recordCache = none) (hkind : i'.dataKind = .inline) (hsize : i'.size = n)
    (hbytes : ∀ p, p < n → p < i.size → i'.inlineData.getD p 0 = s.fileByte ino i p)
    (hgrown : ∀ p, i.size ≤ p → s.Blank ino i p → i'.inlineData.getD p 0 = 0) : FileCut s ino i n i' t := by
  have hwf := hedited.sound.wf hfind
  have hlen := hedited.sound.inline ino i' hfind hkind
  refine ⟨hedited, hfind, hsize, fun p hn hp ↦ ?_, fun p hp hz ↦ ⟨?_, ?_⟩, fun p hn hp _ ↦ ⟨?_, ?_⟩, hnone⟩
  · rw [fileByte_inline hkind]
    exact hbytes p hn hp
  · rw [fileByte_inline hkind]
    exact hgrown p hp hz
  · exact storedByte_inline hwf hkind p
  · rw [fileByte_inline hkind, List.getD_eq_default _ _ (by omega)]
  · exact storedByte_inline hwf hkind p

theorem getInodeMut_changed (ino : ℕ) (change : Inode → Inode) (s : Inner) :
    (getInodeMut ino change).Holds s (fun _ t ↦ ∃ i, t.inodes.find? ino = some (change i)) (fun _ _ ↦ True) := by
  unfold getInodeMut
  apply Exec.holds_bind_of_forall
  intro i t
  rw [Exec.holds_bind, markDirty, Exec.holds_modify, putInode, Exec.holds_modify]
  exact ⟨i, KeyMap.find?_insert_self _ _ _⟩

/-- A small file with at most one extent goes back into its inode, any other stays as it is. -/
theorem demoteInline_kind (hmem : s.inodes.find? ino = some i) (n : ℕ) (now : Timespec) :
    (demoteInline ino n now).Holds s
      (fun _ t ↦ if n ≤ inlineMax ∧ i.extents.length ≤ 1 then
        ∃ i', t.inodes.find? ino = some i' ∧ i'.dataKind = .inline else t = s) (fun _ _ ↦ True) := by
  unfold demoteInline
  rw [Exec.holds_bind_of_ok (getInode_mem hmem)]
  by_cases hsmall : n ≤ inlineMax ∧ i.extents.length ≤ 1
  · rw [if_pos hsmall]
    simp only [if_pos hsmall]
    apply Exec.holds_bind_of_forall
    intro data t
    apply Exec.holds_bind_of_forall
    intro _ u
    apply Exec.holds_bind_of_forall
    intro j v
    apply Exec.holds_bind_of_forall
    intro _ w
    refine (getInodeMut_changed ino _ w).mono (fun _ x hx ↦ ?_) (fun _ _ _ ↦ trivial)
    obtain ⟨i', hi'⟩ := hx
    exact ⟨_, hi', rfl⟩
  · rw [if_neg hsmall]
    simp only [if_neg hsmall]
    rfl

section Branches

variable (h : s.Sound) (hnone : s.recordCache = none) (hmem : s.inodes.find? ino = some i)

include h hnone hmem

theorem resizeInline_cuts (hkind : i.dataKind = .inline) (now : Timespec) {n : ℕ} (hn : n ≤ maxFileSize) :
    (getInodeMut ino (fun i ↦
      { i with inlineData := resizeBytes i.inlineData n, size := n }.touchMtime now)).Holds s
      (fun _ t ↦ ∃ i', FileCut s ino i n i' t) (fun e _ ↦ e.IsHost) := by
  have hwf := h.wf hmem
  have hlen := h.inline ino i hmem hkind
  rw [Exec.holds_iff_of_ok (getInodeMut_mem hmem _)]
  set i' := Inode.touchMtime { i with inlineData := resizeBytes i.inlineData n, size := n } now with hi'
  have hwf' : i'.Wf := ⟨fun e he ↦ (hwf.extents e he).congr id, hwf.clear, hwf.tree, hn, hwf.inline⟩
  have hrewritten := h.rewrite hmem hwf' rfl rfl rfl fun _ hk ↦ absurd hkind hk
  have hedited := hrewritten.edited_of_none h rfl hnone fun _ ↦ resizeBytes_length _ _
  refine ⟨i', FileCut.of_inline hedited hrewritten.find hnone hkind rfl (fun p hp _ ↦ ?_) (fun p hp _ ↦ ?_)⟩
  · rw [fileByte_inline hkind]
    exact getD_resizeBytes _ hp
  · change (resizeBytes i.inlineData n).getD p 0 = 0
    by_cases hpn : p < n
    · rw [getD_resizeBytes _ hpn, List.getD_eq_default _ _ (by omega)]
    · rw [List.getD_eq_default _ _ (by rw [resizeBytes_length]; omega)]

theorem growSize_cuts (hkind : i.dataKind ≠ .inline) (now : Timespec) {n : ℕ} (hn : n ≤ maxFileSize)
    (hle : i.size ≤ n) :
    (getInodeMut ino (fun i ↦ { i with size := n }.touchMtime now)).Holds s
      (fun _ t ↦ ∃ i', FileCut s ino i n i' t) (fun e _ ↦ e.IsHost) := by
  have hwf := h.wf hmem
  rw [Exec.holds_iff_of_ok (getInodeMut_mem hmem _)]
  set i' := Inode.touchMtime { i with size := n } now with hi'
  have hwf' : i'.Wf := ⟨fun e he ↦ (hwf.extents e he).congr id, hwf.clear, hwf.tree, hn, hwf.inline⟩
  have hrewritten := h.rewrite hmem hwf' rfl rfl rfl fun hu hk ↦ ⟨hu, hk⟩
  have hedited := hrewritten.edited_of_none h rfl hnone fun hk ↦ absurd hk hkind
  have hbyte : ∀ p, fileByte { s with
      inodes := s.inodes.insert ino i', dirtyInodes := s.dirtyInodes.insert ino () } ino i' p =
        s.fileByte ino i p := fun p ↦ fileByte_inode (s := s) rfl rfl rfl ino p
  refine ⟨i', hedited, hrewritten.find, rfl, fun p _ _ ↦ hbyte p, fun p _ hz ↦ ⟨(hbyte p).trans hz.1, hz.2⟩,
    fun p hge hlt ↦ by omega, hnone⟩

theorem clearCompressed_cuts (now : Timespec) :
    (clearCompressed ino i now).Holds s (fun _ t ↦ ∃ i', FileCut s ino i 0 i' t) (fun e _ ↦ e.IsHost) := by
  have hwf := h.wf hmem
  unfold clearCompressed freeRanges
  rw [Exec.holds_bind, Exec.holds_modify, Exec.holds_iff_of_ok (getInodeMut_mem (s := { s with
    alloc := (extentRanges i.extents).foldl (fun a r ↦ a.freeRange r.1 r.2) s.alloc }) hmem _)]
  set i' := Inode.touchMtime
    { i with extents := [], size := 0, blocks := 0, dataKind := .inline, inlineData := [] } now with hi'
  have hwf' : i'.Wf :=
    ⟨fun e he ↦ (List.not_mem_nil he).elim, List.Pairwise.nil, hwf.tree, Nat.zero_le _, fun _ ↦ rfl⟩
  have hrewritten := h.reshape hnone hmem hwf' rfl (extentRanges i.extents) (fun b ↦ ?_)
    (fun e he ↦ (List.not_mem_nil he).elim)
    (laid_of_raw (fun e he ↦ (List.not_mem_nil he).elim) (fun b hb ↦ (Nat.lt_irrefl 0 hb).elim))
  · have hedited := hrewritten.edited_of_none h rfl hnone fun _ ↦ rfl
    exact ⟨i', FileCut.of_inline hedited hrewritten.find hnone rfl rfl (fun p hp ↦ by omega) (fun p _ _ ↦ rfl)⟩
  · rw [cover_ranges, cover_ranges]
    change 0 + (cover i.treeRanges b + cover i.xattrRanges b) + cover (extentRanges i.extents) b ≤ _
    omega

theorem shrinkRaw_cuts (hkind : i.dataKind ≠ .inline) (huses : i.usesCompression = false) (now : Timespec) {n : ℕ}
    (hn : n ≤ maxFileSize) :
    (shrinkRaw ino n i now).Holds s (fun _ t ↦ ∃ i', FileCut s ino i n i' t) (fun e _ ↦ e.IsHost) := by
  have hwf := h.wf hmem
  have hcut := cut_of_wf hwf (raw_of_uncompressed hwf huses) (ceilBlocks n)
  unfold shrinkRaw freeRanges
  dsimp only
  rw [Exec.holds_bind, Exec.holds_modify, Exec.holds_iff_of_ok (getInodeMut_mem (s := { s with
    alloc := (i.extents.flatMap (cutFree (ceilBlocks n))).foldl (fun a r ↦ a.freeRange r.1 r.2) s.alloc }) hmem _)]
  set kept := i.extents.flatMap (cutKeep (ceilBlocks n)) with hkept
  set i' := Inode.touchMtime { i with extents := kept, size := n, blocks := sectorsOf kept } now with hi'
  have hwf' : i'.Wf :=
    ⟨fun e he ↦ (hcut.wf e he).congr id, hcut.clear, hwf.tree, hn, fun hk ↦ absurd hk hkind⟩
  have hlaid : s.Laid i' := by
    refine laid_of_raw hcut.raw fun b hb ↦ (h.laid ino i hmem).stable b ?_
    have hcover := hcut.cover b
    change 0 < cover (extentRanges kept) b at hb
    omega
  have hrewritten := h.reshape hnone hmem hwf' rfl (i.extents.flatMap (cutFree (ceilBlocks n)))
    (fun b ↦ ?_) (fun e he hp ↦ ?_) hlaid
  · have hedited := hrewritten.edited_of_none h rfl hnone fun hk ↦ absurd hk hkind
    have hstored : ∀ p, s.storedByte i' p = if p < ceilBlocks n * blockSize then s.storedByte i p else 0 := by
      intro p
      unfold storedByte
      rw [show i'.extents = kept from rfl, hcut.cell, apply_ite (s.cellByte p)]
      exact if_congr div_lt_ceilBlocks rfl rfl
    have hbyte : ∀ x : Inode, x.dataKind ≠ .inline → ∀ p, s.fileByte ino x p = s.storedByte x p :=
      fun x hx p ↦ fileByte_none hnone hx p
    have hceil := le_ceilBlocks_mul n
    refine ⟨i', hedited, hrewritten.find, rfl, fun p hlt _ ↦ ?_, fun p _ hz ↦ ?_, fun p hle _ hcase ↦ ?_, hnone⟩
    · change s.fileByte ino i' p = _
      rw [hbyte i' hkind, hbyte i hkind, hstored p, if_pos (by omega)]
    · have hzero : s.storedByte i' p = 0 := by
        rw [hstored p]
        split_ifs
        · exact hz.2
        · rfl
      exact ⟨(hbyte i' hkind p).trans hzero, hzero⟩
    · have hfar : ceilBlocks n * blockSize ≤ p :=
        (hcase.resolve_left (by rw [huses]; simp)).resolve_left hkind
      have hzero : s.storedByte i' p = 0 := by rw [hstored p, if_neg (by omega)]
      exact ⟨(hbyte i' hkind p).trans hzero, hzero⟩
  · rw [cover_ranges, cover_ranges]
    have hcover := hcut.cover b
    change cover (extentRanges kept) b + (cover i.treeRanges b + cover i.xattrRanges b) + _ ≤ _
    omega
  · rw [Extent.isCompressed, hcut.raw e he] at hp
    cases hp

/-- A small file goes back into its inode with the bytes it has. -/
theorem demoteInline_cuts (now : Timespec) {n : ℕ} (hsize : i.size = n) :
    (demoteInline ino n now).Holds s (fun _ t ↦ ∃ i', FileCut s ino i n i' t) (fun e _ ↦ e.IsHost) := by
  unfold demoteInline
  rw [Exec.holds_bind_of_ok (getInode_mem hmem)]
  by_cases hsmall : n ≤ inlineMax ∧ i.extents.length ≤ 1
  · rw [if_pos hsmall]
    refine (readData_reads h hmem 0 n).bind ?_ (fun _ _ he ↦ he)
    rintro data t ⟨rfl, hsound, hsame⟩
    refine (flushRecordCache_flushes hsound).bind ?_ (fun _ _ he ↦ he)
    intro _ u hu
    obtain ⟨i₂, hi₂, hdata⟩ := (hsame.trans hu.same).some ino i hmem
    have hwf₂ := hu.sound.wf hi₂
    rw [Exec.holds_bind_of_ok (getInode_mem hi₂)]
    unfold freeRanges
    rw [Exec.holds_bind, Exec.holds_modify, Exec.holds_iff_of_ok (getInodeMut_mem (s := { u with
      alloc := (extentRanges i₂.extents).foldl (fun a r ↦ a.freeRange r.1 r.2) u.alloc }) hi₂ _)]
    set bytes := (List.range' 0 (min (i.size - 0) n)).map (s.fileByte ino i) with hbytes
    set i' := Inode.touchMtime
      { i₂ with extents := [], dataKind := .inline, inlineData := resizeBytes bytes n, blocks := 0 } now with hi'
    have hsize' : i'.size = n := hdata.size.trans hsize
    have hwf' : i'.Wf :=
      ⟨fun e he ↦ (List.not_mem_nil he).elim, List.Pairwise.nil, hwf₂.tree, hwf₂.size_le, fun _ ↦ rfl⟩
    have hrewritten := hu.sound.reshape hu.none hi₂ hwf' rfl (extentRanges i₂.extents) (fun b ↦ ?_)
      (fun e he ↦ (List.not_mem_nil he).elim)
      (laid_of_raw (fun e he ↦ (List.not_mem_nil he).elim) (fun b hb ↦ (Nat.lt_irrefl 0 hb).elim))
    · have hedited := hrewritten.edited_of_none hu.sound rfl hu.none fun _ ↦ by
        rw [hsize']
        exact resizeBytes_length _ _
      have hread : ∀ p, p < n → (resizeBytes bytes n).getD p 0 = s.fileByte ino i p := by
        intro p hp
        rw [getD_resizeBytes _ hp, hbytes, getD_map_range' _ (by omega), Nat.zero_add]
      refine ⟨i', FileCut.of_inline (((hsame.trans hu.same).edited hu.sound ino).trans hedited) hrewritten.find hu.none
        rfl hsize' (fun p hp _ ↦ hread p hp) (fun p hp _ ↦ ?_)⟩
      exact List.getD_eq_default _ _ (by rw [show i'.inlineData = resizeBytes bytes n from rfl, resizeBytes_length]; omega)
    · rw [cover_ranges, cover_ranges]
      change 0 + (cover i₂.treeRanges b + cover i₂.xattrRanges b) + cover (extentRanges i₂.extents) b ≤ _
      omega
  · rw [if_neg hsmall]
    refine ⟨i, h.edited ino, hmem, hsize, fun _ _ _ ↦ rfl, fun _ _ hz ↦ hz, fun p hle hlt ↦ by omega, hnone⟩

omit hnone in
/-- Whole records from a block on are given back. -/
theorem punch_rewrites {record stop : ℕ} (hlt : record * s.recordBlocks < stop) (hstop : maxLogical ≤ stop) :
    Rewritten s ino (punched (record * s.recordBlocks) stop i) { s with
      alloc := (i.extents.flatMap (punchFree (record * s.recordBlocks) stop)).foldl
        (fun a r ↦ a.freeRange r.1 r.2) s.alloc
      inodes := s.inodes.insert ino (punched (record * s.recordBlocks) stop i)
      dirtyInodes := s.dirtyInodes.insert ino () } ∧
    ∀ p, s.storedByte (punched (record * s.recordBlocks) stop i) p =
      if p < record * s.recordBytes then s.storedByte i p else 0 := by
  have hwf := h.wf hmem
  have hlaid := h.laid ino i hmem
  have hpunched := punched_extents h.inv hmem hlt
  have hcell := hpunched.cell fun e he hpacked ↦ by
    have halign := hlaid.aligned record he hpacked
    have hend := (hwf.extents e he).logical_le
    omega
  have hlaid' : s.Laid (punched (record * s.recordBlocks) stop i) := by
    refine ⟨fun b hb ↦ hlaid.stable b (punched_stable h.inv hmem hlt hb),
      fun e he hp ↦ hlaid.packed e (hpunched.packed e he hp) hp,
      fun e he hp ↦ hlaid.start e (hpunched.packed e he hp) hp,
      fun e he hp ↦ hlaid.length e (hpunched.packed e he hp) hp, fun e he hp n hlow hhigh ↦ ?_⟩
    rw [hcell n, hlaid.alone e (hpunched.packed e he hp) hp n hlow hhigh, ite_self]
  refine ⟨⟨rfl, rfl, punch_inv h.inv hmem hlt, hlaid'.congr rfl rfl rfl, fun _ _ _ _ _ _ _ hP ↦ hP⟩, fun p ↦ ?_⟩
  have hdiv : p < record * s.recordBytes ↔ p / blockSize < record * s.recordBlocks := by
    rw [Nat.div_lt_iff_lt_mul (by decide), Nat.mul_assoc]
    rfl
  unfold storedByte
  rw [hcell]
  by_cases hp : p < record * s.recordBytes
  · rw [if_pos hp, if_neg]
    have := hdiv.mp hp
    omega
  · rw [if_neg hp]
    by_cases hin : record * s.recordBlocks ≤ p / blockSize ∧ p / blockSize < stop
    · rw [if_pos hin]
      rfl
    · have hhole : cellAt i.extents (p / blockSize) = .hole := by
        rw [cellAt_eq_hole_iff]
        intro e he
        have hend := (hwf.extents e he).logical_le
        rw [hdiv] at hp
        omega
      rw [if_neg hin, hhole]
      rfl

theorem shrinkCompressed_cuts (hkind : i.dataKind ≠ .inline) (now : Timespec) {n : ℕ} (hpos : 0 < n)
    (hn : n < i.size) :
    (shrinkCompressed ino n now).Holds s (fun _ t ↦ ∃ i', FileCut s ino i n i' t) (fun e _ ↦ e.IsHost) := by
  have hwf := h.wf hmem
  have hsize := hwf.size_le
  have hrec := h.records_pos
  have hrange := h.inv.geometry.records
  unfold shrinkCompressed
  rw [Exec.holds_bind, Exec.holds_get]
  dsimp only
  set last := (n - 1) / s.recordBytes with hlast
  have hmul : last * s.recordBlocks * blockSize = last * s.recordBytes := by
    rw [Nat.mul_assoc]
    rfl
  have hbounds : last * s.recordBytes ≤ n - 1 ∧ n - 1 < last * s.recordBytes + s.recordBytes :=
    (div_eq_iff_range hrec).mp hlast.symm
  have hblocks : last * s.recordBlocks ≤ maxFileSize / blockSize := record_le hbounds.1 (by omega)
  rw [hmul]
  refine (loadRecord_loads h hmem hkind last).bind ?_ (fun _ _ he ↦ he)
  rintro data t ⟨hload, hlook⟩
  have hsound := h.looked hlook
  have hfind : t.inodes.find? ino = some i := by
    rw [hlook.inodes]
    exact hmem
  have htbytes : t.recordBytes = s.recordBytes := (h.sameFiles_looked hlook).recordBytes
  have htblocks := hlook.recordBlocks
  have hplace : last * t.recordBlocks ≤ maxFileSize / blockSize := by
    rw [htblocks]
    exact hblocks
  have hlength : (data.take (n - last * s.recordBytes)).length ≤ t.recordBytes := by
    rw [List.length_take, htbytes, hload.length]
    exact Nat.min_le_right _ _
  refine (storeRecord_stores hsound.inv hfind (hsound.laid ino i hfind) hplace hlength).bind ?_ (fun _ _ he ↦ he)
  rintro _ u ⟨i₁, hstored⟩
  have htnone : t.recordCache = none := hlook.recordCache.trans hnone
  have hunone : u.recordCache = none := hstored.cache.trans htnone
  have husound := hstored.sound hsound htnone
  have hufind := hstored.rewritten.find
  have hublocks : u.recordBlocks = s.recordBlocks := hstored.rewritten.shell.recordBlocks.trans htblocks
  have hubytes : u.recordBytes = s.recordBytes := hstored.rewritten.recordBytes.trans htbytes
  -- the records after the last one
  have hstart : last * s.recordBlocks + s.recordBlocks = (last + 1) * u.recordBlocks := by
    rw [hublocks, Nat.add_mul, Nat.one_mul]
  have hlt : (last + 1) * u.recordBlocks < (2 ^ 64 - 1) / 2 := by
    rw [← hstart]
    have hmax : maxFileSize / blockSize + maxRecordBlocks < (2 ^ 64 - 1) / 2 := by decide
    omega
  obtain ⟨hpunch, hbytes⟩ := punch_rewrites husound hufind hlt (by decide)
  rw [hstart, Exec.holds_bind_of_ok (punch_eq hufind hlt)]
  set i₂ := punched ((last + 1) * u.recordBlocks) ((2 ^ 64 - 1) / 2) i₁ with hi₂
  have hkind₂ : i₂.dataKind ≠ .inline := kindOf_ne_inline _
  set v : Inner := { u with
    alloc := (i₁.extents.flatMap (punchFree ((last + 1) * u.recordBlocks) ((2 ^ 64 - 1) / 2))).foldl
      (fun a r ↦ a.freeRange r.1 r.2) u.alloc
    inodes := u.inodes.insert ino i₂
    dirtyInodes := u.dirtyInodes.insert ino () } with hv
  have hvedited : Edited u ino v := hpunch.edited_of_none husound rfl hunone fun hk ↦ absurd hk hkind₂
  have hvfind : v.inodes.find? ino = some i₂ := hpunch.find
  have hwf₂ := hvedited.sound.wf hvfind
  rw [Exec.holds_iff_of_ok (getInodeMut_mem hvfind _)]
  set i₃ := Inode.touchMtime { i₂ with size := n } now with hi₃
  have hwf₃ : i₃.Wf :=
    ⟨fun e he ↦ (hwf₂.extents e he).congr id, hwf₂.clear, hwf₂.tree, by
      change n ≤ maxFileSize
      omega, hwf₂.inline⟩
  have hfinal := hvedited.sound.rewrite hvfind hwf₃ rfl rfl rfl fun hu hk ↦ ⟨hu, hk⟩
  have hfedited := hfinal.edited_of_none hvedited.sound rfl hunone fun hk ↦ absurd hk hkind₂
  set w : Inner := { v with
    inodes := v.inodes.insert ino i₃, dirtyInodes := v.dirtyInodes.insert ino () } with hw
  have hstoredByte : ∀ p, w.storedByte i₃ p = if p < n then s.storedByte i p else 0 := by
    intro p
    change u.storedByte i₂ p = _
    rw [hbytes p, hubytes, hstored.bytes p, htbytes,
      (h.laid ino i hmem).storedByte_eq hwf (hlook.keeps _) hlook.env p]
    have hnext : (last + 1) * s.recordBytes = last * s.recordBytes + s.recordBytes := by
      rw [Nat.add_mul, Nat.one_mul]
    by_cases hp : p < (last + 1) * s.recordBytes
    · rw [if_pos hp]
      by_cases hin : p / s.recordBytes = last
      · have hlow := ((div_eq_iff_range hrec).mp hin).1
        rw [if_pos hin]
        by_cases hpn : p < n
        · rw [if_pos hpn, List.getD_eq_getElem?_getD, List.getElem?_take, if_pos (by omega),
            ← List.getD_eq_getElem?_getD, hload.below _ (by omega) (by omega), Nat.add_sub_cancel' hlow]
        · rw [if_neg hpn, List.getD_eq_default]
          rw [List.length_take]
          omega
      · have hout : ¬(last * s.recordBytes ≤ p ∧ p < last * s.recordBytes + s.recordBytes) :=
          fun hr ↦ hin ((div_eq_iff_range hrec).mpr hr)
        rw [if_neg hin, if_pos (by omega)]
    · rw [if_neg hp, if_neg (by omega)]
  have hfileByte : ∀ p, w.fileByte ino i₃ p = w.storedByte i₃ p := fun p ↦ fileByte_none (s := w) hunone hkind₂ p
  have hzero : ∀ p, n ≤ p → w.Blank ino i₃ p := by
    intro p hp
    have hz : w.storedByte i₃ p = 0 := by rw [hstoredByte p, if_neg (by omega)]
    exact ⟨(hfileByte p).trans hz, hz⟩
  have hedited : Edited s ino u := ((h.sameFiles_looked hlook).edited hsound ino).trans
    (hstored.rewritten.edited_of_none hsound hstored.cache htnone fun hk ↦ absurd hk hstored.stowed.kind)
  refine ⟨i₃, (hedited.trans hvedited).trans hfedited, hfinal.find, rfl, fun p hp _ ↦ ?_, fun p hp _ ↦ hzero p (by omega),
    fun p hp _ _ ↦ hzero p hp, hunone⟩
  rw [hfileByte p, hstoredByte p, if_pos hp, fileByte_none hnone hkind]

end Branches

/-- `truncate_data` sets the size and keeps the bytes below it. -/
theorem truncateData_cuts (h : s.Sound) (hwritable : s.writable = true) (hmem : s.inodes.find? ino = some i) {n : ℕ}
    (hn : n ≤ maxFileSize) :
    (truncateData ino n).Holds s (fun _ t ↦ ∃ i', FileCut s ino i n i' t) (fun e _ ↦ e.IsHost) := by
  unfold truncateData
  rw [Exec.holds_bind_of_ok (requireWrite_ok hwritable), if_neg (by omega)]
  refine (flushRecordCache_flushes h).bind ?_ (fun _ _ he ↦ he)
  intro _ t ht
  obtain ⟨i₁, hi₁, hdata⟩ := ht.same.some ino i hmem
  have hof : ∀ (_ : Unit) u, (∃ i', FileCut t ino i₁ n i' u) → ∃ i', FileCut s ino i n i' u :=
    fun _ _ ⟨i', hcut⟩ ↦ ⟨i', FileCut.of_emptied ht hdata hcut⟩
  rw [Exec.holds_bind_of_ok (getInode_mem hi₁), Exec.holds_bind, Exec.holds_read]
  by_cases hsame : n = i₁.size
  · rw [if_pos hsame]
    exact hof () t ⟨i₁, ht.sound.edited ino, hi₁, hsame.symm, fun _ _ _ ↦ rfl, fun _ _ hz ↦ hz,
      fun p hle hlt ↦ by omega, ht.none⟩
  rw [if_neg hsame]
  by_cases hkind : i₁.dataKind = .inline
  · rw [if_pos hkind]
    exact (resizeInline_cuts ht.sound ht.none hi₁ hkind _ hn).mono hof (fun _ _ he ↦ he)
  rw [if_neg hkind]
  by_cases hlt : n < i₁.size
  · rw [if_pos hlt]
    by_cases huses : i₁.usesCompression = true
    · rw [if_pos huses]
      by_cases hzero : n = 0
      · rw [if_pos hzero]
        subst hzero
        exact (clearCompressed_cuts ht.sound ht.none hi₁ _).mono hof (fun _ _ he ↦ he)
      · rw [if_neg hzero]
        refine (shrinkCompressed_cuts ht.sound ht.none hi₁ hkind _ (by omega) hlt).bind ?_ (fun _ _ he ↦ he)
        rintro _ u ⟨i₂, hcut⟩
        refine (demoteInline_cuts hcut.edited.sound hcut.record hcut.find _ hcut.size).mono ?_ (fun _ _ he ↦ he)
        rintro _ v ⟨i₃, hcut'⟩
        exact hof () v ⟨i₃, FileCut.trans hlt.le hcut hcut'⟩
    · rw [if_neg huses]
      rw [Bool.not_eq_true] at huses
      refine (shrinkRaw_cuts ht.sound ht.none hi₁ hkind huses _ hn).bind ?_ (fun _ _ he ↦ he)
      rintro _ u ⟨i₂, hcut⟩
      refine (demoteInline_cuts hcut.edited.sound hcut.record hcut.find _ hcut.size).mono ?_ (fun _ _ he ↦ he)
      rintro _ v ⟨i₃, hcut'⟩
      exact hof () v ⟨i₃, FileCut.trans hlt.le hcut hcut'⟩
  · rw [if_neg hlt]
    exact (growSize_cuts ht.sound ht.none hi₁ hkind _ hn (by omega)).mono hof (fun _ _ he ↦ he)

/-- A file with another algorithm for new records. -/
theorem setInodeCompression_keeps (h : s.Sound) (hwritable : s.writable = true)
    (hmem : s.inodes.find? ino = some i) (compression : Compression) :
    (setInodeCompression ino compression).Holds s
      (fun _ t ↦ Edited s ino t ∧ t.recordCache = none ∧ ∃ i', t.inodes.find? ino = some i' ∧ i'.size = i.size ∧
        i'.compression = compression.asU8 ∧ (∀ p, p < i.size → t.fileByte ino i' p = s.fileByte ino i p) ∧
        ∀ p, i.size ≤ p → s.Blank ino i p → t.Blank ino i' p)
      (fun e _ ↦ e.IsHost) := by
  unfold setInodeCompression
  rw [Exec.holds_bind_of_ok (requireWrite_ok hwritable)]
  refine (flushRecordCache_flushes h).bind ?_ (fun _ _ he ↦ he)
  intro _ t ht
  obtain ⟨i₁, hi₁, hdata⟩ := ht.same.some ino i hmem
  have hwf := ht.sound.wf hi₁
  rw [Exec.holds_bind, Exec.holds_read, Exec.holds_iff_of_ok (getInodeMut_mem hi₁ _)]
  set i' := Inode.touchCtime { i₁ with
    compression := compression.asU8
    flags := if compression.isOff then i₁.flags else i₁.flags ||| flagCompressed } t.env.now with hi'
  have hflags : i₁.flags &&& flagCompressed ≠ 0 → i'.flags &&& flagCompressed ≠ 0 := by
    intro hne
    change (if compression.isOff then i₁.flags else i₁.flags ||| flagCompressed) &&& flagCompressed ≠ 0
    split_ifs
    · exact hne
    · exact flags_set_compressed _
  have hwf' : i'.Wf := ⟨fun e he ↦ (hwf.extents e he).congr hflags, hwf.clear, hwf.tree, hwf.size_le, hwf.inline⟩
  have hlaid : t.Laid i' := by
    have hlaid := ht.sound.laid ino i₁ hi₁
    exact ⟨hlaid.stable, hlaid.packed, hlaid.start, hlaid.length, hlaid.alone⟩
  have hrewritten := ht.sound.reshape ht.none hi₁ hwf' rfl [] (fun b ↦ le_rfl)
    (fun e he _ ↦ he) hlaid
  have hedited := hrewritten.edited_of_none ht.sound rfl ht.none fun hk ↦ ht.sound.inline ino i₁ hi₁ hk
  have hbyte : ∀ p, t.fileByte ino i' p = t.fileByte ino i₁ p := fun p ↦ fileByte_inode rfl rfl rfl ino p
  refine ⟨(ht.same.edited ht.sound ino).trans hedited, ht.none, i', hrewritten.find, hdata.size, rfl, fun p hp ↦ ?_,
    fun p hp hz ↦ ?_⟩
  · exact (hbyte p).trans (hdata.bytes p hp)
  · have hz₁ := hdata.blank p hp hz
    exact ⟨(hbyte p).trans hz₁.1, hz₁.2⟩

end Inner

end LinuxFile
