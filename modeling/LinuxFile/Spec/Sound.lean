import LinuxFile.Spec.Reading

/-!
# Sound states

A state is sound if every block has one owner, every file can be read, and the record held in memory belongs to
a file that compresses. In a mount that began with a new image all inodes in use are in memory. The bytes of
a file are its inline data or what its extents give, with the held record in front of them.
-/

namespace LinuxFile.Inner

open Ledger

variable {s t u : Inner} {i j : Inode} {ino : ℕ}

/-- The held record belongs to a file that compresses. A clean one agrees with what is stored. -/
structure HeldOk (s : Inner) (c : RecordCache) : Prop where
  owner : ∃ i, s.inodes.find? c.ino = some i ∧ i.usesCompression = true ∧ i.dataKind ≠ .inline
  length : c.data.length = s.recordBytes
  clean : c.dirty = false → ∀ i, s.inodes.find? c.ino = some i → ∀ q, q < s.recordBytes →
    c.record * s.recordBytes + q < i.size → c.data.getD q 0 = s.storedByte i (c.record * s.recordBytes + q)

structure Sound (s : Inner) : Prop where
  inv : s.Inv s.inodes []
  laid : ∀ k i, s.inodes.find? k = some i → s.Laid i
  inline : ∀ k i, s.inodes.find? k = some i → i.dataKind = .inline → i.inlineData.length = i.size
  held : ∀ c, s.recordCache = some c → s.HeldOk c

/-- The byte of file `k` at position `p`. -/
def fileByte (s : Inner) (k : ℕ) (i : Inode) (p : ℕ) : UInt8 :=
  if i.dataKind = .inline then i.inlineData.getD p 0
  else
    match s.recordCache with
    | none => s.storedByte i p
    | some c =>
      if c.ino = k ∧ c.record = p / s.recordBytes then c.data.getD (p % s.recordBytes) 0
      else s.storedByte i p

/-- The bytes of a file, up to its size. -/
def contents (s : Inner) (k : ℕ) : Bytes :=
  match s.inodes.find? k with
  | some i => (List.range i.size).map (s.fileByte k i)
  | none => []

theorem contents_of_mem (h : s.inodes.find? ino = some i) :
    s.contents ino = (List.range i.size).map (s.fileByte ino i) := by
  unfold contents
  rw [h]

theorem fileByte_inline (h : i.dataKind = .inline) (k p : ℕ) : s.fileByte k i p = i.inlineData.getD p 0 :=
  if_pos h

/-- A file whose record is not held has the bytes that are stored. -/
theorem fileByte_stored (h : i.dataKind ≠ .inline) (hheld : ∀ c, s.recordCache = some c → c.ino ≠ ino) (p : ℕ) :
    s.fileByte ino i p = s.storedByte i p := by
  unfold fileByte
  rw [if_neg h]
  cases hc : s.recordCache with
  | none => rfl
  | some c => exact if_neg fun hin ↦ hheld c hc hin.1

theorem fileByte_congr {k : ℕ} (hcache : t.recordCache = s.recordCache) (hrecords : t.recordBlocks = s.recordBlocks)
    {p : ℕ} (hstored : t.storedByte i p = s.storedByte i p) : t.fileByte k i p = s.fileByte k i p := by
  unfold fileByte recordBytes
  rw [hcache, hrecords, hstored]

theorem Sound.wf (h : s.Sound) {k : ℕ} (hk : s.inodes.find? k = some i) : i.Wf :=
  h.inv.numbered.shape k i hk

theorem Sound.records_pos (h : s.Sound) : 0 < s.recordBytes :=
  Nat.mul_pos h.inv.geometry.records.1 (by decide)

/-- A file that does not compress has only raw extents. -/
theorem raw_of_uncompressed (hwf : i.Wf) (hraw : i.usesCompression = false) : ∀ e ∈ i.extents, e.compress = 0 := by
  intro e he
  by_contra hne
  have hflags := ((hwf.extents e he).packed hne).2
  unfold Inode.usesCompression at hraw
  rw [Bool.or_eq_false_iff] at hraw
  simp only [bne_eq_false_iff_eq] at hraw
  exact hflags hraw.2

theorem not_packed_of_raw {extents : List Extent} (hraw : ∀ e ∈ extents, e.compress = 0) (n : ℕ) (e : Extent) :
    cellAt extents n ≠ .packed e := by
  intro hcell
  obtain ⟨he, hpacked, -⟩ := packed_of_cellAt hcell
  rw [Extent.isCompressed, hraw e he] at hpacked
  cases hpacked

theorem Sound.held_ne (h : s.Sound) (hmem : s.inodes.find? ino = some i) (hraw : i.usesCompression = false) :
    ∀ c, s.recordCache = some c → c.ino ≠ ino := by
  rintro c hc rfl
  obtain ⟨j, hj, huses, -⟩ := (h.held c hc).owner
  rw [hmem] at hj
  cases hj
  rw [hraw] at huses
  cases huses

/-! ## Rewriting one file -/

/-- The inode of one file is now `i'`; the other files keep their blocks. -/
structure Rewritten (s : Inner) (ino : ℕ) (i' : Inode) (t : Inner) : Prop where
  inodes : t.inodes = s.inodes.insert ino i'
  shell : SameShell s t
  inv : t.Inv t.inodes []
  laid : t.Laid i'
  others : ∀ k j, k ≠ ino → s.inodes.find? k = some j → KeepsBlocks (extentRanges j.extents) s t

theorem Rewritten.find (h : Rewritten s ino i t) : t.inodes.find? ino = some i := by
  rw [h.inodes]
  exact KeyMap.find?_insert_self _ _ _

theorem Rewritten.find_ne (h : Rewritten s ino i t) {k : ℕ} (hk : k ≠ ino) :
    t.inodes.find? k = s.inodes.find? k := by
  rw [h.inodes]
  exact KeyMap.find?_insert_of_ne hk

theorem Rewritten.trans (hst : Rewritten s ino i t) (htu : Rewritten t ino j u) : Rewritten s ino j u where
  inodes := by rw [htu.inodes, hst.inodes, KeyMap.insert_insert]
  shell := hst.shell.trans htu.shell
  inv := htu.inv
  laid := htu.laid
  others k x hk hx := by
    have hx' : t.inodes.find? k = some x := (hst.find_ne hk).trans hx
    exact (hst.others k x hk hx).trans (htu.others k x hk hx')

theorem Sound.rewritten_refl (h : s.Sound) (hmem : s.inodes.find? ino = some i) : Rewritten s ino i s where
  inodes := (KeyMap.insert_of_find? hmem).symm
  shell := SameShell.refl s
  inv := h.inv
  laid := h.laid ino i hmem
  others _ _ _ _ := fun _ _ _ hP ↦ hP

theorem Rewritten.recordBytes (h : Rewritten s ino i t) : t.recordBytes = s.recordBytes := by
  unfold Inner.recordBytes
  rw [h.shell.recordBlocks]

theorem Rewritten.storedByte_ne (h : Rewritten s ino i t) (hs : s.Sound) {k : ℕ} (hk : k ≠ ino)
    (hj : s.inodes.find? k = some j) (p : ℕ) : t.storedByte j p = s.storedByte j p :=
  (hs.laid k j hj).storedByte_eq (hs.wf hj) (h.others k j hk hj) h.shell.env p

theorem Rewritten.sound (h : Rewritten s ino i t) (hs : s.Sound)
    (hinline : i.dataKind = .inline → i.inlineData.length = i.size)
    (hheld : ∀ c, t.recordCache = some c → c.ino = ino → t.HeldOk c)
    (hcache : ∀ c, t.recordCache = some c → c.ino ≠ ino → s.recordCache = some c) : t.Sound where
  inv := h.inv
  laid k j hj := by
    by_cases hk : k = ino
    · rw [hk, h.find] at hj
      cases hj
      exact h.laid
    · rw [h.find_ne hk] at hj
      exact (hs.laid k j hj).keep (hs.wf hj) (h.others k j hk hj) h.shell.env h.shell.recordBlocks
  inline k j hj hkind := by
    by_cases hk : k = ino
    · rw [hk, h.find] at hj
      cases hj
      exact hinline hkind
    · rw [h.find_ne hk] at hj
      exact hs.inline k j hj hkind
  held c hc := by
    by_cases hk : c.ino = ino
    · exact hheld c hc hk
    · have hok := hs.held c (hcache c hc hk)
      refine ⟨?_, ?_, fun hclean j hj q hq hsize ↦ ?_⟩
      · rw [h.find_ne hk]
        exact hok.owner
      · rw [h.recordBytes]
        exact hok.length
      · rw [h.find_ne hk] at hj
        rw [h.recordBytes] at hq hsize ⊢
        rw [hok.clean hclean j hj q hq hsize, h.storedByte_ne hs hk hj]

end LinuxFile.Inner
