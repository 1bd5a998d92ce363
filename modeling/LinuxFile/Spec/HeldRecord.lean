import LinuxFile.Spec.Storing

/-!
# The held record

Files that compress are read and written a record at a time, and the last record touched stays in memory. Moving
it out and another one in changes where the bytes of files are, not what they are.
-/

namespace LinuxFile

theorem getD_resizeBytes (data : Bytes) {n q : ℕ} (hq : q < n) : (resizeBytes data n).getD q 0 = data.getD q 0 := by
  unfold resizeBytes
  rw [List.getD_eq_getElem?_getD, List.getD_eq_getElem?_getD, List.getElem?_append]
  split_ifs with hin
  · rw [List.length_take] at hin
    rw [List.getElem?_take, if_pos hq]
  · rw [List.length_take] at hin ⊢
    rw [List.getElem?_replicate, List.getElem?_eq_none (by omega : data.length ≤ q)]
    split_ifs <;> rfl

theorem getD_map_range' (f : ℕ → UInt8) {start n q : ℕ} (hq : q < n) :
    ((List.range' start n).map f).getD q 0 = f (start + q) := by
  rw [List.getD_eq_getElem _ _ (by simpa using hq), List.getElem_map, List.getElem_range', Nat.one_mul]

namespace Inner

open Ledger

variable {s t u : Inner} {i i' i'' : Inode} {ino k : ℕ}

/-! ## Files that keep their bytes -/

/-- A position that is zero, in memory and in the image. -/
def Blank (s : Inner) (k : ℕ) (i : Inode) (p : ℕ) : Prop := s.fileByte k i p = 0 ∧ s.storedByte i p = 0

/-- The file has kept its bytes; only how they are stored may have changed. -/
structure SameData (s : Inner) (k : ℕ) (i : Inode) (t : Inner) (i' : Inode) : Prop where
  stowed : i' = i ∨ Stowed i i' ∧ i.usesCompression = true ∧ i.dataKind ≠ .inline
  bytes : ∀ p, p < i.size → t.fileByte k i' p = s.fileByte k i p
  blank : ∀ p, i.size ≤ p → s.Blank k i p → t.Blank k i' p

theorem SameData.size (h : SameData s k i t i') : i'.size = i.size := by
  rcases h.stowed with rfl | ⟨hstowed, -⟩
  · rfl
  · rw [hstowed.same]

theorem SameData.usesCompression (h : SameData s k i t i') : i'.usesCompression = i.usesCompression := by
  rcases h.stowed with rfl | ⟨hstowed, huses, -⟩
  · rfl
  · rw [hstowed.usesCompression huses, huses]

theorem SameData.inline_iff (h : SameData s k i t i') : i'.dataKind = .inline ↔ i.dataKind = .inline := by
  rcases h.stowed with rfl | ⟨hstowed, -, hkind⟩
  · exact Iff.rfl
  · exact ⟨fun hk ↦ absurd hk hstowed.kind, fun hk ↦ absurd hk hkind⟩

theorem SameData.refl (s : Inner) (k : ℕ) (i : Inode) : SameData s k i s i :=
  ⟨Or.inl rfl, fun _ _ ↦ rfl, fun _ _ h ↦ h⟩

theorem SameData.trans (hst : SameData s k i t i') (htu : SameData t k i' u i'') : SameData s k i u i'' where
  stowed := by
    have huses := hst.usesCompression
    have hkind := hst.inline_iff
    rcases htu.stowed with rfl | ⟨hstowed', huses', hkind'⟩
    · exact hst.stowed
    · rw [huses] at huses'
      rw [Ne, hkind] at hkind'
      rcases hst.stowed with rfl | ⟨hstowed, -⟩
      · exact Or.inr ⟨hstowed', huses', hkind'⟩
      · exact Or.inr ⟨hstowed.trans hstowed', huses', hkind'⟩
  bytes p hp := (htu.bytes p (by rwa [hst.size])).trans (hst.bytes p hp)
  blank p hp hz := htu.blank p (by rwa [hst.size]) (hst.blank p hp hz)

/-- All files have kept their bytes. -/
structure SameFiles (s t : Inner) : Prop where
  shell : SameShell s t
  none : ∀ k, s.inodes.find? k = none → t.inodes.find? k = none
  some : ∀ k i, s.inodes.find? k = some i → ∃ i', t.inodes.find? k = some i' ∧ SameData s k i t i'

theorem SameFiles.refl (s : Inner) : SameFiles s s :=
  ⟨SameShell.refl s, fun _ h ↦ h, fun k i hi ↦ ⟨i, hi, SameData.refl s k i⟩⟩

theorem SameFiles.trans (hst : SameFiles s t) (htu : SameFiles t u) : SameFiles s u where
  shell := hst.shell.trans htu.shell
  none k hk := htu.none k (hst.none k hk)
  some k i hi := by
    obtain ⟨i', hi', hdata⟩ := hst.some k i hi
    obtain ⟨i'', hi'', hdata'⟩ := htu.some k i' hi'
    exact ⟨i'', hi'', hdata.trans hdata'⟩

theorem SameFiles.recordBytes (h : SameFiles s t) : t.recordBytes = s.recordBytes := by
  unfold Inner.recordBytes
  rw [h.shell.recordBlocks]

theorem SameFiles.contents (h : SameFiles s t) (k : ℕ) : t.contents k = s.contents k := by
  cases hk : s.inodes.find? k with
  | none =>
    unfold Inner.contents
    rw [hk, h.none k hk]
  | some i =>
    obtain ⟨i', hi', hdata⟩ := h.some k i hk
    rw [contents_of_mem hk, contents_of_mem hi', hdata.size]
    apply List.map_congr_left
    intro p hp
    exact hdata.bytes p (List.mem_range.mp hp)

/-! ## Only the cache or the held record moves -/

theorem Sound.looked (h : s.Sound) (hlook : Looked s t) : t.Sound := by
  have hinodes := hlook.inodes
  have hstored : ∀ k i, s.inodes.find? k = some i → ∀ p, t.storedByte i p = s.storedByte i p :=
    fun k i hi p ↦ (h.laid k i hi).storedByte_eq (h.wf hi) (hlook.keeps _) hlook.env p
  refine ⟨?_, fun k i hi ↦ ?_, fun k i hi ↦ ?_, fun c hc ↦ ?_⟩
  · rw [hinodes]
    obtain ⟨d, rfl, hd⟩ := hlook
    exact h.inv.quiet hd
  · rw [hinodes] at hi
    exact (h.laid k i hi).keep (h.wf hi) (hlook.keeps _) hlook.env hlook.recordBlocks
  · rw [hinodes] at hi
    exact h.inline k i hi
  · rw [hlook.recordCache] at hc
    have hok := h.held c hc
    have hbytes : t.recordBytes = s.recordBytes := by
      unfold Inner.recordBytes
      rw [hlook.recordBlocks]
    refine ⟨by rw [hinodes]; exact hok.owner, by rw [hbytes]; exact hok.length, fun hclean i hi q hq hsize ↦ ?_⟩
    rw [hinodes] at hi
    rw [hbytes] at hq hsize ⊢
    rw [hok.clean hclean i hi q hq hsize, hstored _ i hi]

theorem Sound.sameFiles_looked (h : s.Sound) (hlook : Looked s t) : SameFiles s t where
  shell := by
    obtain ⟨d, rfl, -⟩ := hlook
    rfl
  none k hk := by
    rw [hlook.inodes]
    exact hk
  some k i hi := by
    have hstored : ∀ p, t.storedByte i p = s.storedByte i p :=
      fun p ↦ (h.laid k i hi).storedByte_eq (h.wf hi) (hlook.keeps _) hlook.env p
    have hbyte : ∀ p, t.fileByte k i p = s.fileByte k i p :=
      fun p ↦ fileByte_congr hlook.recordCache hlook.recordBlocks (hstored p)
    refine ⟨i, by rw [hlook.inodes]; exact hi, Or.inl rfl, fun p _ ↦ hbyte p, fun p _ hz ↦ ?_⟩
    unfold Blank
    rw [hbyte p, hstored p]
    exact hz

theorem fileByte_held {c : RecordCache} (hc : s.recordCache = some c) (hkind : i.dataKind ≠ .inline) (p : ℕ) :
    s.fileByte k i p = if c.ino = k ∧ c.record = p / s.recordBytes then c.data.getD (p % s.recordBytes) 0
      else s.storedByte i p := by
  unfold fileByte
  rw [if_neg hkind, hc]

theorem fileByte_none (hc : s.recordCache = none) (hkind : i.dataKind ≠ .inline) (p : ℕ) :
    s.fileByte k i p = s.storedByte i p := by
  unfold fileByte
  rw [if_neg hkind, hc]

/-- A clean held record may be forgotten. -/
theorem Sound.forget (h : s.Sound) (hclean : ∀ c, s.recordCache = some c → c.dirty = false) :
    Sound { s with recordCache := none } ∧ SameFiles s { s with recordCache := none } := by
  constructor
  · exact ⟨h.inv.hold none (fun _ hc ↦ by cases hc), fun k i hi ↦ (h.laid k i hi).congr rfl rfl rfl,
      h.inline, fun _ hc ↦ by cases hc⟩
  refine ⟨rfl, fun _ hk ↦ hk, fun k i hi ↦ ⟨i, hi, Or.inl rfl, fun p hp ↦ ?_, fun p _ hz ↦ ?_⟩⟩
  · by_cases hkind : i.dataKind = .inline
    · rw [fileByte_inline hkind, fileByte_inline hkind]
    cases hc : s.recordCache with
    | none => rw [fileByte_none hc hkind, fileByte_none rfl hkind]; rfl
    | some c =>
      rw [fileByte_held hc hkind, fileByte_none rfl hkind]
      split_ifs with hin
      · have hmod := Nat.mod_lt p h.records_pos
        have hdiv := Nat.div_add_mod p s.recordBytes
        rw [← hin.2, Nat.mul_comm] at hdiv
        have hok := (h.held c hc).clean (hclean c hc) i (by rw [hin.1]; exact hi) (p % s.recordBytes) hmod
          (by omega)
        rw [hok, hdiv]
        rfl
      · rfl
  · refine ⟨?_, hz.2⟩
    by_cases hkind : i.dataKind = .inline
    · rw [fileByte_inline hkind, ← fileByte_inline (s := s) hkind k]
      exact hz.1
    · rw [fileByte_none rfl hkind]
      exact hz.2

/-! ## Writing the held record back -/

theorem mod_eq_sub {p size record : ℕ} (h : p / size = record) : p % size = p - record * size := by
  have hdiv := Nat.div_add_mod p size
  rw [h, Nat.mul_comm] at hdiv
  omega

theorem RecordStored.sound {record : ℕ} {data : Bytes} (h : RecordStored s ino i record data i' t) (hs : s.Sound)
    (hnone : s.recordCache = none) : t.Sound := by
  have htnone := h.cache.trans hnone
  refine h.rewritten.sound hs (fun hk ↦ absurd hk h.stowed.kind) (fun c hc ↦ ?_) (fun c hc ↦ ?_)
  · rw [htnone] at hc
    cases hc
  · rw [htnone] at hc
    cases hc

section Written

variable {c : RecordCache} (hs : s.Sound) (hc : s.recordCache = some c) (hmem : s.inodes.find? c.ino = some i)
  (hkind : i.dataKind ≠ .inline)

include hc hkind in
theorem RecordStored.storedByte_eq
    (h : RecordStored { s with recordCache := none } c.ino i c.record c.data i' t) (p : ℕ) :
    t.storedByte i' p = s.fileByte c.ino i p := by
  rw [h.bytes p, fileByte_held hc hkind]
  change (if p / s.recordBytes = c.record then _ else s.storedByte i p) = _
  by_cases hin : p / s.recordBytes = c.record
  · rw [if_pos hin, if_pos ⟨rfl, hin.symm⟩, mod_eq_sub hin]
    rfl
  · rw [if_neg hin, if_neg fun hx ↦ hin hx.2.symm]

include hs in
theorem RecordStored.storedByte_ne
    (h : RecordStored { s with recordCache := none } c.ino i c.record c.data i' t) (hk : k ≠ c.ino) {x : Inode}
    (hx : s.inodes.find? k = some x) (p : ℕ) : t.storedByte x p = s.storedByte x p := by
  have hlaid := (hs.laid k x hx).congr (t := { s with recordCache := none }) rfl rfl rfl
  exact hlaid.storedByte_eq (hs.wf hx) (h.rewritten.others k x hk hx) h.rewritten.shell.env p

include hs hc in
theorem RecordStored.fileByte_ne
    (h : RecordStored { s with recordCache := none } c.ino i c.record c.data i' t) (hk : k ≠ c.ino) {x : Inode}
    (hx : s.inodes.find? k = some x) (p : ℕ) : t.fileByte k x p = s.fileByte k x p := by
  have htnone : t.recordCache = none := h.cache
  by_cases hxk : x.dataKind = .inline
  · rw [fileByte_inline hxk, fileByte_inline hxk]
  · rw [fileByte_none htnone hxk, fileByte_held hc hxk, if_neg fun hin ↦ hk hin.1.symm,
      RecordStored.storedByte_ne hs h hk hx p]

include hs hc hmem hkind in
/-- Storing the dirty record that was held. -/
theorem RecordStored.sameFiles (huses : i.usesCompression = true)
    (h : RecordStored { s with recordCache := none } c.ino i c.record c.data i' t) : SameFiles s t := by
  have htnone : t.recordCache = none := h.cache
  have hshell : SameShell s t := SameShell.trans (t := { s with recordCache := none }) rfl h.rewritten.shell
  refine ⟨hshell, fun k hk ↦ ?_, fun k x hx ↦ ?_⟩
  · have hne : k ≠ c.ino := by
      rintro rfl
      rw [hmem] at hk
      cases hk
    exact (h.rewritten.find_ne hne).trans hk
  by_cases hk : k = c.ino
  · subst hk
    rw [hmem] at hx
    cases hx
    have hbytes := RecordStored.storedByte_eq hc hkind h
    refine ⟨i', h.rewritten.find, Or.inr ⟨h.stowed, huses, hkind⟩, fun p _ ↦ ?_, fun p _ hz ↦ ?_⟩
    · rw [fileByte_none htnone h.stowed.kind, hbytes p]
    · unfold Blank
      rw [fileByte_none htnone h.stowed.kind, hbytes p]
      exact ⟨hz.1, hz.1⟩
  · refine ⟨x, (h.rewritten.find_ne hk).trans hx, Or.inl rfl, fun p _ ↦ h.fileByte_ne hs hc hk hx p,
      fun p _ hz ↦ ?_⟩
    unfold Blank
    rw [h.fileByte_ne hs hc hk hx p, h.storedByte_ne hs hk hx p]
    exact hz

end Written

/-- The file has kept its bytes at all positions, those past its end included. -/
def KeepsAll (s t : Inner) (k : ℕ) : Prop :=
  ∀ i i', s.inodes.find? k = some i → t.inodes.find? k = some i' → ∀ p, t.fileByte k i' p = s.fileByte k i p

/-- The record held for file `k`, if there is one, is dirty. -/
def DirtyHeld (s : Inner) (k : ℕ) : Prop := ∀ c, s.recordCache = some c → c.ino = k → c.dirty = true

/-- The state after the held record has left memory. -/
structure Emptied (s t : Inner) : Prop where
  sound : t.Sound
  none : t.recordCache = none
  same : SameFiles s t
  all : ∀ k, s.DirtyHeld k → KeepsAll s t k

theorem RecordStored.keepsAll {c : RecordCache} (hs : s.Sound) (hc : s.recordCache = some c)
    (hmem : s.inodes.find? c.ino = some i) (hkind : i.dataKind ≠ .inline)
    (h : RecordStored { s with recordCache := none } c.ino i c.record c.data i' t) : KeepsAll s t k := by
  intro x x' hx hx' p
  by_cases hk : k = c.ino
  · subst hk
    rw [hmem] at hx
    rw [h.rewritten.find] at hx'
    cases hx
    cases hx'
    rw [fileByte_none h.cache h.stowed.kind, RecordStored.storedByte_eq hc hkind h]
  · rw [h.rewritten.find_ne hk] at hx'
    have heq : x' = x := Option.some.inj (hx'.symm.trans hx)
    subst heq
    exact RecordStored.fileByte_ne hs hc h hk hx p

/-- `flush_record_cache`. -/
theorem flushRecordCache_flushes (h : s.Sound) :
    flushRecordCache.Holds s (fun _ t ↦ Emptied s t) (fun e _ ↦ e.IsHost) := by
  unfold flushRecordCache
  rw [Exec.holds_bind, Exec.holds_read]
  cases hc : s.recordCache with
  | none =>
    refine ⟨h, hc, SameFiles.refl s, fun k _ x x' hx hx' p ↦ ?_⟩
    rw [Option.some.inj (hx.symm.trans hx')]
  | some c =>
    dsimp only
    rw [Exec.holds_bind, Exec.holds_modify]
    cases hdirty : c.dirty with
    | false =>
      obtain ⟨hsound, hsame⟩ := h.forget fun c' hc' ↦ by
        rw [hc] at hc'
        cases hc'
        exact hdirty
      refine ⟨hsound, rfl, hsame, fun k hheld x x' hx hx' p ↦ ?_⟩
      have heq : x' = x := Option.some.inj (hx'.symm.trans hx)
      subst heq
      by_cases hkind : x'.dataKind = .inline
      · rw [fileByte_inline hkind, fileByte_inline hkind]
      · have hne : c.ino ≠ k := by
          intro hk
          have htrue := hheld c hc hk
          rw [hdirty] at htrue
          cases htrue
        rw [fileByte_none rfl hkind, fileByte_held hc hkind, if_neg fun hin ↦ hne hin.1]
        rfl
    | true =>
      obtain ⟨i, hmem, huses, hkind⟩ := (h.held c hc).owner
      have hrec := h.inv.numbered.record c hc
      have hinv := h.inv.hold none (fun _ hc ↦ by cases hc)
      have hlaid := (h.laid c.ino i hmem).congr (t := { s with recordCache := none }) rfl rfl rfl
      refine (storeRecord_stores (s := { s with recordCache := none }) hinv hmem hlaid hrec.index_le
        hrec.length_le).mono ?_ (fun _ _ he ↦ he)
      rintro _ t ⟨i', hstored⟩
      have hs' : Sound { s with recordCache := none } :=
        ⟨hinv, fun k x hx ↦ (h.laid k x hx).congr rfl rfl rfl, h.inline, fun _ hc ↦ by cases hc⟩
      exact ⟨hstored.sound hs' rfl, hstored.cache, RecordStored.sameFiles h hc hmem hkind huses hstored,
        fun _ _ ↦ RecordStored.keepsAll h hc hmem hkind hstored⟩

/-! ## Loading a record -/

/-- What `load_record` answers. -/
structure Loaded (s : Inner) (i : Inode) (record : ℕ) (data : Bytes) : Prop where
  length : data.length = s.recordBytes
  below : ∀ q, q < s.recordBytes → record * s.recordBytes + q < i.size →
    data.getD q 0 = s.storedByte i (record * s.recordBytes + q)
  beyond : ∀ q, q < s.recordBytes → i.size ≤ record * s.recordBytes + q →
    s.storedByte i (record * s.recordBytes + q) = 0 → data.getD q 0 = 0

theorem readDataRaw_reads (h : s.Sound) (hmem : s.inodes.find? ino = some i) (hkind : i.dataKind ≠ .inline)
    {offset count : ℕ} (hlt : offset < i.size)
    (hraw : ∀ p, offset ≤ p → p < offset + min (i.size - offset) count →
      ∀ e, cellAt i.extents (p / blockSize) ≠ .packed e) :
    (readDataRaw ino offset count).Holds s
      (fun data t ↦ data = (List.range' offset (min (i.size - offset) count)).map (s.storedByte i) ∧ Looked s t)
      (fun e _ ↦ e.IsHost) := by
  unfold readDataRaw
  rw [Exec.holds_bind_of_ok (getInode_mem hmem), if_neg (by omega), if_neg hkind]
  have htiles := Chunk.list_tiles (by decide : 0 < blockSize) offset (min (i.size - offset) count)
  refine (readChunks_spec htiles (h.wf hmem) (fun c hc ↦ ?_) s h.inv.geometry.image (h.laid ino i hmem)).mono ?_
    (fun _ _ he ↦ he)
  · obtain ⟨hpos, -, hle, hplace, hfits⟩ := htiles.mem hc
    have hdiv := (div_eq_index hfits (p := offset + c.done) (by omega) (by omega)).1
    rw [← hdiv]
    exact hraw (offset + c.done) (by omega) (by omega)
  · rintro data t ⟨rfl, hlook⟩
    exact ⟨rfl, hlook⟩

/-- A record whose first block is not compressed has no compressed block. -/
theorem Laid.not_packed (h : s.Laid i) (hclear : i.extents.Pairwise Clear) {record : ℕ}
    (hfirst : ∀ e, i.extents.find? (fun e ↦ e.containsLogical (record * s.recordBlocks)) = some e →
      ¬e.isCompressed = true) {n : ℕ} (hlow : record * s.recordBlocks ≤ n)
    (hhigh : n < record * s.recordBlocks + s.recordBlocks) (e : Extent) : cellAt i.extents n ≠ .packed e := by
  intro hcell
  obtain ⟨he, hpacked, hn⟩ := packed_of_cellAt hcell
  have halign := h.aligned record he hpacked
  obtain ⟨r, hr⟩ := h.start e he hpacked
  have hlen := h.length e he hpacked
  have hpos : 0 < s.recordBlocks := by omega
  unfold Extent.logicalEnd at hn halign
  have hlogical : e.logical = record * s.recordBlocks := by
    have hr' : n / s.recordBlocks = r := by
      rw [Nat.mul_comm] at hr
      exact (div_eq_iff_range hpos).mpr (by omega)
    have hrec : n / s.recordBlocks = record := (div_eq_iff_range hpos).mpr ⟨hlow, hhigh⟩
    rw [hr, ← hr', hrec, Nat.mul_comm]
  refine hfirst e (find?_of_mem hclear he ?_) hpacked
  unfold Extent.logicalEnd
  omega

theorem loadRecord_loads (h : s.Sound) (hmem : s.inodes.find? ino = some i) (hkind : i.dataKind ≠ .inline)
    (record : ℕ) :
    (loadRecord ino record).Holds s (fun data t ↦ Loaded s i record data ∧ Looked s t) (fun e _ ↦ e.IsHost) := by
  have hlaid := h.laid ino i hmem
  have hwf := h.wf hmem
  have hmul : record * s.recordBlocks * blockSize = record * s.recordBytes := by
    rw [Nat.mul_assoc]
    rfl
  unfold loadRecord
  rw [Exec.holds_bind, Exec.holds_get, Exec.holds_bind_of_ok (getInode_mem hmem)]
  dsimp only
  rw [hmul]
  -- the record is read block by block
  have hblocks : (∀ e, i.extents.find? (fun e ↦ e.containsLogical (record * s.recordBlocks)) = some e →
      ¬e.isCompressed = true) →
      (if record * s.recordBytes < i.size then (do
        let data ← readDataRaw ino (record * s.recordBytes) (min (i.size - record * s.recordBytes) s.recordBytes)
        pure (resizeBytes data s.recordBytes) : Fs Bytes)
      else pure (List.replicate s.recordBytes 0)).Holds s
        (fun data t ↦ Loaded s i record data ∧ Looked s t) (fun e _ ↦ e.IsHost) := by
    intro hfirst
    by_cases hsize : record * s.recordBytes < i.size
    · rw [if_pos hsize]
      refine (readDataRaw_reads h hmem hkind hsize fun p hlow hhigh ↦ ?_).bind ?_ (fun _ _ he ↦ he)
      · have hblock := block_of_record s hlow (by omega)
        exact hlaid.not_packed hwf.clear hfirst hblock.1 hblock.2
      · rintro data t ⟨rfl, hlook⟩
        refine ⟨⟨resizeBytes_length _ _, fun q hq hlt ↦ ?_, fun q hq hle _ ↦ ?_⟩, hlook⟩
        · rw [getD_resizeBytes _ hq, getD_map_range' _ (by omega)]
        · rw [getD_resizeBytes _ hq, List.getD_eq_default]
          rw [List.length_map, List.length_range']
          omega
    · rw [if_neg hsize]
      refine ⟨⟨List.length_replicate, fun q hq hlt ↦ by omega, fun q hq _ _ ↦ ?_⟩, Looked.refl s⟩
      rw [List.getD_replicate _ hq]
  cases hfind : i.extents.find? (fun e ↦ e.containsLogical (record * s.recordBlocks)) with
  | none =>
    apply hblocks
    intro e he
    rw [hfind] at he
    cases he
  | some e =>
    dsimp only
    by_cases hpacked : e.isCompressed = true
    · rw [if_pos hpacked]
      obtain ⟨he, hin⟩ := mem_of_find? hfind
      refine (readCompressedExtent_spec h.inv.geometry.image hwf hlaid he hpacked).bind ?_ (fun _ _ he ↦ he)
      rintro data t ⟨rfl, hlook⟩
      have hlogical : e.logical = record * s.recordBlocks := by
        have halign := hlaid.aligned record he hpacked
        omega
      have hbyte : ∀ q, q < s.recordBytes → (resizeBytes (s.unpacked e) s.recordBytes).getD q 0 =
          s.storedByte i (record * s.recordBytes + q) := by
        intro q hq
        have hstart : e.logical * blockSize = record * s.recordBytes := by rw [hlogical, hmul]
        rw [getD_resizeBytes _ hq, hlaid.storedByte_packed hwf.clear he hpacked (by omega), hstart,
          Nat.add_sub_cancel_left]
        rw [Nat.add_mul, hstart]
        exact Nat.add_lt_add_left hq _
      exact ⟨⟨resizeBytes_length _ _, fun q hq _ ↦ hbyte q hq, fun q hq _ hz ↦ (hbyte q hq).trans hz⟩, hlook⟩
    · rw [if_neg hpacked]
      refine hblocks fun e' he' ↦ ?_
      rw [hfind] at he'
      cases he'
      exact hpacked

/-- A record of a file that compresses may be held. -/
theorem Sound.hold (h : s.Sound) (hmem : s.inodes.find? ino = some i) (huses : i.usesCompression = true)
    (hkind : i.dataKind ≠ .inline) {record : ℕ} (hrecord : record * s.recordBlocks ≤ maxFileSize / blockSize)
    {data : Bytes} (hlen : data.length = s.recordBytes) {dirty : Bool}
    (hclean : dirty = false → ∀ q, q < s.recordBytes → record * s.recordBytes + q < i.size →
      data.getD q 0 = s.storedByte i (record * s.recordBytes + q)) :
    Sound { s with recordCache := some ⟨ino, record, data, dirty⟩ } where
  inv := by
    apply h.inv.hold
    rintro c ⟨⟩
    exact ⟨hlen.le, hrecord, fun _ ↦ ⟨i, hmem, huses, hkind⟩⟩
  laid k x hx := (h.laid k x hx).congr rfl rfl rfl
  inline := h.inline
  held := by
    rintro c ⟨⟩
    refine ⟨⟨i, hmem, huses, hkind⟩, hlen, fun hd x hx q hq hsize ↦ ?_⟩
    have heq : x = i := Option.some.inj (hx.symm.trans hmem)
    subst heq
    exact hclean hd q hq hsize

/-- The state after a record has been fetched. -/
structure RecordHeld (s : Inner) (ino record : ℕ) (data : Bytes) (t : Inner) : Prop where
  sound : t.Sound
  same : SameFiles s t
  held : ∃ dirty, t.recordCache = some ⟨ino, record, data, dirty⟩
  length : data.length = s.recordBytes
  /-- What was written past the end of the file is not lost. -/
  all : s.DirtyHeld ino → ∀ i i', s.inodes.find? ino = some i → t.inodes.find? ino = some i' → ∀ p,
    (p / s.recordBytes = record → ∃ c, s.recordCache = some c ∧ c.ino = ino ∧ c.record = record) →
    t.fileByte ino i' p = s.fileByte ino i p

theorem fileByte_hold (hkind : i.dataKind ≠ .inline) (ino record : ℕ) (data : Bytes) (dirty : Bool) (p : ℕ) :
    fileByte { s with recordCache := some ⟨ino, record, data, dirty⟩ } k i p =
      if ino = k ∧ record = p / s.recordBytes then data.getD (p % s.recordBytes) 0 else s.storedByte i p := by
  rw [fileByte_held rfl hkind p]
  rfl

/-- Holding a record that has just been loaded. -/
theorem Sound.sameFiles_load (h : s.Sound) (hnone : s.recordCache = none) (hmem : s.inodes.find? ino = some i)
    {record : ℕ} {data : Bytes} (hload : Loaded s i record data) :
    SameFiles s { s with recordCache := some ⟨ino, record, data, false⟩ } := by
  refine ⟨rfl, fun _ hk ↦ hk, fun k x hx ↦ ⟨x, hx, Or.inl rfl, fun p hp ↦ ?_, fun p hp hz ↦ ⟨?_, hz.2⟩⟩⟩
  · by_cases hkind : x.dataKind = .inline
    · rw [fileByte_inline hkind, fileByte_inline hkind]
    rw [fileByte_none hnone hkind, fileByte_hold hkind]
    split_ifs with hin
    · obtain ⟨rfl, rfl⟩ := hin
      have heq : x = i := Option.some.inj (hx.symm.trans hmem)
      subst heq
      have hdiv := Nat.div_add_mod' p s.recordBytes
      rw [hload.below _ (Nat.mod_lt p h.records_pos) (by rwa [hdiv]), hdiv]
    · rfl
  · by_cases hkind : x.dataKind = .inline
    · rw [fileByte_inline hkind, ← fileByte_inline (s := s) hkind k]
      exact hz.1
    rw [fileByte_hold hkind]
    split_ifs with hin
    · obtain ⟨rfl, rfl⟩ := hin
      have heq : x = i := Option.some.inj (hx.symm.trans hmem)
      subst heq
      have hdiv := Nat.div_add_mod' p s.recordBytes
      exact hload.beyond _ (Nat.mod_lt p h.records_pos) (by rwa [hdiv]) (by rw [hdiv]; exact hz.2)
    · exact hz.2

theorem cachedRecord_fetches (h : s.Sound) (hmem : s.inodes.find? ino = some i)
    (huses : i.usesCompression = true) (hkind : i.dataKind ≠ .inline) {record : ℕ}
    (hrecord : record * s.recordBlocks ≤ maxFileSize / blockSize) :
    (cachedRecord ino record).Holds s (fun data t ↦ RecordHeld s ino record data t) (fun e _ ↦ e.IsHost) := by
  unfold cachedRecord
  rw [Exec.holds_bind, Exec.holds_read]
  cases hfilter : s.recordCache.filter (fun c ↦ c.ino == ino && c.record == record) with
  | some c =>
    dsimp only
    obtain ⟨hc, hmatch⟩ := Option.filter_eq_some_iff.mp hfilter
    rw [Bool.and_eq_true, beq_iff_eq, beq_iff_eq] at hmatch
    obtain ⟨rfl, rfl⟩ := hmatch
    refine ⟨h, SameFiles.refl s, ⟨c.dirty, hc⟩, (h.held c hc).length, fun _ x x' hx hx' p _ ↦ ?_⟩
    rw [Option.some.inj (hx.symm.trans hx')]
  | none =>
    dsimp only
    refine (flushRecordCache_flushes h).bind ?_ (fun _ _ he ↦ he)
    intro _ t ht
    obtain ⟨i', hi', hdata⟩ := ht.same.some ino i hmem
    have huses' : i'.usesCompression = true := hdata.usesCompression.trans huses
    have hkind' : i'.dataKind ≠ .inline := fun hk ↦ hkind (hdata.inline_iff.mp hk)
    refine (loadRecord_loads ht.sound hi' hkind' record).bind ?_ (fun _ _ he ↦ he)
    rintro data u ⟨hload, hlook⟩
    have hsound := ht.sound.looked hlook
    have hsame := ht.sound.sameFiles_looked hlook
    have hi'' : u.inodes.find? ino = some i' := by rw [hlook.inodes]; exact hi'
    have hstored : ∀ p, u.storedByte i' p = t.storedByte i' p := fun p ↦
      (ht.sound.laid ino i' hi').storedByte_eq (ht.sound.wf hi') (hlook.keeps _) hlook.env p
    have hload' : Loaded u i' record data := by
      have hbytes := hsame.recordBytes
      refine ⟨by rw [hbytes]; exact hload.length, fun q hq hlt ↦ ?_, fun q hq hle hz ↦ ?_⟩
      · rw [hbytes] at hq hlt ⊢
        rw [hload.below q hq hlt, hstored]
      · rw [hbytes] at hq hle hz
        rw [hstored] at hz
        exact hload.beyond q hq hle hz
    have hnone : u.recordCache = none := hlook.recordCache.trans ht.none
    have hblocks : u.recordBlocks = s.recordBlocks := hlook.recordBlocks.trans ht.same.shell.recordBlocks
    have hplace : record * u.recordBlocks ≤ maxFileSize / blockSize := by
      rw [hblocks]
      exact hrecord
    have hheld := hsound.hold hi'' huses' hkind' hplace hload'.length (fun (_ : false = false) ↦ hload'.below)
    have htotal := (ht.same.trans hsame).trans (hsound.sameFiles_load hnone hi'' hload')
    refine ⟨hheld, htotal, ⟨false, rfl⟩, hload.length.trans ht.same.recordBytes, ?_⟩
    intro hdirty x x' hx hx' p hin
    have heq : x = i := Option.some.inj (hx.symm.trans hmem)
    have heq' : x' = i' := Option.some.inj (hx'.symm.trans hi'')
    subst heq heq'
    have hne : ¬(ino = ino ∧ record = p / u.recordBytes) := by
      rintro ⟨-, hrec⟩
      rw [hsame.recordBytes, ht.same.recordBytes] at hrec
      obtain ⟨c, hc, hcino, hcrec⟩ := hin hrec.symm
      have hsome : s.recordCache.filter (fun c ↦ c.ino == ino && c.record == record) = some c := by
        rw [Option.filter_eq_some_iff]
        exact ⟨hc, by rw [hcino, hcrec, beq_self_eq_true, beq_self_eq_true]; rfl⟩
      rw [hfilter] at hsome
      cases hsome
    rw [fileByte_hold hkind', if_neg hne, hstored, ← fileByte_none (k := ino) ht.none hkind' p]
    exact ht.all ino hdirty x x' hmem hi' p

end Inner

end LinuxFile
