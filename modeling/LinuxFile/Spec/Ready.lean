import LinuxFile.Spec.Answering
import LinuxFile.Spec.Queries

/-!
# Calls that return

Where the host answers, no changed record waits in memory and no count of open files is at its limit, the calls that
only look do return. What they return is what the nodes say.
-/

namespace LinuxFile

open Ledger

namespace Inner

variable {α : Type} {s t u : Inner} {i : Inode} {ino k : ℕ} {n : Node}

/-! ## Reading a file -/

theorem readDataRaw_answered (h : s.Sound) (ha : s.disk.Answering) (hmem : s.inodes.find? ino = some i)
    (hkind : i.dataKind ≠ .inline) {offset count : ℕ} (hlt : offset < i.size)
    (hraw : ∀ p, offset ≤ p → p < offset + min (i.size - offset) count →
      ∀ e, cellAt i.extents (p / blockSize) ≠ .packed e) : Answered (readDataRaw ino offset count) s := by
  have hget : Answered (getInode ino) s := Exec.meets_of_ok (getInode_mem hmem) (.refl ha)
  unfold readDataRaw
  refine hget.bind fun i' t hrun _ ↦ ?_
  rw [getInode_mem hmem] at hrun
  cases hrun
  rw [if_neg (by omega)]
  dsimp only
  rw [if_neg hkind]
  have htiles := Chunk.list_tiles (by decide : 0 < blockSize) offset (min (i.size - offset) count)
  refine readChunks_answered _ s ha fun c hc phys hmap ↦ ?_
  obtain ⟨hpos, -, hle, hplace, hfits⟩ := htiles.mem hc
  have hdiv := (div_eq_index hfits (p := offset + c.done) (by omega) (by omega)).1
  have hcell := mapExtents_of_cellAt (hraw (offset + c.done) (by omega) (by omega))
  rw [hdiv, hmap] at hcell
  have hcover := cover_of_raw (h.wf hmem) hcell
  exact (h.inv.inside hmem).extents hcover

theorem loadRecord_answered (h : s.Sound) (ha : s.disk.Answering) (hmem : s.inodes.find? ino = some i)
    (hkind : i.dataKind ≠ .inline) (record : ℕ) : Answered (loadRecord ino record) s := by
  have hwf := h.wf hmem
  have hmul : record * s.recordBlocks * blockSize = record * s.recordBytes := by
    rw [Nat.mul_assoc]
    rfl
  have hget : Answered (getInode ino) s := Exec.meets_of_ok (getInode_mem hmem) (.refl ha)
  -- the record is read block by block
  have hblocks : (∀ e, i.extents.find? (fun e ↦ e.containsLogical (record * s.recordBlocks)) = some e →
      ¬e.isCompressed = true) →
      Answered (if record * s.recordBytes < i.size then (do
        let data ← readDataRaw ino (record * s.recordBytes) (min (i.size - record * s.recordBytes) s.recordBytes)
        pure (resizeBytes data s.recordBytes) : Fs Bytes)
      else pure (List.replicate s.recordBytes 0)) s := by
    intro hfirst
    split_ifs with hsize
    · refine (readDataRaw_answered h ha hmem hkind hsize fun p hlow hhigh ↦ ?_).bind fun _ t _ ht ↦
        .pure ht.answering _
      have hblock := block_of_record s hlow (by omega)
      exact (h.laid ino i hmem).not_packed hwf.clear hfirst hblock.1 hblock.2
    · exact .pure ha _
  unfold loadRecord
  refine Answered.bind (Served.refl ha : Answered Exec.get s) fun s' v hrun _ ↦ ?_
  cases hrun
  refine hget.bind fun i' t hrun _ ↦ ?_
  rw [getInode_mem hmem] at hrun
  cases hrun
  dsimp only
  rw [hmul]
  cases hfind : i.extents.find? (fun e ↦ e.containsLogical (record * s.recordBlocks)) with
  | none => exact hblocks fun e he ↦ by rw [hfind] at he; cases he
  | some e =>
    dsimp only
    by_cases hpacked : e.isCompressed = true
    · rw [if_pos hpacked]
      obtain ⟨he, -⟩ := mem_of_find? hfind
      refine (readCompressedExtent_answered ha fun b hlow hhigh ↦ ?_).bind fun _ t _ ht ↦ .pure ht.answering _
      have hcover := cover_of_packed hwf he hpacked hlow hhigh
      exact (h.inv.inside hmem).extents hcover
    · rw [if_neg hpacked]
      refine hblocks fun e' he' ↦ ?_
      rw [hfind] at he'
      cases he'
      exact hpacked

/-- Another record in memory that need not be stored. -/
theorem Served.hold (h : s.disk.Answering) (held : Option RecordCache) (hclean : ∀ c, held = some c → c.dirty = false) :
    Served s { s with recordCache := held } := ⟨h.served, fun _ ↦ hclean, fun _ _ hi ↦ hi, rfl⟩

theorem flushRecordCache_answered (ha : s.disk.Answering) (hclean : s.NothingHeld) : Answered flushRecordCache s := by
  unfold flushRecordCache
  refine Answered.bind (Served.refl ha : Answered (Exec.read (·.recordCache)) s) fun held v hrun _ ↦ ?_
  cases hrun
  dsimp only
  cases hheld : s.recordCache with
  | none => exact .pure ha ()
  | some c =>
    have hout : Served s { s with recordCache := none } := .hold ha none fun _ hc ↦ by cases hc
    refine Answered.bind (show Answered (Exec.modify fun s ↦ { s with recordCache := none }) s from hout)
      fun _ v _ hv ↦ ?_
    rw [if_neg (by rw [hclean c hheld]; decide)]
    exact .pure hv.answering ()

theorem cachedRecord_answered (h : s.Sound) (ha : s.disk.Answering) (hclean : s.NothingHeld)
    (hmem : s.inodes.find? ino = some i) (hkind : i.dataKind ≠ .inline) (record : ℕ) :
    Answered (cachedRecord ino record) s := by
  unfold cachedRecord
  refine Answered.bind (Served.refl ha : Answered (Exec.read (·.recordCache)) s) fun held v hrun _ ↦ ?_
  cases hrun
  cases s.recordCache.filter (fun c ↦ c.ino == ino && c.record == record) with
  | some c => exact .pure ha _
  | none =>
    refine (flushRecordCache_answered ha hclean).bind fun _ t hrun ht ↦ ?_
    have hsound := ((flushRecordCache_flushes h).of_ok hrun).sound
    refine (loadRecord_answered hsound ht.answering (ht.inodes ino i hmem) hkind record).bind fun data u _ hu ↦ ?_
    have hheld : Served u { u with recordCache := some ⟨ino, record, data, false⟩ } :=
      .hold hu.answering _ fun c hc ↦ by cases hc; rfl
    exact Answered.bind (show Answered (Exec.modify _) u from hheld) fun _ w _ hw ↦ .pure hw.answering _

theorem readRecordChunks_answered {off n done : ℕ} {chunks : List Chunk} {size : ℕ}
    (htiles : Chunk.Tiles size off n done chunks) : ∀ s : Inner, s.Sound → s.disk.Answering → s.NothingHeld →
    s.inodes.find? ino = some i → i.usesCompression = true → i.dataKind ≠ .inline → s.recordBytes = size →
    off + n ≤ i.size → Answered (readRecordChunks ino chunks) s := by
  induction htiles with
  | nil => exact fun s _ ha _ _ _ _ _ _ ↦ .pure ha _
  | @cons c rest pos le place fits whole tail ih =>
    intro s h ha hclean hmem huses hkind hsize hin
    have hlow : c.index * s.recordBytes ≤ off + c.done := by
      rw [hsize]
      omega
    have hmax := (h.wf hmem).size_le
    unfold readRecordChunks
    refine (cachedRecord_answered h ha hclean hmem hkind c.index).bind fun data t hrun ht ↦ ?_
    have hheld := (cachedRecord_fetches h hmem huses hkind (record_le hlow (by omega))).of_ok hrun
    refine (ih t hheld.sound ht.answering (ht.held hclean) (ht.inodes ino i hmem) huses hkind
      (hheld.same.recordBytes.trans hsize) hin).bind fun tail u _ hu ↦ .pure hu.answering _

theorem readData_answered (h : s.Sound) (ha : s.disk.Answering) (hclean : s.NothingHeld)
    (hmem : s.inodes.find? ino = some i) (off count : ℕ) : Answered (readData ino off count) s := by
  have hget : Answered (getInode ino) s := Exec.meets_of_ok (getInode_mem hmem) (.refl ha)
  unfold readData
  refine hget.bind fun i' t hrun _ ↦ ?_
  rw [getInode_mem hmem] at hrun
  cases hrun
  dsimp only
  split_ifs with hend hzero hkind huses
  · exact .pure ha _
  · exact .pure ha _
  · have hlen := h.inline ino i hmem hkind
    unfold inlineSlice
    rw [if_neg (by omega)]
    exact .pure ha _
  · refine Answered.bind (Served.refl ha : Answered (Exec.read recordBytes) s) fun size v hrun _ ↦ ?_
    cases hrun
    exact readRecordChunks_answered (Chunk.list_tiles h.records_pos off (min (i.size - off) count)) s h ha hclean hmem
      huses hkind rfl (by omega)
  · have hraw := raw_of_uncompressed (h.wf hmem) (Bool.eq_false_iff.mpr huses)
    exact readDataRaw_answered h ha hmem hkind (by omega) fun p _ _ e ↦ not_packed_of_raw hraw _ e

/-! ## Reading an inode -/

theorem Inv.slot_inside {live : KeyMap Inode} {hand : List (ℕ × ℕ)} (h : s.Inv live hand) {phys off : ℕ}
    (hmap : mapInodeSlot s.sb k = .ok (phys, off)) : phys * blockSize + blockSize ≤ s.image.len := by
  have hcover := cover_table_of_slot hmap
  apply h.mul_le_len
  unfold load
  omega

/-- A slot without an inode is found to have none. -/
theorem readInodeRaw_answered (ha : s.disk.Answering) (hok : s.image.Ok) (hvacant : s.Vacant k)
    (hin : ∀ phys off, mapInodeSlot s.sb k = .ok (phys, off) → phys * blockSize + blockSize ≤ s.image.len) :
    Answered (readInodeRaw k) s := by
  unfold readInodeRaw
  refine Answered.bind (Served.refl ha : Answered (Exec.read (·.sb)) s) fun sb v hrun _ ↦ ?_
  cases hrun
  split_ifs with hbound
  · exact .pure ha none
  have hslot : s.SlotAll k (Unused k) := (hvacant.resolve_left fun h ↦ hbound (Or.inl h)).resolve_left
    fun h ↦ hbound (Or.inr h)
  obtain ⟨phys, off, hmap, hcopies⟩ := hslot
  rw [hmap]
  change Answered (onCache (BlockCache.get phys) >>= _) s
  refine (Answered.get ha (hin phys off hmap)).bind fun block t hrun ht ↦ ?_
  obtain ⟨rfl, -⟩ := (get_looked phys hok).of_ok hrun
  have hunused := hcopies.view
  dsimp only
  split_ifs with hempty
  · exact .pure ht.answering none
  · rcases hunused with hzero | hmode | ⟨e, herr⟩
    · exact absurd (Or.inl hzero) hempty
    · exact absurd (Or.inr hmode) hempty
    · rw [herr]
      exact .pure ht.answering none

/-- The inode under a number that was given out, or none. -/
theorem Sound.getInode_answered (h : s.Sound) (ha : s.disk.Answering) (hk : k < s.sb.nextInode) :
    Answered (getInode k) s := by
  cases hi : s.inodes.find? k with
  | some i => exact Exec.meets_of_ok (getInode_mem hi) (.refl ha)
  | none =>
    have hvacant : s.Vacant k := by
      rcases Nat.eq_zero_or_pos k with hzero | hpos
      · exact Or.inl hzero
      · refine Or.inr (Or.inr ((h.inv.onDisk.dead k hpos hk hi).mono fun raw hraw ↦ ?_))
        rw [hraw]
        exact zero_unused k
    unfold getInode
    refine Answered.bind (Served.refl ha : Answered (Exec.read fun s ↦ s.inodes.find? k) s) fun hit v hrun _ ↦ ?_
    cases hrun
    dsimp only
    rw [hi]
    unfold loadInode
    refine (readInodeRaw_answered ha h.inv.geometry.image hvacant fun _ _ hmap ↦ h.inv.slot_inside hmap).bind
      fun found t hrun ht ↦ ?_
    obtain ⟨rfl, -⟩ := (readInodeRaw_vacant h.inv.geometry.image hvacant).of_ok hrun
    exact Answered.bind (Answered.throw ht.answering id) fun _ _ hrun _ ↦ by cases hrun

/-! ## Opening and closing -/

/-- The host answers, the record in memory has no changes, and every file can be opened once more; the file `opened`
already has been. -/
structure Ready (opened : Option ℕ) (s : Inner) : Prop where
  answering : s.disk.Answering
  held : s.NothingHeld
  room : ∀ k c, s.openCount.find? k = some c → c + 1 < u32Limit ∨ opened = some k ∧ c < u32Limit

/-- A decidable form of `Ready`, where no file has been opened. -/
def ready (s : Inner) : Bool :=
  s.disk.answers && s.recordCache.all (fun c ↦ !c.dirty) &&
    s.openCount.entries.all fun e ↦ decide (e.2 + 1 < u32Limit)

theorem Ready.of_test (h : s.ready = true) : s.Ready none := by
  unfold ready at h
  rw [Bool.and_eq_true, Bool.and_eq_true] at h
  obtain ⟨⟨hanswers, hheld⟩, hroom⟩ := h
  refine ⟨.of_test hanswers, fun c hc ↦ ?_, fun k c hc ↦ Or.inl ?_⟩
  · rw [hc, Option.all_some, Bool.not_eq_true'] at hheld
    exact hheld
  · exact of_decide_eq_true (List.all_eq_true.mp hroom (k, c) (KeyMap.find?_eq_some_iff.mp hc))

theorem Ready.served {o : Option ℕ} (h : s.Ready o) (ht : Served s t) : t.Ready o := by
  refine ⟨ht.answering, ht.held h.held, fun k c hc ↦ h.room k c ?_⟩
  rw [← ht.counts]
  exact hc

theorem Ready.incOpen (h : s.Ready none) (k : ℕ) :
    (Inner.incOpen k).Meets s (fun _ t ↦ Counted s t ∧ t.Ready (some k)) (fun _ _ ↦ False) False := by
  have hroom : ∀ j c, s.openCount.find? j = some c → c + 1 < u32Limit := fun j c hc ↦
    (h.room j c hc).resolve_right fun hf ↦ by cases hf.1
  have hcount : (s.openCount.find? k).getD 0 + 1 < u32Limit := by
    cases hc : s.openCount.find? k with
    | none => decide
    | some c => exact hroom k c hc
  unfold Inner.incOpen addU32
  rw [Exec.meets_bind, Exec.meets_read, if_neg (not_le.mpr hcount), pure_bind, Exec.meets_modify]
  refine ⟨rfl, h.answering, h.held, fun j c hc ↦ ?_⟩
  by_cases hj : j = k
  · rw [hj, KeyMap.find?_insert_self] at hc
    cases hc
    exact Or.inr ⟨by rw [hj], hcount⟩
  · rw [KeyMap.find?_insert_of_ne hj] at hc
    exact Or.inl (hroom j c hc)

theorem Ready.decOpen (h : s.Ready (some k))
    (hnamed : s.orphans.contains k = true → ∃ i, s.inodes.find? k = some i ∧ i.nlink ≠ 0) :
    (Inner.decOpen k).Meets s (fun _ t ↦ Counted s t ∧ t.Ready none) (fun _ _ ↦ False) False := by
  have hother : ∀ j c, j ≠ k → s.openCount.find? j = some c → c + 1 < u32Limit := fun j c hj hc ↦
    (h.room j c hc).resolve_right fun hf ↦ hj (Option.some.inj hf.1).symm
  unfold Inner.decOpen
  rw [Exec.meets_bind, Exec.meets_get]
  cases hcount : s.openCount.find? k with
  | none =>
    refine ⟨rfl, h.answering, h.held, fun j c hc ↦ Or.inl (hother j c ?_ hc)⟩
    rintro rfl
    rw [hcount] at hc
    cases hc
  | some count =>
    have hlt : count < u32Limit := (h.room k count hcount).elim (fun hlt ↦ by omega) And.right
    have hlimit : 1 < u32Limit := by decide
    have hdown : (count - 1) + 1 < u32Limit ∨ count - 1 = 0 := by omega
    have herased : ∀ orphans : KeyMap Unit,
        Ready none { s with openCount := s.openCount.erase k, orphans := orphans } := by
      refine fun orphans ↦ ⟨h.answering, h.held, fun j c hc ↦ Or.inl ?_⟩
      by_cases hj : j = k
      · rw [hj, KeyMap.find?_erase_self] at hc
        cases hc
      · rw [KeyMap.find?_erase_of_ne hj] at hc
        exact hother j c hj hc
    dsimp only
    split_ifs with hlast horphan
    · refine ⟨rfl, h.answering, h.held, fun j c hc ↦ Or.inl ?_⟩
      by_cases hj : j = k
      · rw [hj, KeyMap.find?_insert_self] at hc
        cases hc
        omega
      · rw [KeyMap.find?_insert_of_ne hj] at hc
        exact hother j c hj hc
    · obtain ⟨i, hi, hlinks⟩ := hnamed horphan
      set v : Inner := { s with openCount := s.openCount.erase k, orphans := s.orphans.erase k } with hv
      have hget : Exec.attempt (Inner.getInode k) v = .ok (.ok i) v := by
        unfold Exec.attempt
        rw [getInode_mem (s := v) hi]
      rw [Exec.meets_bind, Exec.meets_modify, Exec.meets_bind, Exec.meets_modify, Exec.meets_bind]
      refine Exec.meets_of_ok hget ?_
      dsimp only
      rw [if_neg hlinks]
      exact ⟨rfl, herased _⟩
    · exact ⟨rfl, herased _⟩

/-! ## Calls by path -/

variable {f : Nodes} {V : Inner → Prop} {perm : Bool} {limit : ℕ}

/-- What is known of a call up to failures of the host is what it does when there are none. -/
theorem Asks.answered {V' : Inner → Prop} {x : Fs α} {Q : α → Prop} {E : Prop} (h : Asks True V x s Q E)
    (hx : Answered x s) (hV : ∀ t, V t → Served s t → V' t) : Asks False V' x s Q E := by
  refine Exec.Meets.mono (Exec.Meets.and hx h.holds) ?_ ?_ False.elim
  · rintro a t ⟨ht, hv, hq⟩
    exact ⟨hV t hv ht, hq⟩
  · rintro e t ⟨⟨hno, ht⟩, he | ⟨hv, hfails⟩⟩
    · exact absurd he hno
    · exact Or.inr ⟨hV t hv ht, hfails⟩

theorem Visitor.answered (h : Visitor True f (fun _ ↦ V) perm limit) (len : ℕ)
    (hinode : ∀ s k, V s → s.disk.Answering → s.image.len = len → k < limit → Answered (Inner.getInode k) s)
    (hdata : ∀ s k n off count, V s → s.disk.Answering → s.NothingHeld → s.image.len = len → f k = some n →
      Answered (readData k off count) s)
    (hnamed : ∀ s k n, V s → f k = some n → n.nlink ≠ 0 → s.orphans.contains k = true →
      ∃ i, s.inodes.find? k = some i ∧ i.nlink ≠ 0) :
    Visitor False f (fun o t ↦ V t ∧ t.Ready o ∧ t.image.len = len) perm limit where
  reader o := {
    perm := fun s hs ↦ (h.reader o).perm s hs.1
    below := (h.reader o).below
    size := (h.reader o).size
    inode := fun s k hs hk ↦ ((h.reader o).inode s k hs.1 hk).answered (hinode s k hs.1 hs.2.1.answering hs.2.2 hk)
      fun t ht hserved ↦ ⟨ht, hs.2.1.served hserved, hserved.len.trans hs.2.2⟩
    data := fun s k n off count hs hn ↦ ((h.reader o).data s k n off count hs.1 hn).answered
      (hdata s k n off count hs.1 hs.2.1.answering hs.2.1.held hs.2.2 hn)
      fun t ht hserved ↦ ⟨ht, hs.2.1.served hserved, hserved.len.trans hs.2.2⟩ }
  root := h.root
  root_lt := h.root_lt
  linked := h.linked
  opens s k hs := by
    refine Exec.Meets.mono (Exec.Meets.and (hs.2.1.incOpen k) (h.opens s k hs.1).holds) ?_ (fun _ _ hf ↦ hf.1.elim)
      False.elim
    rintro _ t ⟨⟨hsame, hready⟩, ht, -⟩
    refine ⟨⟨ht, hready, ?_⟩, trivial⟩
    rw [hsame]
    exact hs.2.2
  closes s k n hs hn hlinks := by
    refine Exec.Meets.mono (Exec.Meets.and (hs.2.1.decOpen (hnamed s k n hs.1 hn hlinks))
      (h.closes s k n hs.1 hn hlinks).holds) ?_ (fun _ _ hf ↦ hf.1) id
    rintro _ t ⟨⟨hsame, hready⟩, ht⟩
    refine ⟨ht, hready, ?_⟩
    rw [hsame]
    exact hs.2.2

/-- A running filesystem whose host answers. -/
theorem Rooted.ready_visitor (h : s.Rooted) : Visitor False s.node
    (fun o t ↦ Unmoved s t ∧ t.Ready o ∧ t.image.len = s.image.len) s.checkPerm s.sb.nextInode := by
  refine h.visitor.answered s.image.len ?_ ?_ ?_
  · exact fun t k ht ha _ hk ↦ ht.1.1.sound.getInode_answered ha (ht.1.lt hk)
  · rintro t k n off count ⟨ht, hnode, -⟩ ha hclean - hn
    rw [← hnode] at hn
    obtain ⟨i, hi, -⟩ := mem_of_node hn
    exact readData_answered ht.1.sound ha hclean hi off count
  · rintro t k n ⟨-, hnode, -⟩ hn hlinks -
    rw [← hnode] at hn
    obtain ⟨i, hi, rfl⟩ := mem_of_node hn
    exact ⟨i, hi, hlinks⟩

/-- The call answers as `Q` says; it can only fail on the host, and returns where that answers. -/
structure Replies (x : Fs α) (s : Inner) (Q : α → Prop) : Prop where
  holds : x.Holds s (fun a _ ↦ Q a) (fun e _ ↦ e.IsHost)
  returns : s.Ready none → ∃ a t, x s = .ok a t ∧ Q a

theorem Replies.mono {x : Fs α} {Q R : α → Prop} (h : Replies x s Q) (hQ : ∀ a, Q a → R a) : Replies x s R where
  holds := h.holds.mono (fun a _ ha ↦ hQ a ha) fun _ _ he ↦ he
  returns hready := by
    obtain ⟨a, t, hrun, ha⟩ := h.returns hready
    exact ⟨a, t, hrun, hQ a ha⟩

theorem Rooted.replies (h : s.Rooted) {x : Fs α} {Q : α → Prop} {E : Prop} (hfails : ¬E)
    (hx : ∀ {H : Prop} {V : Option ℕ → Inner → Prop}, Visitor H s.node V s.checkPerm s.sb.nextInode → V none s →
      Asks H (V none) x s Q E) : Replies x s Q where
  holds := (hx h.visitor h.tidy.unmoved).holds.mono (fun _ _ ha ↦ ha.2) fun _ _ he ↦
    he.elim id fun hf ↦ absurd hf.2 hfails
  returns hready := by
    obtain ⟨a, t, hrun, -, hq⟩ := (hx h.ready_visitor ⟨h.tidy.unmoved, hready, rfl⟩).exists_ok hfails
    exact ⟨a, t, hrun, hq⟩

section Paths

variable {depth : ℕ} {path : UnixPath} {follow : Bool}

theorem walk_replies (h : s.Rooted) {cwd : ℕ} {r : Resolved} (hcwd : cwd < s.sb.nextInode)
    (hr : s.node.walk s.checkPerm ⟨rootIno, follow, Creds.root⟩ depth cwd path = some r) :
    Replies (walk ⟨rootIno, follow, Creds.root⟩ depth cwd path) s (· = r) := by
  refine h.replies (E := s.node.walk s.checkPerm ⟨rootIno, follow, Creds.root⟩ depth cwd path = none)
    (by rw [hr]; exact Option.some_ne_none r) fun hv hs ↦ ((hv.reader none).walk hv.root_lt depth cwd path s hs hcwd).mono
      (fun q hq ↦ ?_) id
  rw [hr] at hq
  exact (Option.some.inj hq.2).symm

theorem find_replies (h : s.Rooted) (hk : s.node.leads depth path follow = some k) :
    Replies (Facade.find depth path follow) s (· = k) := by
  refine h.replies (E := s.node.leads depth path follow = none) (by rw [hk]; exact Option.some_ne_none k) fun hv hs ↦
    (hv.find hs).mono (fun j hj ↦ ?_) id
  rw [hk] at hj
  exact (Option.some.inj hj.2).symm

/-- The bytes of the inode at the end of the path; a round for each of them and one more is enough. -/
theorem read_replies (h : s.Rooted) {sizes : ℕ → ℕ} (hsizes : ∀ m, 0 < sizes m) {rounds : ℕ}
    (hk : s.node.leads depth path true = some k) (hn : s.node k = some n) (hrounds : n.bytes.length < rounds) :
    Replies (Facade.read depth sizes rounds path) s (· = n.bytes) := by
  refine h.replies (E := ∀ j, s.node.leads depth path true = some j → s.node j = none) (fun hmissing ↦ ?_)
    fun hv hs ↦ (hv.read hsizes hs (Or.inr fun j m hj hm ↦ ?_)).mono ?_ id
  · rw [hmissing k hk] at hn
    cases hn
  · rw [hk] at hj
    cases hj
    rw [hn] at hm
    cases hm
    exact hrounds
  · rintro data ⟨j, m, hj, hm, rfl⟩
    rw [hk] at hj
    cases hj
    rw [hn] at hm
    cases hm
    rfl

theorem stat_replies (h : s.Rooted) (hk : s.node.leads depth path follow = some k) (hn : s.node k = some n) :
    Replies (Facade.onPath depth path follow statIno) s
      (fun st ↦ st.answer = .attributes k n.mode n.nlink n.uid n.gid n.bytes.length) := by
  have hanswer : (Query.stat path follow).answer depth s.node =
      some (.attributes k n.mode n.nlink n.uid n.gid n.bytes.length) := Nodes.ask_eq hk hn _
  refine h.replies (E := (Query.stat path follow).answer depth s.node = none) (by rw [hanswer]; exact Option.some_ne_none _)
    fun hv hs ↦ (hv.stat hs).of_map.mono (fun st hst ↦ ?_) id
  rw [hanswer] at hst
  exact (Option.some.inj hst).symm

theorem readLink_replies (h : s.Rooted) (hk : s.node.leads depth path false = some k) (hn : s.node k = some n)
    (hlink : (FileType.fromMode n.mode).isSymlink = true) : Replies (Facade.readLink depth path) s (· = n.bytes) := by
  have hanswer : (Query.readLink path).answer depth s.node = some (.bytes n.bytes) :=
    (Nodes.ask_eq hk hn _).trans (if_pos hlink)
  refine h.replies (E := (Query.readLink path).answer depth s.node = none) (by rw [hanswer]; exact Option.some_ne_none _)
    fun hv hs ↦ (hv.readLink hs).of_map.mono (fun target htarget ↦ ?_) id
  rw [hanswer] at htarget
  cases htarget
  rfl

end Paths

end Inner

end LinuxFile
