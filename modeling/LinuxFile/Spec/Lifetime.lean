import LinuxFile.Spec.Handles
import LinuxFile.Spec.Inodes
import LinuxFile.Spec.Nodes

/-!
# Giving out and taking back inode numbers

A new inode is an empty node under a number that no inode had; a dropped inode takes its node away, and its
number becomes free. All other nodes stay as they are.
-/

namespace LinuxFile.Inner

open Ledger

variable {s t u : Inner} {live : KeyMap Inode} {hand : List (ℕ × ℕ)} {i i' : Inode} {ino k : ℕ}

/-! ## A new inode -/

def newNode (mode : UInt16) (uid gid : UInt32) : Node := ⟨mode, 1, uid, gid, [], []⟩

/-- The state after a new inode has been installed. -/
structure Adds (s : Inner) (ino : ℕ) (n : Node) (t : Inner) : Prop where
  sound : t.Sound
  unused : s.node ino = none
  low : firstUserIno ≤ ino
  number : ino < t.sb.nextInode
  next : s.sb.nextInode ≤ t.sb.nextInode
  inRange : s.sb.InRange → t.sb.InRange
  node : t.node = Function.update s.node ino (some n)
  same : t = { s with
    alloc := t.alloc
    image := t.image
    sb := t.sb
    freeInodes := t.freeInodes
    inodes := t.inodes
    dirtyInodes := t.dirtyInodes }

theorem laid_of_empty (h : i.extents = []) : s.Laid i where
  stable b hb := by
    rw [h] at hb
    simp [extentRanges] at hb
  packed e he := by simp [h] at he
  start e he := by simp [h] at he
  length e he := by simp [h] at he
  alone e he := by simp [h] at he

theorem NewInode.adds (h : s.Sound) {mode : UInt16} {uid gid : UInt32}
    (hnew : NewInode s s.inodes ino (newInode s ino mode uid gid) t) : Adds s ino (newNode mode uid gid) t := by
  have hfind : t.inodes.find? ino = some (newInode s ino mode uid gid) := by
    rw [hnew.inodes]
    exact KeyMap.find?_insert_self _ _ _
  have hfind_ne : ∀ k, k ≠ ino → t.inodes.find? k = s.inodes.find? k := fun k hk ↦ by
    rw [hnew.inodes]
    exact KeyMap.find?_insert_of_ne hk
  have henv : t.env = s.env := by rw [hnew.same]
  have hcache : t.recordCache = s.recordCache := by rw [hnew.same]
  have hrecords : t.recordBlocks = s.recordBlocks := by rw [hnew.same]
  have hbytes : t.recordBytes = s.recordBytes := by
    unfold recordBytes
    rw [hrecords]
  have hstored : ∀ k j, s.inodes.find? k = some j → ∀ p, t.storedByte j p = s.storedByte j p := fun k j hj p ↦
    (h.laid k j hj).storedByte_eq (h.wf hj) (KeepsBlocks.quiet hnew.disk) henv p
  have hold : ∀ k j, s.inodes.find? k = some j → k ≠ ino := by
    rintro k j hj rfl
    rw [hnew.unused] at hj
    cases hj
  refine ⟨⟨?_, fun k j hj ↦ ?_, fun k j hj hkind ↦ ?_, fun c hc ↦ ?_⟩, node_eq_none.mpr hnew.unused, hnew.low,
    hnew.number, hnew.next, hnew.inRange, ?_, hnew.same⟩
  · rw [hnew.inodes]
    exact hnew.inv
  · by_cases hk : k = ino
    · rw [hk, hfind] at hj
      cases hj
      exact laid_of_empty rfl
    · rw [hfind_ne k hk] at hj
      exact (h.laid k j hj).keep (h.wf hj) (KeepsBlocks.quiet hnew.disk) henv hrecords
  · by_cases hk : k = ino
    · rw [hk, hfind] at hj
      cases hj
      rfl
    · rw [hfind_ne k hk] at hj
      exact h.inline k j hj hkind
  · rw [hcache] at hc
    have hok := h.held c hc
    obtain ⟨j, hj, huses, hkind⟩ := hok.owner
    have hk := hold c.ino j hj
    refine ⟨⟨j, (hfind_ne c.ino hk).trans hj, huses, hkind⟩, hok.length.trans hbytes.symm,
      fun hclean x hx q hq hlt ↦ ?_⟩
    rw [hfind_ne c.ino hk] at hx
    rw [hbytes] at hq hlt ⊢
    rw [hstored c.ino x hx]
    exact hok.clean hclean x hx q hq hlt
  · funext k
    by_cases hk : k = ino
    · rw [hk, Function.update_self, node_of_mem hfind, contents_of_mem hfind]
      rfl
    · rw [Function.update_of_ne hk]
      cases hj : s.inodes.find? k with
      | none => rw [node_eq_none.mpr hj, node_eq_none.mpr ((hfind_ne k hk).trans hj)]
      | some j =>
        have hj' := (hfind_ne k hk).trans hj
        rw [node_of_mem hj, node_of_mem hj', contents_of_mem hj, contents_of_mem hj']
        congr 2
        apply List.map_congr_left
        intro p _
        exact fileByte_congr hcache hrecords (hstored k j hj p)

theorem allocInode_adds (h : s.Sound) (mode : UInt16) (uid gid : UInt32) :
    (allocInode mode uid gid).Holds s (fun ino t ↦ Adds s ino (newNode mode uid gid) t)
      (fun e t ↦ e.IsHost ∨ t = s) :=
  (allocInode_spec h.inv mode uid gid).mono (fun _ _ hnew ↦ hnew.adds h) (fun _ _ he ↦ he)

/-! ## The end of an inode -/

/-- An inode whose slot is zero can go. -/
theorem Inv.die (h : s.Inv live hand) (hlive : live.find? ino = some i)
    (hslot : s.SlotIs ino (Buf.zero inodeSize)) (hrecord : ∀ c, s.recordCache = some c → c.ino ≠ ino)
    (free : List ℕ) (hnodup : free.Nodup)
    (hfree : ∀ k ∈ free, k ∈ s.freeInodes ∨ k = ino ∧ firstUserIno ≤ ino) (count freeCount : ℕ) :
    Inv { s with
      sb := { s.sb with inodeCount := count, freeInodeCount := freeCount }
      freeInodes := free
      inodes := s.inodes.erase ino
      dirtyInodes := s.dirtyInodes.erase ino } (live.erase ino) hand := by
  have hkey := h.numbered.keys ino i hlive
  have hgone : ∀ k j, (live.erase ino).find? k = some j → k ≠ ino ∧ live.find? k = some j := by
    intro k j hk
    rw [KeyMap.find?_erase] at hk
    split_ifs at hk with hne
    exact ⟨hne, hk⟩
  refine ⟨{ h.geometry with }, ⟨h.owned.alloc, fun b ↦ ?_⟩, ⟨fun k j hj ↦ ?_, fun k hk ↦ ?_, fun k j hk ↦ ?_,
    fun k j hk ↦ ?_, hnodup, fun k hk ↦ ?_, fun c hc ↦ ?_⟩,
    ⟨fun k j hk hclean ↦ ?_, fun k j hk hnone ↦ ?_, fun k hpos hnext hk ↦ ?_, fun k j hk ↦ ?_, h.onDisk.map⟩⟩
  · have h1 := h.owned.fits b
    have h2 := KeyMap.total_remove (fun _ i ↦ cover i.ranges b) hlive
    unfold load at h1 ⊢
    change cover s.alloc.free.entries b + cover (tableRanges s.sb) b + cover s.mapRanges b +
      (live.erase ino).total (fun _ i ↦ cover i.ranges b) + cover hand b ≤ s.alloc.area b
    omega
  · change (s.inodes.erase ino).find? k = some j at hj
    rw [KeyMap.find?_erase] at hj ⊢
    split_ifs at hj ⊢
    exact h.numbered.memory k j hj
  · change (s.dirtyInodes.erase ino).contains k = true at hk
    change ∃ j, (s.inodes.erase ino).find? k = some j
    obtain ⟨x, hx⟩ := KeyMap.contains_iff.mp hk
    rw [KeyMap.find?_erase] at hx ⊢
    split_ifs at hx ⊢
    exact h.numbered.dirty k (KeyMap.contains_iff.mpr ⟨x, hx⟩)
  · exact h.numbered.keys k j (hgone k j hk).2
  · exact h.numbered.shape k j (hgone k j hk).2
  · rcases hfree k hk with hold | ⟨rfl, hlow⟩
    · obtain ⟨hlow, hhigh, hnone⟩ := h.numbered.free k hold
      refine ⟨hlow, hhigh, ?_⟩
      rw [KeyMap.find?_erase]
      split_ifs
      · rfl
      · exact hnone
    · exact ⟨hlow, hkey.2.1, KeyMap.find?_erase_self _ _⟩
  · have hold := h.numbered.record c hc
    refine ⟨hold.length_le, hold.index_le, fun hdirty ↦ ?_⟩
    change ∃ j, (s.inodes.erase ino).find? c.ino = some j ∧ _
    rw [KeyMap.find?_erase_of_ne (hrecord c hc)]
    exact hold.owner hdirty
  · obtain ⟨hne, hk⟩ := hgone k j hk
    refine (h.onDisk.stored k j hk ?_).keep (fun _ hs ↦ hs) (fun _ _ _ hP ↦ hP) (fun _ _ _ hP ↦ hP)
    rw [Bool.eq_false_iff] at hclean ⊢
    intro hcontains
    apply hclean
    obtain ⟨x, hx⟩ := KeyMap.contains_iff.mp hcontains
    apply KeyMap.contains_iff.mpr
    change ∃ value, (s.dirtyInodes.erase ino).find? k = some value
    rw [KeyMap.find?_erase_of_ne hne]
    exact ⟨x, hx⟩
  · obtain ⟨hne, hk⟩ := hgone k j hk
    change (s.inodes.erase ino).find? k = none at hnone
    rw [KeyMap.find?_erase_of_ne hne] at hnone
    exact (h.onDisk.parked k j hk hnone).keep (fun _ hs ↦ hs) (fun _ _ _ hP ↦ hP)
  · by_cases hne : k = ino
    · rw [hne]
      exact hslot
    · rw [KeyMap.find?_erase_of_ne hne] at hk
      exact h.onDisk.dead k hpos hnext hk
  · exact h.onDisk.headers k j (hgone k j hk).2

/-- The last step of `drop_inode`. -/
def giveBackNumber (ino : ℕ) : Fs Unit := do
  Exec.when (firstUserIno ≤ ino) (Exec.modify (fun s ↦
    { s with
      freeInodes := s.freeInodes ++ [ino]
      sb := { s.sb with freeInodeCount := s.freeInodes.length + 1 } }))
  Exec.modify (fun s ↦ { s with sb := { s.sb with inodeCount := s.sb.inodeCount - 1 } })

theorem giveBackNumber_eq (ino : ℕ) (s : Inner) :
    giveBackNumber ino s = .ok () { s with
      freeInodes := s.freeInodes ++ freed ino
      sb := { s.sb with
        inodeCount := s.sb.inodeCount - 1
        freeInodeCount := if firstUserIno ≤ ino then s.freeInodes.length + 1 else s.sb.freeInodeCount } } := by
  unfold giveBackNumber Exec.when freed
  split_ifs
  · rfl
  · rw [List.append_nil]
    rfl

/-- What `drop_inode` does once the data is gone. -/
def retireInode (ino : ℕ) (inode : Inode) : Fs Unit := do
  Exec.when (inode.xattrBlock ≠ 0) (freeBlocks inode.xattrBlock 1)
  Exec.when (inode.extentTree ≠ 0 ∧ inode.dataKind = .extentTree)
    (freeBlocks inode.extentTree (max inode.extentTreeBlocks 1))
  Exec.modify (fun s ↦
    { s with inodes := s.inodes.erase ino, dirtyInodes := s.dirtyInodes.erase ino })
  zeroSlot ino
  giveBackNumber ino

theorem dropInode_eq (ino : ℕ) : dropInode ino = (do
    invalidateRecordCache ino
    let inode ← getInode ino
    truncateData ino 0
    retireInode ino inode) := rfl

/-- The state without an inode. -/
structure Drops (s : Inner) (ino : ℕ) (t : Inner) : Prop where
  sound : t.Sound
  node : t.node = Function.update s.node ino none
  freeInodes : t.freeInodes = s.freeInodes ++ freed ino
  sb : t.sb = { s.sb with inodeCount := t.sb.inodeCount, freeInodeCount := t.sb.freeInodeCount }
  inRange : s.sb.InRange → t.sb.InRange
  same : t = { s with
    alloc := t.alloc
    image := t.image
    cache := t.cache
    sb := t.sb
    freeInodes := t.freeInodes
    inodes := t.inodes
    dirtyInodes := t.dirtyInodes
    recordCache := t.recordCache }

theorem when_freeBlocks (c : Prop) [Decidable c] (start n : ℕ) (s : Inner) :
    Exec.when c (freeBlocks start n) s =
      .ok () { s with alloc := (if c then [(start, n)] else []).foldl (fun a r ↦ a.freeRange r.1 r.2) s.alloc } := by
  unfold Exec.when
  split_ifs <;> rfl

theorem zeroSlot_spec {inodes : KeyMap Inode} {dirty : KeyMap Unit} (h : (s.shadow inodes dirty).Inv live hand)
    (hlive : live.find? ino = some i) (hdirty : dirty.contains ino = true) (hmem : inodes.find? ino ≠ none) :
    (zeroSlot ino).Holds s
      (fun _ t ↦ ∃ phys d, t = s.withDisk d ∧ (t.shadow inodes dirty).Inv live hand ∧
        t.SlotIs ino (Buf.zero inodeSize) ∧ 0 < cover (tableRanges s.sb) phys ∧
        CachedImage.Step (· = phys) s.disk d)
      (fun e _ ↦ e.IsHost) := by
  have hkey : 0 < ino ∧ ino < s.sb.nextInode ∧ i.ino = ino := h.numbered.keys ino i hlive
  have hnext : s.sb.nextInode ≤ inodeTableCapacity s.sb := h.geometry.next.2
  have htable : Contiguous 0 s.sb.inodeTableExtents := h.geometry.table
  obtain ⟨phys, hslot⟩ := exists_slot htable (hkey.2.1.trans_le hnext)
  have hzero : (Buf.zero inodeSize).slice 0 inodeSize = List.replicate inodeSize 0 := by
    change (List.range' 0 inodeSize).map (fun _ ↦ 0) = _
    rw [List.map_const', List.length_range']
  unfold zeroSlot
  rw [Exec.holds_bind, Exec.holds_read, if_pos (hkey.2.1.trans_le hnext), hslot]
  change Exec.Holds (onCache (BlockCache.getMut phys _)) s _ _
  rw [holds_onCache]
  refine (BlockCache.getMut_spec phys _ s.disk h.geometry.image).mono ?_ (fun _ _ he ↦ he)
  rintro _ d ⟨hstep, hview, hd⟩
  have hwritten : SlotWritten (s.shadow inodes dirty) phys (ino % inodesPerBlock * inodeSize)
      (Buf.zero inodeSize) d := ⟨hstep, by rw [hzero]; exact hview, hd⟩
  refine ⟨phys, d, rfl, h.write_slot hslot hwritten (fun _ _ ↦ ⟨hdirty, hmem⟩) (fun hnone ↦ ?_),
    hwritten.self hslot, cover_table_of_slot hslot, hstep⟩
  exact absurd hnone (by rw [hlive]; exact Option.some_ne_none i)

/-- An inode that owns no blocks. -/
def stripped (i : Inode) : Inode :=
  { i with extents := [], extentTree := 0, extentTreeBlocks := 0, xattrBlock := 0 }

theorem stripped_wf (h : i.Wf) : (stripped i).Wf where
  extents _ he := by cases he
  clear := List.Pairwise.nil
  tree := ⟨fun _ ↦ rfl, fun _ ↦ rfl⟩
  size_le := h.size_le
  inline _ := rfl

/-- The blocks of attributes and extent tree that `drop_inode` gives back. -/
def retiredRanges (i : Inode) : List (ℕ × ℕ) :=
  (if i.xattrBlock ≠ 0 then [(i.xattrBlock, 1)] else []) ++
    if i.extentTree ≠ 0 ∧ i.dataKind = .extentTree then [(i.extentTree, max i.extentTreeBlocks 1)] else []

theorem cover_retired {old : Inode} (hwf : i.Wf) (hxattr : old.xattrBlock = i.xattrBlock)
    (htree : old.extentTree = i.extentTree) (hblocks : old.extentTreeBlocks = i.extentTreeBlocks) (b : ℕ) :
    cover (stripped i).ranges b + cover (retiredRanges old) b ≤ cover i.ranges b := by
  have hbare : (stripped i).ranges = [] := rfl
  have htreeRanges : cover (if old.extentTree ≠ 0 ∧ old.dataKind = .extentTree then
      [(old.extentTree, max old.extentTreeBlocks 1)] else []) b ≤ cover i.treeRanges b := by
    unfold Inode.treeRanges
    rw [htree, hblocks]
    by_cases hzero : i.extentTree = 0
    · rw [if_neg (by simp [hzero])]
      simp
    · have hpos : i.extentTreeBlocks ≠ 0 := fun h0 ↦ hzero (hwf.tree.mpr h0)
      rw [if_neg hzero, show max i.extentTreeBlocks 1 = i.extentTreeBlocks by omega]
      split_ifs
      · exact le_rfl
      · simp
  have hxattrRanges : cover (if old.xattrBlock ≠ 0 then [(old.xattrBlock, 1)] else []) b =
      cover i.xattrRanges b := by
    unfold Inode.xattrRanges
    rw [hxattr, ite_not]
  unfold retiredRanges
  rw [hbare, cover_append, hxattrRanges, cover_ranges]
  simp only [cover_nil]
  omega

/-- A state with one inode less, in which the other files have kept their blocks. -/
theorem Sound.without (h : s.Sound) (hnone : s.recordCache = none) (hinv : u.Inv u.inodes [])
    (hinodes : u.inodes = s.inodes.erase ino) (hdata : KeepsData s.inodes s u) (henv : u.env = s.env)
    (hrecords : u.recordBlocks = s.recordBlocks) (hcache : u.recordCache = none) :
    u.Sound ∧ u.node = Function.update s.node ino none := by
  have hleft : ∀ k j, u.inodes.find? k = some j → k ≠ ino ∧ s.inodes.find? k = some j := by
    intro k j hj
    rw [hinodes, KeyMap.find?_erase] at hj
    split_ifs at hj with hk
    exact ⟨hk, hj⟩
  refine ⟨⟨hinv, fun k j hj ↦ ?_, fun k j hj ↦ ?_, fun c hc ↦ nomatch hcache.symm.trans hc⟩, ?_⟩
  · have hj' := (hleft k j hj).2
    exact (h.laid k j hj').keep (h.wf hj') (hdata k j hj') henv hrecords
  · exact h.inline k j (hleft k j hj).2
  · funext k
    by_cases hk : k = ino
    · rw [hk, Function.update_self]
      apply node_eq_none.mpr
      rw [hinodes, KeyMap.find?_erase_self]
    · have hfind : u.inodes.find? k = s.inodes.find? k := by rw [hinodes, KeyMap.find?_erase_of_ne hk]
      rw [Function.update_of_ne hk]
      cases hj : s.inodes.find? k with
      | none => rw [node_eq_none.mpr hj, node_eq_none.mpr (hfind.trans hj)]
      | some j =>
        have hj' := hfind.trans hj
        rw [node_of_mem hj, node_of_mem hj', contents_of_mem hj, contents_of_mem hj']
        congr 2
        apply List.map_congr_left
        intro p _
        exact fileByte_congr (hcache.trans hnone.symm) hrecords
          ((h.laid k j hj).storedByte_eq (h.wf hj) (hdata k j hj) henv p)

theorem erase_insert {α : Type} (m : KeyMap α) (key : ℕ) (value : α) :
    (m.insert key value).erase key = m.erase key := by
  apply KeyMap.eq_of_find?_eq
  intro k
  by_cases hk : k = key
  · rw [hk, KeyMap.find?_erase_self, KeyMap.find?_erase_self]
  · rw [KeyMap.find?_erase_of_ne hk, KeyMap.find?_erase_of_ne hk, KeyMap.find?_insert_of_ne hk]

/-- Taking an inode whose data is gone out of the tables. -/
theorem retireInode_drops (h : s.Sound) (hnone : s.recordCache = none) (hmem : s.inodes.find? ino = some i)
    {old : Inode} (hxattr : old.xattrBlock = i.xattrBlock) (htree : old.extentTree = i.extentTree)
    (hblocks : old.extentTreeBlocks = i.extentTreeBlocks) :
    (retireInode ino old).Holds s (fun _ t ↦ Drops s ino t) (fun e _ ↦ e.IsHost) := by
  have hwf := h.wf hmem
  have hkey := h.inv.numbered.keys ino i hmem
  have hexchange := h.inv.exchange hmem (stripped i) (stripped_wf hwf) rfl (retiredRanges old) []
    (fun b ↦ by rw [cover_nil]; exact cover_retired hwf hxattr htree hblocks b) (fun e he ↦ by cases he)
    (fun c hc ↦ by rw [hnone] at hc; cases hc)
  unfold retireInode
  rw [Exec.holds_bind_of_ok (when_freeBlocks _ _ _ s), Exec.holds_bind_of_ok (when_freeBlocks _ _ _ _),
    Exec.holds_bind, Exec.holds_modify]
  dsimp only
  rw [← List.foldl_append]
  set alloc := (retiredRanges old).foldl (fun a r ↦ a.freeRange r.1 r.2) s.alloc with halloc
  set inodes := s.inodes.insert ino (stripped i) with hinodes
  set dirty := s.dirtyInodes.insert ino () with hdirty
  set v : Inner := { s with
    alloc := alloc, inodes := s.inodes.erase ino, dirtyInodes := s.dirtyInodes.erase ino } with hv
  have hshadow : (v.shadow inodes dirty).Inv inodes [] := hexchange
  have hfind : inodes.find? ino = some (stripped i) := KeyMap.find?_insert_self _ _ _
  have hcontains : dirty.contains ino = true := by simp [hdirty, KeyMap.contains]
  refine (zeroSlot_spec hshadow hfind hcontains (by rw [hfind]; exact Option.some_ne_none _)).bind ?_
    (fun _ _ he ↦ he)
  rintro _ _ ⟨phys, d, rfl, hinv, hslot, htable, hstep⟩
  rw [Exec.holds_iff_of_ok (giveBackNumber_eq ino _)]
  have hfresh : ino ∉ s.freeInodes := fun hin ↦ by
    have hdead := (h.inv.numbered.free ino hin).2.2
    rw [hmem] at hdead
    cases hdead
  have hnodup : (s.freeInodes ++ freed ino).Nodup := by
    rw [List.nodup_append]
    refine ⟨h.inv.numbered.nodup, ?_, ?_⟩
    · unfold freed
      split_ifs <;> simp
    · intro a ha b hb hab
      unfold freed at hb
      split_ifs at hb
      · rw [List.mem_singleton] at hb
        exact hfresh (hb ▸ hab ▸ ha)
      · cases hb
  have hmember : ∀ k ∈ s.freeInodes ++ freed ino, k ∈ s.freeInodes ∨ k = ino ∧ firstUserIno ≤ ino := by
    intro k hk
    rcases List.mem_append.mp hk with hk | hk
    · exact Or.inl hk
    · unfold freed at hk
      split_ifs at hk with hlow
      · exact Or.inr ⟨List.mem_singleton.mp hk, hlow⟩
      · cases hk
  set freeCount := if firstUserIno ≤ ino then s.freeInodes.length + 1 else s.sb.freeInodeCount with hfreeCount
  have hdie : Inv { v.withDisk d with
      sb := { s.sb with inodeCount := s.sb.inodeCount - 1, freeInodeCount := freeCount }
      freeInodes := s.freeInodes ++ freed ino
      inodes := inodes.erase ino
      dirtyInodes := dirty.erase ino } (inodes.erase ino) [] := by
    refine hinv.die hfind hslot (fun c hc ↦ ?_) _ hnodup hmember _ _
    cases hnone.symm.trans hc
  rw [hinodes, hdirty, erase_insert, erase_insert] at hdie
  have hkeeps : KeepsData s.inodes s (v.withDisk d) := by
    apply h.inv.keepsData (W := (· = phys)) hstep
    rintro b rfl
    have hcover : 0 < cover (tableRanges s.sb) b := htable
    omega
  obtain ⟨hsound, hnode⟩ := h.without hnone hdie rfl hkeeps rfl rfl hnone
  refine ⟨hsound, hnode, rfl, rfl, fun hrange ↦ ?_, rfl⟩
  have hlen : (s.freeInodes ++ freed ino).length ≤ s.sb.nextInode := hdie.numbered.free_length
  have hnext := hrange.nextInode
  have hcount := hrange.inodeCount
  refine { hrange with inodeCount := ?_, freeInodeCount := ?_ }
  · change s.sb.inodeCount - 1 < 2 ^ 64
    omega
  · change freeCount < 2 ^ 64
    rw [hfreeCount]
    split_ifs with hlow
    · rw [freed, if_pos hlow, List.length_append, List.length_singleton] at hlen
      omega
    · exact hrange.freeInodeCount

/-- The record held of a file is thrown away with the file. -/
theorem Sound.discard (h : s.Sound) {c : RecordCache} (hc : s.recordCache = some c) (hino : c.ino = ino) :
    Edited s ino { s with recordCache := none } := by
  have hsound : Sound { s with recordCache := none } := by
    refine ⟨h.inv.hold none (fun _ hc ↦ by cases hc), fun k j hj ↦ (h.laid k j hj).congr rfl rfl rfl, h.inline,
      fun _ hc ↦ by cases hc⟩
  refine ⟨hsound, rfl, fun k _ hk ↦ hk, fun k j hk hj ↦ ⟨j, hj, ?_⟩⟩
  have hstored : ∀ p, storedByte { s with recordCache := none } j p = s.storedByte j p := fun p ↦
    storedByte_congr rfl rfl j p
  have hbyte : ∀ p, fileByte { s with recordCache := none } k j p = s.fileByte k j p := by
    intro p
    by_cases hkind : j.dataKind = .inline
    · rw [fileByte_inline hkind, fileByte_inline hkind]
    · rw [fileByte_none rfl hkind, fileByte_held hc hkind, if_neg fun hown ↦ hk (hown.1.symm.trans hino), hstored]
  refine ⟨Or.inl rfl, fun p _ ↦ hbyte p, fun p _ hz ↦ ?_⟩
  unfold Blank
  rw [hbyte, hstored]
  exact hz

theorem invalidateRecordCache_held {c : RecordCache} (hc : s.recordCache = some c) (hino : c.ino = ino) :
    invalidateRecordCache ino s = .ok () { s with recordCache := none } := by
  have hgone : s.recordCache.filter (fun c ↦ decide (c.ino ≠ ino)) = none := by
    rw [hc]
    simp [Option.filter, hino]
  rw [invalidateRecordCache, Exec.modify_apply, hgone]

theorem invalidateRecordCache_other (h : ∀ c, s.recordCache = some c → c.ino ≠ ino) :
    invalidateRecordCache ino s = .ok () s := by
  have hkept : s.recordCache.filter (fun c ↦ decide (c.ino ≠ ino)) = s.recordCache := by
    cases hc : s.recordCache with
    | none => rfl
    | some c => simp [Option.filter, h c hc]
  rw [invalidateRecordCache, Exec.modify_apply, hkept]

theorem invalidateRecordCache_edits (h : s.Sound) (ino : ℕ) :
    ∃ t, invalidateRecordCache ino s = .ok () t ∧ Edited s ino t ∧ t.inodes = s.inodes ∧
      (s.inodes.find? ino = none → t = s) := by
  by_cases hheld : ∃ c, s.recordCache = some c ∧ c.ino = ino
  · obtain ⟨c, hc, hino⟩ := hheld
    refine ⟨_, invalidateRecordCache_held hc hino, h.discard hc hino, rfl, fun hnone ↦ ?_⟩
    obtain ⟨i, hi, -, -⟩ := (h.held c hc).owner
    rw [hino, hnone] at hi
    cases hi
  · have hother : ∀ c, s.recordCache = some c → c.ino ≠ ino := fun c hc hino ↦ hheld ⟨c, hc, hino⟩
    exact ⟨s, invalidateRecordCache_other hother, h.edited ino, rfl, fun _ ↦ rfl⟩

/-- Dropping an inode takes its node away and frees its number. -/
theorem dropInode_drops (h : s.Sound) (hwritable : s.writable = true) (hk : ino < s.sb.nextInode) :
    (dropInode ino).Holds s (fun _ t ↦ (∃ n, s.node ino = some n) ∧ Drops s ino t)
      (fun e t ↦ e.IsHost ∨ s.node ino = none ∧ Becomes s s.node t) := by
  obtain ⟨v, hv, hedited, hinodes, hsame⟩ := invalidateRecordCache_edits h ino
  rw [dropInode_eq, Exec.holds_bind_of_ok hv]
  cases hmem : s.inodes.find? ino with
  | none =>
    rw [hsame hmem]
    refine (h.getInode_finds hk).bind ?_ ?_
    · rintro i t ⟨hi, -⟩
      rw [hmem] at hi
      cases hi
    · rintro e t (he | ⟨-, ht⟩)
      · exact Or.inl he
      · exact Or.inr ⟨node_eq_none.mpr hmem, ht⟩
  | some i =>
    have hmem' : v.inodes.find? ino = some i := by rw [hinodes]; exact hmem
    have hwritable' : v.writable = true := by rw [hedited.shell.writable]; exact hwritable
    rw [Exec.holds_bind_of_ok (getInode_mem hmem')]
    refine ((truncateData_empties hedited.sound hwritable' (node_of_mem hmem')).and
      (truncateData_calm ino 0 v)).bind ?_ (fun _ _ he ↦ Or.inl he.1)
    rintro _ t ⟨⟨ht, hrecord⟩, hcalm⟩
    obtain ⟨i₁, hmem₁, hfile⟩ := hcalm.inodes ino i hmem'
    refine (retireInode_drops ht.sound hrecord hmem₁ hfile.xattrBlock.symm hfile.extentTree.symm
      hfile.extentTreeBlocks.symm).mono ?_ (fun _ _ he ↦ Or.inl he)
    intro _ u hu
    have hshell := hedited.shell.trans ht.shell
    have hsb : t.sb = s.sb := hshell.sb
    have hfree : t.freeInodes = s.freeInodes := by rw [hshell]
    refine ⟨⟨_, node_of_mem hmem⟩, hu.sound, ?_, ?_, ?_, ?_, ?_⟩
    · rw [hu.node, ht.node, Function.update_idem]
      funext k
      by_cases hk : k = ino
      · rw [hk, Function.update_self, Function.update_self]
      · rw [Function.update_of_ne hk, Function.update_of_ne hk, hedited.node_ne hk]
    · rw [hu.freeInodes, hfree]
    · rw [hu.sb, hsb]
    · rw [← hsb]
      exact hu.inRange
    · rw [hu.same, hshell]

end LinuxFile.Inner
