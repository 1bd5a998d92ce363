import LinuxFile.Spec.Flush

/-!
# Inode numbers

Growing the inode table keeps the slots it has. A new number is taken from the free list, or is the
next one; its slot may hold old bytes, since the blocks of the table are not cleared.
-/

namespace LinuxFile

open Ledger

/-! ## Appending to the table -/

theorem contiguous_append {first : ℕ} {extents : List Extent} {e : Extent} :
    Contiguous first (extents ++ [e]) ↔ Contiguous first extents ∧
      Contiguous (first + (extents.map Extent.length).sum) [e] := by
  induction extents generalizing first with
  | nil => simp [Contiguous]
  | cons a rest ih =>
    simp only [List.cons_append, Contiguous, ih, List.map_cons, List.sum_cons, Nat.add_assoc, and_assoc]

/-- The table's extents with `add` blocks at `start` behind them. -/
structure Appended (extents : List Extent) (start add : ℕ) (extents' : List Extent) : Prop where
  contiguous : Contiguous 0 extents'
  sum : (extents'.map Extent.length).sum = (extents.map Extent.length).sum + add
  cover : ∀ b, cover (extents'.map (fun e ↦ (e.physical, e.length))) b =
    cover (extents.map (fun e ↦ (e.physical, e.length))) b + span start add b
  map : ∀ n phys, mapExtents extents n = some phys → mapExtents extents' n = some phys
  stored : (∀ e ∈ extents, e.stored = e) → (extents.map Extent.length).sum < 2 ^ 64 → start < 2 ^ 64 →
    ∀ e ∈ extents', e.stored = e

theorem Extent.new_stored {logical physical length : ℕ} (hlogical : logical < 2 ^ 64)
    (hphysical : physical < 2 ^ 64) (hlength : length < 2 ^ 32) :
    (Extent.new logical physical length).stored = Extent.new logical physical length := by
  unfold Extent.stored
  change Extent.new (logical % 2 ^ 64) (physical % 2 ^ 64) (length % 2 ^ 32) = _
  rw [Nat.mod_eq_of_lt hlogical, Nat.mod_eq_of_lt hphysical, Nat.mod_eq_of_lt hlength]

theorem mapExtents_append (a b : List Extent) (n : ℕ) :
    mapExtents (a ++ b) n = (mapExtents a n).or (mapExtents b n) := by
  unfold mapExtents
  rw [List.findSome?_append]

/-- An extent of its own behind the others. -/
theorem appended_new {extents : List Extent} (h : Contiguous 0 extents) {start add : ℕ} (hadd : 0 < add)
    (hsmall : add < u32Limit) {logical : ℕ} (hlogical : logical = (extents.map Extent.length).sum) :
    Appended extents start add (extents ++ [Extent.new logical start add]) := by
  refine ⟨?_, ?_, fun b ↦ ?_, fun n phys hn ↦ ?_, fun hstored hsum hstart e he ↦ ?_⟩
  · exact contiguous_append.mpr ⟨h, by rw [Nat.zero_add]; exact hlogical, hadd, hsmall, rfl, rfl, trivial⟩
  · rw [List.map_append, List.sum_append]
    rfl
  · rw [List.map_append, cover_append]
    rfl
  · rw [mapExtents_append, hn]
    rfl
  · rcases List.mem_append.mp he with he | he
    · exact hstored e he
    · rw [List.mem_singleton.mp he]
      exact Extent.new_stored (by omega) hstart hsmall

/-- The last extent gets longer. -/
theorem appended_longer {init : List Extent} {last : Extent} (h : Contiguous 0 (init ++ [last])) {add : ℕ}
    (hsmall : last.length + add < u32Limit) :
    Appended (init ++ [last]) (last.physical + last.length) add
      (init ++ [{ last with length := last.length + add }]) := by
  obtain ⟨hinit, hlog, hpos, hlt, hphys, hcomp, -⟩ := contiguous_append.mp h
  refine ⟨?_, ?_, fun b ↦ ?_, fun n phys hn ↦ ?_, fun hstored hsum hstart e he ↦ ?_⟩
  · exact contiguous_append.mpr ⟨hinit, hlog, by change 0 < _ + _; omega, hsmall, hphys, hcomp, trivial⟩
  · rw [List.map_append, List.map_append, List.sum_append, List.sum_append]
    change _ + (last.length + add + 0) = _ + (last.length + 0) + add
    omega
  · rw [List.map_append, List.map_append, cover_append, cover_append]
    change _ + (span last.physical (last.length + add) b + 0) =
      _ + (span last.physical last.length b + 0) + _
    rw [span_add]
    omega
  · rw [mapExtents_append] at hn ⊢
    cases hi : mapExtents init n with
    | some p =>
      rw [hi] at hn
      exact hn
    | none =>
      rw [hi] at hn
      have hmap : last.map n = some phys := by
        change mapExtents [last] n = some phys at hn
        unfold mapExtents at hn
        simpa using hn
      obtain ⟨⟨hlow, hhigh⟩, rfl⟩ := Extent.map_eq_some_iff.mp hmap
      have hlonger : Extent.map { last with length := last.length + add } n =
          some (last.physical + (n - last.logical)) := by
        refine Extent.map_eq_some_iff.mpr ⟨⟨hlow, ?_⟩, rfl⟩
        unfold Extent.logicalEnd at *
        dsimp only
        omega
      change mapExtents [_] n = _
      unfold mapExtents
      rw [List.findSome?_cons, hlonger]
  · rcases List.mem_append.mp he with he | he
    · exact hstored e (List.mem_append_left _ he)
    · rw [List.map_append, List.sum_append] at hsum
      change _ + (last.length + 0) < _ at hsum
      have hlonger : ({ last with length := last.length + add } : Extent) =
          Extent.new last.logical last.physical (last.length + add) := by
        rw [Extent.new, ← hphys, ← hcomp]
      rw [List.mem_singleton.mp he, hlonger]
      exact Extent.new_stored (by omega) (by omega) hsmall

theorem Appended.capacity {start add : ℕ} {sb : Superblock} {extents : List Extent}
    (hadd : Appended sb.inodeTableExtents start add extents) :
    inodeTableCapacity { sb with inodeTableExtents := extents } =
      inodeTableCapacity sb + add * inodesPerBlock := by
  unfold inodeTableCapacity
  rw [hadd.sum, Nat.add_mul]

namespace Inner

variable {T : ℕ → Prop} {s t : Inner} {live live' : KeyMap Inode} {hand : List (ℕ × ℕ)} {ino : ℕ}
  {i : Inode}

theorem appendTable_spec {extents : List Extent} (h : Contiguous 0 extents) {start add : ℕ}
    (hadd : 0 < add) (hsmall : add < u32Limit) :
    (appendTable extents start add).Holds s
      (fun extents' t ↦ t = s ∧ Appended extents start add extents') (fun _ _ ↦ False) := by
  unfold appendTable
  cases hlast : extents.getLast? with
  | none =>
    rw [List.getLast?_eq_none_iff] at hlast
    subst hlast
    exact ⟨rfl, appended_new h hadd hsmall rfl⟩
  | some last =>
    obtain ⟨init, rfl⟩ := List.getLast?_eq_some_iff.mp hlast
    obtain ⟨-, hlog, -, -, hphys, -, -⟩ := contiguous_append.mp h
    have hlen : last.physLen = last.length := by
      unfold Extent.physLen
      rw [hphys]
      rfl
    dsimp only
    by_cases hnext : last.physicalEnd = start
    · rw [if_pos hnext, Exec.holds_bind]
      refine holds_addU32 fun hlt ↦ ?_
      rw [List.dropLast_concat]
      refine ⟨rfl, ?_⟩
      rw [← hnext, Extent.physicalEnd, hlen]
      exact appended_longer h hlt
    · rw [if_neg hnext]
      refine ⟨rfl, appended_new h hadd hsmall ?_⟩
      rw [List.map_append, List.sum_append, Extent.logicalEnd, hlog]
      simp

/-! ## A longer table -/

theorem SlotAll.longer {start add : ℕ} {extents : List Extent} {P : Buf inodeSize → Prop}
    (h : s.SlotAll ino P) (hadd : Appended s.sb.inodeTableExtents start add extents) :
    SlotAll { s with sb := { s.sb with inodeTableExtents := extents } } ino P := by
  obtain ⟨phys, off, hmap, hcopies⟩ := h
  obtain ⟨hoff, -, hphys⟩ := slot_bounds hmap
  refine ⟨phys, off, ?_, hcopies⟩
  rw [hoff]
  exact mapInodeSlot_of_map (hadd.map _ _ hphys)

/-- Blocks in hand become blocks of the table. -/
theorem Inv.longer {start add : ℕ} {extents : List Extent} (h : s.Inv live ((start, add) :: hand))
    (hadd : Appended s.sb.inodeTableExtents start add extents) :
    Inv { s with sb := { s.sb with inodeTableExtents := extents } } live hand := by
  have hblocks : ∀ ranges, KeepsBlocks ranges s
      { s with sb := { s.sb with inodeTableExtents := extents } } := fun _ _ _ _ hP ↦ hP
  refine ⟨{ h.geometry with table := hadd.contiguous, next := ?_ }, ⟨h.owned.alloc, fun b ↦ ?_⟩, ?_, ?_⟩
  · refine ⟨h.geometry.next.1, h.geometry.next.2.trans ?_⟩
    change _ ≤ inodeTableCapacity { s.sb with inodeTableExtents := extents }
    rw [hadd.capacity]
    omega
  · have h1 := h.owned.fits b
    have h2 := hadd.cover b
    unfold load tableRanges at h1
    rw [cover_cons] at h1
    change cover s.alloc.free.entries b + cover (extents.map fun e ↦ (e.physical, e.length)) b +
      cover s.mapRanges b + live.total (fun _ i ↦ cover i.ranges b) + cover hand b ≤ s.alloc.area b
    dsimp only at h1
    omega
  · exact { h.numbered with
      record := fun c hc ↦ ⟨(h.numbered.record c hc).length_le, (h.numbered.record c hc).index_le,
        (h.numbered.record c hc).owner⟩ }
  · refine ⟨fun k i hk hclean ↦ ?_, fun k i hk hnone ↦ ?_, fun k hpos hnext hk ↦ ?_, ?_, ?_⟩
    · exact (h.onDisk.stored k i hk hclean).keep (fun _ hs ↦ hs.longer hadd) (hblocks _) (hblocks _)
    · exact (h.onDisk.parked k i hk hnone).keep (fun _ hs ↦ hs.longer hadd) (hblocks _)
    · exact (h.onDisk.dead k hpos hnext hk).longer hadd
    · exact h.onDisk.headers
    · exact h.onDisk.map

/-- What growing the table changes. -/
structure TableGrown (s : Inner) (live : KeyMap Inode) (t : Inner) : Prop where
  inv : t.Inv live []
  table : ∃ start, start < u64Limit ∧
    Appended s.sb.inodeTableExtents start 2 t.sb.inodeTableExtents
  sb : t.sb = { s.sb with inodeTableExtents := t.sb.inodeTableExtents }
  disk : CachedImage.Quiet s.disk t.disk
  same : t = { s with alloc := t.alloc, image := t.image, sb := t.sb }

theorem growInodeTable_spec (h : s.Inv live []) :
    growInodeTable.Holds s (fun _ t ↦ TableGrown s live t) (fun e _ ↦ e.IsHost) := by
  unfold growInodeTable
  rw [Exec.holds_bind, onAlloc, Exec.holds_zoom]
  refine (Allocator.allocate_spec ⟨s.alloc, s.image⟩ h.owned.alloc Nat.zero_lt_two).mono ?_
    (fun _ _ he ↦ he.1)
  rintro start d ⟨hok, htook, hgrown, htotal⟩
  have hinv := h.took hok htook hgrown htotal
  have hstart : start < u64Limit := by
    have hin := hinv.lt_total (b := start) (by
      rw [cover_cons, span_eq_one (by dsimp only; omega)]
      omega)
    exact hin.2.trans hinv.geometry.total
  rw [Exec.holds_bind, Exec.holds_read]
  refine (appendTable_spec h.geometry.table Nat.zero_lt_two (by decide)).bind ?_ (fun _ _ he ↦ he.elim)
  rintro extents _ ⟨rfl, hadd⟩
  rw [Exec.holds_modify]
  exact ⟨hinv.longer hadd, ⟨start, hstart, hadd⟩, rfl, CachedImage.Step.of_grown hgrown, rfl⟩

/-! ## A new inode -/

/-- An inode without blocks gets a number that is not in use. -/
theorem Inv.born (h : s.Inv live hand) (sb : Superblock) (free : List ℕ) (hnone : live.find? ino = none)
    (hlow : firstUserIno ≤ ino) (hhigh : ino < sb.nextInode) (hmono : s.sb.nextInode ≤ sb.nextInode)
    (honly : ∀ k, k < sb.nextInode → k < s.sb.nextInode ∨ k = ino)
    (hcap : sb.nextInode ≤ inodeTableCapacity s.sb)
    (htable : sb.inodeTableExtents = s.sb.inodeTableExtents)
    (hfirst : sb.firstDataBlock = s.sb.firstDataBlock ∧ sb.journalBlocks = s.sb.journalBlocks)
    (hmap : sb.allocBlock = s.sb.allocBlock) (hnodup : free.Nodup)
    (hfree : ∀ k ∈ free, k ∈ s.freeInodes ∧ k ≠ ino) (hino : i.ino = ino) (hwf : i.Wf)
    (hranges : i.ranges = []) (hext : i.extents = []) :
    Inv { s with
      sb := sb
      freeInodes := free
      inodes := s.inodes.insert ino i
      dirtyInodes := s.dirtyInodes.insert ino () } (live.insert ino i) hand := by
  set u : Inner := { s with
    sb := sb
    freeInodes := free
    inodes := s.inodes.insert ino i
    dirtyInodes := s.dirtyInodes.insert ino () } with hu
  have hslot : ∀ k P, s.SlotAll k P → u.SlotAll k P := by
    rintro k P ⟨phys, off, hphys, hcopies⟩
    refine ⟨phys, off, ?_, hcopies⟩
    have hsame : u.sb.inodeTableExtents = s.sb.inodeTableExtents := htable
    rw [← hphys]
    unfold mapInodeSlot
    rw [hsame]
  have hblocks : ∀ ranges, KeepsBlocks ranges s u := fun _ _ _ _ hP ↦ hP
  have hmapRanges : u.mapRanges = s.mapRanges := by
    unfold mapRanges
    change (if sb.allocBlock = 0 then [] else _) = _
    rw [hmap]
  have hold : ∀ k j, (live.insert ino i).find? k = some j → k ≠ ino → live.find? k = some j := by
    intro k j hk hne
    rwa [KeyMap.find?_insert_of_ne hne] at hk
  have hself : ∀ j, (live.insert ino i).find? ino = some j → j = i := by
    intro j hj
    rw [KeyMap.find?_insert_self] at hj
    cases hj
    rfl
  have hmemne : ∀ k j, s.inodes.find? k = some j → k ≠ ino := by
    rintro k j hk rfl
    rw [h.numbered.memory k j hk] at hnone
    cases hnone
  refine ⟨?_, ⟨h.owned.alloc, fun b ↦ ?_⟩, ⟨?_, ?_, ?_, ?_, hnodup, ?_, ?_⟩, ⟨?_, ?_, ?_, ?_, ?_⟩⟩
  · refine ⟨h.geometry.image, h.geometry.first.trans hfirst.1.symm, ?_, ?_, h.geometry.backed,
      ⟨h.geometry.journal.1, ?_⟩, h.geometry.total, ?_, ?_, h.geometry.records, h.geometry.waiting⟩
    · change sb.firstDataBlock = 2 + sb.journalBlocks
      rw [hfirst.1, hfirst.2]
      exact h.geometry.data
    · change sb.firstDataBlock * blockSize ≤ _
      rw [hfirst.1]
      exact h.geometry.inside
    · change s.journal.blocks = sb.journalBlocks
      rw [hfirst.2]
      exact h.geometry.journal.2
    · change Contiguous 0 sb.inodeTableExtents
      rw [htable]
      exact h.geometry.table
    · refine ⟨h.geometry.next.1.trans hmono, ?_⟩
      change sb.nextInode ≤ inodeTableCapacity sb
      unfold inodeTableCapacity at *
      rw [htable]
      exact hcap
  · have h1 := h.owned.fits b
    have h2 := KeyMap.total_add (fun _ i ↦ cover i.ranges b) i hnone
    rw [hranges, cover_nil, Nat.add_zero] at h2
    unfold load at h1 ⊢
    rw [hmapRanges, h2]
    change _ + cover (sb.inodeTableExtents.map fun e ↦ (e.physical, e.length)) b + _ + _ + _ ≤ _
    rw [htable]
    exact h1
  · intro k j hk
    change (s.inodes.insert ino i).find? k = some j at hk
    rw [KeyMap.find?_insert] at hk ⊢
    split_ifs at hk ⊢
    · exact hk
    · exact h.numbered.memory k j hk
  · intro k hk
    change ∃ j, (s.inodes.insert ino i).find? k = some j
    obtain ⟨v, hv⟩ := KeyMap.contains_iff.mp hk
    change (s.dirtyInodes.insert ino ()).find? k = some v at hv
    rw [KeyMap.find?_insert] at hv ⊢
    split_ifs at hv ⊢
    · exact ⟨i, rfl⟩
    · exact h.numbered.dirty k (KeyMap.contains_iff.mpr ⟨v, hv⟩)
  · intro k j hk
    by_cases hne : k = ino
    · subst hne
      rw [hself j hk]
      exact ⟨by unfold firstUserIno at hlow; omega, hhigh, hino⟩
    · obtain ⟨h1, h2, h3⟩ := h.numbered.keys k j (hold k j hk hne)
      exact ⟨h1, Nat.lt_of_lt_of_le h2 hmono, h3⟩
  · intro k j hk
    by_cases hne : k = ino
    · subst hne
      rw [hself j hk]
      exact hwf
    · exact h.numbered.shape k j (hold k j hk hne)
  · intro k hk
    obtain ⟨hmem, hne⟩ := hfree k hk
    obtain ⟨h1, h2, h3⟩ := h.numbered.free k hmem
    exact ⟨h1, Nat.lt_of_lt_of_le h2 hmono, by rw [KeyMap.find?_insert_of_ne hne]; exact h3⟩
  · intro c hc
    have hok := h.numbered.record c hc
    refine ⟨hok.length_le, hok.index_le, fun hdirty ↦ ?_⟩
    obtain ⟨x, hx, huses⟩ := hok.owner hdirty
    refine ⟨x, ?_, huses⟩
    change (s.inodes.insert ino i).find? c.ino = some x
    rw [KeyMap.find?_insert_of_ne (hmemne _ x hx)]
    exact hx
  · intro k j hk hclean
    change (s.dirtyInodes.insert ino ()).contains k = false at hclean
    have hne : k ≠ ino := by
      rintro rfl
      unfold KeyMap.contains at hclean
      rw [KeyMap.find?_insert_self] at hclean
      cases hclean
    unfold KeyMap.contains at hclean
    rw [KeyMap.find?_insert_of_ne hne] at hclean
    exact (h.onDisk.stored k j (hold k j hk hne) hclean).keep (fun _ ↦ hslot k _) (hblocks _) (hblocks _)
  · intro k j hk hmem
    change (s.inodes.insert ino i).find? k = none at hmem
    have hne : k ≠ ino := by
      rintro rfl
      rw [KeyMap.find?_insert_self] at hmem
      cases hmem
    rw [KeyMap.find?_insert_of_ne hne] at hmem
    exact (h.onDisk.parked k j (hold k j hk hne) hmem).keep (fun _ ↦ hslot k _) (hblocks _)
  · intro k hpos hnext hk
    have hne : k ≠ ino := by
      rintro rfl
      rw [KeyMap.find?_insert_self] at hk
      cases hk
    rw [KeyMap.find?_insert_of_ne hne] at hk
    exact hslot k _ (h.onDisk.dead k hpos ((honly k hnext).resolve_right hne) hk)
  · intro k j hk e he
    by_cases hne : k = ino
    · subst hne
      rw [hself j hk, hext] at he
      cases he
    · exact h.onDisk.headers k j (hold k j hk hne) e he
  · intro b hb
    rw [hmapRanges] at hb
    exact h.onDisk.map b hb

/-- The inode `alloc_inode` starts with. -/
def newInode (s : Inner) (ino : ℕ) (mode : UInt16) (uid gid : UInt32) : Inode :=
  { Inode.new s.env.now ino mode uid gid with compression := s.defaultCompression.asU8 }

theorem newInode_wf (s : Inner) (ino : ℕ) (mode : UInt16) (uid gid : UInt32) :
    (newInode s ino mode uid gid).Wf := by
  refine ⟨?_, List.Pairwise.nil, Iff.rfl, Nat.zero_le _, fun _ ↦ rfl⟩
  intro e he
  cases he

theorem holds_addU64 {σ : Type} {a b : ℕ} {s : σ} {Q : ℕ → σ → Prop} {E : Error → σ → Prop}
    (h : a + b < u64Limit → Q (a + b) s) : (addU64 a b : Exec Error σ ℕ).Holds s Q E := by
  unfold addU64
  split_ifs with hlt
  · trivial
  · exact h (by omega)

/-- Numbers that are all different and below a bound are at most that many. -/
theorem Numbered.free_length (h : s.Numbered live) : s.freeInodes.length ≤ s.sb.nextInode := by
  have hsub : s.freeInodes.toFinset ⊆ Finset.range s.sb.nextInode := by
    intro k hk
    rw [List.mem_toFinset] at hk
    exact Finset.mem_range.mpr (h.free k hk).2.1
  calc s.freeInodes.length = s.freeInodes.toFinset.card := (List.toFinset_card_of_nodup h.nodup).symm
    _ ≤ (Finset.range s.sb.nextInode).card := Finset.card_le_card hsub
    _ = s.sb.nextInode := Finset.card_range _

/-- What a successful `alloc_inode` changes. -/
structure NewInode (s : Inner) (live : KeyMap Inode) (ino : ℕ) (i : Inode) (t : Inner) : Prop where
  inv : t.Inv (live.insert ino i) []
  unused : live.find? ino = none
  low : firstUserIno ≤ ino
  number : ino < t.sb.nextInode
  next : s.sb.nextInode ≤ t.sb.nextInode
  slots : ∀ k P, s.SlotAll k P → t.SlotAll k P
  disk : CachedImage.Quiet s.disk t.disk
  inRange : s.sb.InRange → t.sb.InRange
  inodes : t.inodes = s.inodes.insert ino i
  same : t = { s with
    alloc := t.alloc
    image := t.image
    sb := t.sb
    freeInodes := t.freeInodes
    inodes := t.inodes
    dirtyInodes := t.dirtyInodes }

/-- The part of `alloc_inode` after the number is known. -/
def installInode (ino : ℕ) (mode : UInt16) (uid gid : UInt32) : Fs ℕ := do
  let s ← Exec.get
  putInode ino
    { Inode.new s.env.now ino mode uid gid with compression := s.defaultCompression.asU8 }
  markDirty ino
  let count ← addU64 s.sb.inodeCount 1
  Exec.modify (fun s ↦ { s with sb := { s.sb with inodeCount := count } })
  pure ino

theorem installInode_spec (mode : UInt16) (uid gid : UInt32) :
    (installInode ino mode uid gid).Holds s
      (fun n t ↦ n = ino ∧ s.sb.inodeCount + 1 < u64Limit ∧ t = { s with
        sb := { s.sb with inodeCount := s.sb.inodeCount + 1 }
        inodes := s.inodes.insert ino (newInode s ino mode uid gid)
        dirtyInodes := s.dirtyInodes.insert ino () })
      (fun _ _ ↦ False) := by
  unfold installInode
  rw [Exec.holds_bind_of_ok (Exec.get_apply s), Exec.holds_bind_of_ok (show putInode ino _ s = .ok () _ from rfl),
    Exec.holds_bind_of_ok (show markDirty ino _ = .ok () _ from rfl), Exec.holds_bind]
  refine holds_addU64 fun hlt ↦ ?_
  exact ⟨rfl, hlt, rfl⟩

/-- The state in which the next number has a slot. -/
structure Roomy (s : Inner) (live : KeyMap Inode) (t : Inner) : Prop where
  inv : t.Inv live []
  room : s.sb.nextInode < inodeTableCapacity t.sb
  sb : t.sb = { s.sb with inodeTableExtents := t.sb.inodeTableExtents }
  slots : ∀ k P, s.SlotAll k P → t.SlotAll k P
  disk : CachedImage.Quiet s.disk t.disk
  inRange : s.sb.InRange → t.sb.InRange
  same : t = { s with alloc := t.alloc, image := t.image, sb := t.sb }

theorem TableGrown.slots (h : TableGrown s live t) {P : Buf inodeSize → Prop} {k : ℕ}
    (hs : s.SlotAll k P) : t.SlotAll k P := by
  obtain ⟨start, -, hadd⟩ := h.table
  obtain ⟨phys, off, hphys, hcopies⟩ := hs.longer hadd
  refine ⟨phys, off, ?_, h.disk.copies phys (fun hw ↦ hw.elim) _ hcopies⟩
  rw [h.sb]
  exact hphys

theorem roomy_spec (h : s.Inv live []) :
    (Exec.when (inodeTableCapacity s.sb ≤ s.sb.nextInode) growInodeTable).Holds s
      (fun _ t ↦ Roomy s live t) (fun e _ ↦ e.IsHost) := by
  rw [Exec.holds_when]
  refine ⟨fun hfull ↦ ?_, fun hroom ↦ ?_⟩
  · refine (growInodeTable_spec h).mono ?_ (fun _ _ he ↦ he)
    intro _ t hg
    obtain ⟨start, hstart, hadd⟩ := hg.table
    refine ⟨hg.inv, ?_, hg.sb, fun k P hs ↦ hg.slots hs, hg.disk, fun hr ↦ ?_, hg.same⟩
    · have hcap := hadd.capacity
      rw [hg.sb, hcap]
      have := h.geometry.next.2
      unfold inodesPerBlock
      omega
    · have hnext := hr.nextInode
      have hsum : (s.sb.inodeTableExtents.map Extent.length).sum < 2 ^ 64 := by
        unfold inodeTableCapacity inodesPerBlock at hfull
        omega
      rw [hg.sb]
      exact { hr with extents := hadd.stored hr.extents hsum hstart }
  · exact ⟨h, by omega, rfl, fun _ _ hs ↦ hs, CachedImage.Step.refl _ _, id, rfl⟩

theorem allocInode_eq (mode : UInt16) (uid gid : UInt32) :
    allocInode mode uid gid = (do
      requireWrite
      let ino ← takeInodeNumber
      installInode ino mode uid gid) := rfl

theorem allocInode_spec (h : s.Inv live []) (mode : UInt16) (uid gid : UInt32) :
    (allocInode mode uid gid).Holds s
      (fun ino t ↦ NewInode s live ino (newInode s ino mode uid gid) t)
      (fun e t ↦ e.IsHost ∨ t = s) := by
  rw [allocInode_eq]
  unfold requireWrite
  rw [Exec.holds_bind, Exec.holds_bind, Exec.holds_read]
  split_ifs with hwritable
  swap
  · exact Or.inr rfl
  rw [Exec.holds_pure]
  unfold takeInodeNumber
  rw [Exec.holds_bind, Exec.holds_bind, Exec.holds_read]
  cases hlast : s.freeInodes.getLast? with
  | some ino =>
    obtain ⟨init, hinit⟩ := List.getLast?_eq_some_iff.mp hlast
    have hmem : ino ∈ s.freeInodes := by rw [hinit]; simp
    obtain ⟨hlow, hhigh, hnone⟩ := h.numbered.free ino hmem
    have hnodup := h.numbered.nodup
    have hlen := h.numbered.free_length
    rw [hinit, List.nodup_append] at hnodup
    dsimp only
    rw [Exec.holds_bind, Exec.holds_modify, Exec.holds_pure, hinit, List.dropLast_concat]
    refine (installInode_spec mode uid gid).mono ?_ (fun _ _ he ↦ he.elim)
    rintro _ t ⟨rfl, hcount, rfl⟩
    refine ⟨?_, hnone, hlow, hhigh, le_rfl, fun k P hs ↦ hs, CachedImage.Step.refl _ _, fun hr ↦ ?_, rfl,
      rfl⟩
    · exact h.born _ init hnone hlow hhigh le_rfl (fun _ hk ↦ Or.inl hk) h.geometry.next.2 rfl ⟨rfl, rfl⟩ rfl
        hnodup.1 (fun k hk ↦ ⟨by rw [hinit]; exact List.mem_append_left _ hk, fun hki ↦
          hnodup.2.2 k hk _ (by simp) hki⟩) rfl (newInode_wf _ _ _ _ _) rfl rfl
    · have hnext := hr.nextInode
      refine { hr with inodeCount := hcount, freeInodeCount := ?_ }
      change init.length < 2 ^ 64
      rw [hinit, List.length_append] at hlen
      omega
  | none =>
    have hnil : s.freeInodes = [] := List.getLast?_eq_none_iff.mp hlast
    dsimp only
    rw [Exec.holds_bind, Exec.holds_read]
    refine (roomy_spec h).bind ?_ (fun _ _ he ↦ Or.inl he)
    intro _ g hg
    have hfree : g.freeInodes = [] := by rw [hg.same]; exact hnil
    have hgnext : g.sb.nextInode = s.sb.nextInode := by rw [hg.sb]
    have hnone : live.find? s.sb.nextInode = none := by
      cases hk : live.find? s.sb.nextInode with
      | none => rfl
      | some i =>
        have := (h.numbered.keys _ i hk).2.1
        omega
    rw [Exec.holds_bind]
    refine holds_addU64 fun hnext ↦ ?_
    rw [Exec.holds_bind, Exec.holds_modify, Exec.holds_pure]
    refine (installInode_spec mode uid gid).mono ?_ (fun _ _ he ↦ he.elim)
    rintro _ t ⟨rfl, hcount, rfl⟩
    have hnew : newInode { g with sb := { g.sb with nextInode := s.sb.nextInode + 1 } } s.sb.nextInode
        mode uid gid = newInode s s.sb.nextInode mode uid gid := by
      unfold newInode
      rw [hg.same]
    have hinv := hg.inv.born (i := newInode s s.sb.nextInode mode uid gid)
      { g.sb with nextInode := s.sb.nextInode + 1, inodeCount := g.sb.inodeCount + 1 } g.freeInodes hnone
      h.geometry.next.1 (Nat.lt_succ_self _) (by rw [hgnext]; exact Nat.le_succ _)
      (fun k hk ↦ by change k < s.sb.nextInode + 1 at hk; omega) (Nat.succ_le_of_lt hg.room) rfl
      ⟨rfl, rfl⟩ rfl
      (by rw [hfree]; exact List.nodup_nil) (fun k hk ↦ by rw [hfree] at hk; cases hk) rfl
      (newInode_wf _ _ _ _ _) rfl rfl
    dsimp only
    rw [hnew]
    refine ⟨hinv, hnone, h.geometry.next.1, Nat.lt_succ_self _, Nat.le_succ _, fun k P hs ↦ ?_,
      hg.disk, fun hr ↦ ?_, ?_, ?_⟩
    · exact hg.slots k P hs
    · exact { hg.inRange hr with nextInode := hnext, inodeCount := hcount }
    · change g.inodes.insert _ _ = _
      rw [hg.same]
    · rw [hg.same]

end Inner

end LinuxFile
