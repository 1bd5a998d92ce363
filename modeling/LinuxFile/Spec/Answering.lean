import LinuxFile.Spec.Reload
import LinuxFile.Spec.Returns

/-!
# A host that answers

A host that has no refusals left fails no read of a block that lies in the file. What has to make room in the cache is
written in place, because nothing that waits to be written lies past the end. So reading a tree, an inode or a file has
a result, which the rules for partial correctness then describe.
-/

namespace LinuxFile

namespace CachedImage

/-- The host refuses nothing any more, and what waits to be written lies in the file. -/
structure Answering (d : CachedImage) : Prop where
  faults : d.image.faults = []
  writable : d.image.hostWritable = true ∨ ∀ b, ¬d.DirtyAt b
  waiting : ∀ b, d.DirtyAt b → b * blockSize + blockSize ≤ d.image.len

/-- The host still answers, and the file has kept its length. -/
structure Served (d d' : CachedImage) : Prop where
  answering : d'.Answering
  len : d'.image.len = d.image.len

variable {d d' d'' : CachedImage}

theorem Answering.served (h : d.Answering) : Served d d := ⟨h, rfl⟩

theorem Served.trans (hd : Served d d') (hd' : Served d' d'') : Served d d'' :=
  ⟨hd'.answering, hd'.len.trans hd.len⟩

/-- Another cache over the same file, in which no other block is dirty. -/
theorem Answering.recached (h : d.Answering) {cache : BlockCache}
    (hdirty : ∀ b, (⟨cache, d.image⟩ : CachedImage).DirtyAt b → d.DirtyAt b) : Served d ⟨cache, d.image⟩ :=
  ⟨⟨h.faults, h.writable.imp_right fun hnone b hb ↦ hnone b (hdirty b hb), fun b hb ↦ h.waiting b (hdirty b hb)⟩, rfl⟩

/-- A decidable form of `Answering`. -/
def answers (d : CachedImage) : Bool :=
  d.image.faults.isEmpty && d.image.hostWritable &&
    d.cache.map.entries.all fun e ↦ decide (e.1 * blockSize + blockSize ≤ d.image.len)

theorem Answering.of_test (h : d.answers = true) : d.Answering := by
  unfold answers at h
  rw [Bool.and_eq_true, Bool.and_eq_true] at h
  obtain ⟨⟨hfaults, hwritable⟩, hcached⟩ := h
  refine ⟨List.isEmpty_iff.mp hfaults, Or.inl hwritable, ?_⟩
  rintro b ⟨e, he, -⟩
  exact of_decide_eq_true (List.all_eq_true.mp hcached (b, e) (KeyMap.find?_eq_some_iff.mp he))

end CachedImage

open CachedImage Ledger

namespace BlockCache

variable {d : CachedImage}

theorem evictFrom_served (blocks : List ℕ) (h : d.Answering) :
    (evictFrom blocks).Holds d (fun _ d' ↦ Served d d') (fun _ _ ↦ False) := by
  induction blocks with
  | nil => exact h.recached fun _ hb ↦ hb
  | cons old rest ih =>
    unfold evictFrom
    rw [Exec.holds_bind, Exec.holds_read]
    cases he : d.cache.map.find? old with
    | none => exact ih
    | some entry =>
      dsimp only
      rw [Exec.holds_bind, modifyCache, Exec.holds_modify]
      have herased : ∀ b, (⟨{ d.cache with lru := rest, map := d.cache.map.erase old }, d.image⟩ : CachedImage).DirtyAt b →
          d.DirtyAt b := by
        rintro b ⟨e, hfind, hd⟩
        change (d.cache.map.erase old).find? b = some e at hfind
        rw [KeyMap.find?_erase] at hfind
        split_ifs at hfind
        exact ⟨e, hfind, hd⟩
      have hserved := h.recached herased
      by_cases hdirty : entry.dirty = true
      · rw [if_pos hdirty, onImage, Exec.holds_zoom]
        have hinside : old * blockSize + (entry.data.slice 0 blockSize).length ≤ d.image.len := by
          rw [Buf.slice_length]
          exact h.waiting old ⟨entry, he, hdirty⟩
        have hwritable := h.writable.resolve_right fun hnone ↦ hnone old ⟨entry, he, hdirty⟩
        have hwrite : Image.writeBlock old entry.data d.image =
            .ok () (d.image.writeBytes (old * blockSize) (entry.data.slice 0 blockSize)) :=
          Image.writeAllAt_answers h.faults hwritable hinside
        rw [Exec.holds_iff_of_ok hwrite]
        exact ⟨⟨hserved.answering.faults, hserved.answering.writable, hserved.answering.waiting⟩, rfl⟩
      · rw [if_neg hdirty]
        exact hserved

theorem makeRoom_served (h : d.Answering) : makeRoom.Holds d (fun _ d' ↦ Served d d') (fun _ _ ↦ False) := by
  unfold makeRoom evictOne
  rw [Exec.holds_bind, Exec.holds_read]
  split_ifs
  · rw [Exec.holds_bind, Exec.holds_read]
    exact evictFrom_served _ h
  · exact h.served

/-- A block of the file can be read. -/
theorem get_served (h : d.Answering) {b : ℕ} (hb : b * blockSize + blockSize ≤ d.image.len) :
    (get b).Meets d (fun _ d' ↦ Served d d') (fun _ _ ↦ False) False := by
  refine Exec.Holds.meets ?_ (get_returns b d)
  unfold get
  rw [Exec.holds_bind, Exec.holds_read]
  cases hhit : d.cache.map.find? b with
  | some entry => exact h.recached fun _ hb ↦ hb
  | none =>
    refine (makeRoom_served h).bind ?_ (fun _ _ he ↦ he)
    intro _ d₁ hd₁
    have hin : b * blockSize + blockSize ≤ d₁.image.len := by
      rw [hd₁.len]
      exact hb
    have hfetch : fetch b d₁ = .ok (d₁.image.block b) d₁ := by
      unfold fetch
      rw [Exec.bind_eq_of_ok (Exec.read_apply _ _), if_pos hin, onImage, Exec.zoom,
        Image.readBlock_answers hd₁.answering.faults hin]
    rw [Exec.holds_bind_of_ok hfetch, Exec.holds_bind, modifyCache, Exec.holds_modify, Exec.holds_pure]
    refine hd₁.trans (hd₁.answering.recached ?_)
    rintro c ⟨e, hfind, hd⟩
    change (d₁.cache.map.insert b ⟨d₁.image.block b, false⟩).find? c = some e at hfind
    rw [KeyMap.find?_insert] at hfind
    split_ifs at hfind
    · cases hfind
      cases hd
    · exact ⟨e, hfind, hd⟩

end BlockCache

namespace Inner

variable {α β : Type} {s t u : Inner} {i : Inode} {ino k : ℕ}

/-- No change of the record in memory waits to be stored. -/
def NothingHeld (s : Inner) : Prop := ∀ c, s.recordCache = some c → c.dirty = false

/-- The host still answers, the file has kept its length, and no inode in memory is forgotten. -/
structure Served (s t : Inner) : Prop where
  disk : CachedImage.Served s.disk t.disk
  held : s.NothingHeld → t.NothingHeld
  inodes : ∀ k i, s.inodes.find? k = some i → t.inodes.find? k = some i
  counts : t.openCount = s.openCount

namespace Served

theorem refl (h : s.disk.Answering) : Served s s := ⟨h.served, id, fun _ _ hi ↦ hi, rfl⟩

theorem trans (hst : Served s t) (htu : Served t u) : Served s u :=
  ⟨hst.disk.trans htu.disk, fun h ↦ htu.held (hst.held h), fun k i hi ↦ htu.inodes k i (hst.inodes k i hi),
    htu.counts.trans hst.counts⟩

theorem withDisk {d : CachedImage} (h : CachedImage.Served s.disk d) : Served s (s.withDisk d) :=
  ⟨h, id, fun _ _ hi ↦ hi, rfl⟩

theorem answering (h : Served s t) : t.disk.Answering := h.disk.answering

theorem len (h : Served s t) : t.image.len = s.image.len := h.disk.len

end Served

theorem get_served (h : s.disk.Answering) {b : ℕ} (hb : b * blockSize + blockSize ≤ s.image.len) :
    (onCache (BlockCache.get b)).Meets s (fun _ t ↦ Served s t) (fun _ _ ↦ False) False := by
  unfold onCache
  rw [Exec.meets_zoom]
  exact Exec.Meets.mono (BlockCache.get_served h hb) (fun _ _ hd ↦ Served.withDisk hd) (fun _ _ hf ↦ hf) id

/-! ## Extent trees -/

theorem loadTreeBlocks_served (tree : ℕ) (first : Block) (count : ℕ) : ∀ {s : Inner} (b remaining : ℕ),
    s.disk.Answering → (tree + b + count) * blockSize ≤ s.image.len →
    (loadTreeBlocks tree first count b remaining).Meets s (fun _ t ↦ Served s t) (fun _ _ ↦ False) False := by
  induction count with
  | zero => exact fun b remaining h _ ↦ .refl h
  | succ count ih =>
    intro s b remaining h hlen
    have hblock : (if b = 0 then pure first else onCache (BlockCache.get (tree + b)) : Fs Block).Meets s
        (fun _ t ↦ Served s t) (fun _ _ ↦ False) False := by
      split_ifs
      · exact .refl h
      · refine get_served h ?_
        have hle : (tree + b + 1) * blockSize ≤ (tree + b + (count + 1)) * blockSize := Nat.mul_le_mul_right _ (by omega)
        rw [Nat.succ_mul] at hle
        exact hle.trans hlen
    rw [loadTreeBlocks_succ]
    refine hblock.bind ?_ (fun _ _ he ↦ he) id
    intro block t ht
    have hlen' : (tree + (b + 1) + count) * blockSize ≤ t.image.len := by
      rw [ht.len, show tree + (b + 1) + count = tree + b + (count + 1) by omega]
      exact hlen
    refine (ih _ _ ht.answering hlen').bind ?_ (fun _ _ he ↦ he) id
    intro rest u hu
    exact ht.trans hu

/-- A tree that lies in the file as a whole can be loaded. -/
theorem loadExtentTree_served (h : s.disk.Answering) (hok : s.image.Ok) {j : Inode}
    (htree : s.TreeAt i.extents i.extentTree) (hcount : i.extents.length < 2 ^ 32) (hsame : j.extentTree = i.extentTree)
    (hlen : (i.extentTree + treeSize i.extents.length) * blockSize ≤ s.image.len) :
    (loadExtentTree j).Meets s (fun _ t ↦ Served s t) (fun _ _ ↦ False) False := by
  unfold loadExtentTree
  by_cases hzero : j.extentTree = 0
  · rw [if_pos hzero]
    exact .refl h
  rw [if_neg hzero, hsame]
  have hfirst : i.extentTree * blockSize + blockSize ≤ s.image.len := by
    have hle : (i.extentTree + 1) * blockSize ≤ (i.extentTree + treeSize i.extents.length) * blockSize :=
      Nat.mul_le_mul_right _ (Nat.add_le_add_left (treeSize_pos _) _)
    rw [Nat.succ_mul] at hle
    exact hle.trans hlen
  refine ((get_served h hfirst).and (get_looked i.extentTree hok)).bind ?_ (fun _ _ he ↦ he.1) id
  rintro first t ⟨ht, hview, -⟩
  have hhead := (htree 0 (treeSize_pos _)).view
  rw [Nat.zero_mul, List.drop_zero, Nat.add_zero, ← hview] at hhead
  dsimp only
  rw [hhead, if_pos (treeBlock_magic _ _ _), treeBlock_size, Nat.mod_eq_of_lt (treeSize_lt hcount),
    max_eq_left (treeSize_pos _)]
  have hlen' : (i.extentTree + 0 + treeSize i.extents.length) * blockSize ≤ t.image.len := by
    rw [ht.len, Nat.add_zero]
    exact hlen
  refine (loadTreeBlocks_served _ _ _ 0 _ ht.answering hlen').bind ?_ (fun _ _ he ↦ he) id
  intro extents u hu
  exact ht.trans hu

/-- What the inode owns lies in the file. -/
def Inside (s : Inner) (i : Inode) : Prop := ∀ b, 0 < cover i.ranges b → b * blockSize + blockSize ≤ s.image.len

theorem Inv.inside {live : KeyMap Inode} {hand : List (ℕ × ℕ)} (h : s.Inv live hand) (hmem : live.find? k = some i) :
    s.Inside i := by
  intro b hb
  have hload := cover_le_load (s := s) hmem b
  exact h.mul_le_len (by omega)

theorem Inside.of_le (h : s.Inside i) (hlen : s.image.len ≤ t.image.len) : t.Inside i :=
  fun b hb ↦ (h b hb).trans hlen

theorem Inside.extents (h : s.Inside i) {b : ℕ} (hb : 0 < cover (extentRanges i.extents) b) :
    b * blockSize + blockSize ≤ s.image.len := h b (by rw [cover_ranges]; omega)

theorem Inside.tree (h : s.Inside i) (hne : i.extentTree ≠ 0) (hpos : 0 < i.extentTreeBlocks) :
    (i.extentTree + i.extentTreeBlocks) * blockSize ≤ s.image.len := by
  set b := i.extentTree + i.extentTreeBlocks - 1 with hb
  have hspan : span i.extentTree i.extentTreeBlocks b ≤ cover i.treeRanges b := by
    unfold Inode.treeRanges
    rw [if_neg hne, cover_cons, cover_nil, Nat.add_zero]
  rw [span_eq_one (by omega)] at hspan
  have hinside := h b (by rw [cover_ranges]; omega)
  have hlast : i.extentTree + i.extentTreeBlocks = b + 1 := by omega
  rw [hlast, Nat.succ_mul]
  exact hinside

/-! ## Calls that have a result -/

/-- The call ends, and fails on nothing the host does. -/
def Answered (x : Fs α) (s : Inner) : Prop :=
  x.Meets s (fun _ t ↦ Served s t) (fun e t ↦ ¬e.IsHost ∧ Served s t) False

namespace Answered

variable {x : Fs α} {f : α → Fs β}

theorem bind (hx : Answered x s) (hf : ∀ a t, x s = .ok a t → Served s t → Answered (f a) t) :
    Answered (x >>= f) s := by
  unfold Answered Exec.Meets at hx ⊢
  rw [Exec.bind_apply]
  cases hrun : x s with
  | ok a t =>
    rw [hrun] at hx
    exact Exec.Meets.mono (hf a t hrun hx) (fun _ _ hu ↦ hx.trans hu) (fun _ _ hu ↦ ⟨hu.1, hx.trans hu.2⟩) id
  | err e t =>
    rw [hrun] at hx
    exact hx
  | panic =>
    rw [hrun] at hx
    exact hx

theorem pure (h : s.disk.Answering) (a : α) : Answered (Pure.pure a) s := Served.refl h

theorem throw (h : s.disk.Answering) {e : Error} (he : ¬e.IsHost) : Answered (Exec.throw e : Fs α) s := ⟨he, .refl h⟩

theorem get (h : s.disk.Answering) {b : ℕ} (hb : b * blockSize + blockSize ≤ s.image.len) :
    Answered (onCache (BlockCache.get b)) s :=
  Exec.Meets.mono (get_served h hb) (fun _ _ ht ↦ ht) (fun _ _ hf ↦ hf.elim) id

/-- What can only fail on the host returns. -/
theorem exists_ok (hx : Answered x s) {Q : α → Inner → Prop} (h : x.Holds s Q (fun e _ ↦ e.IsHost)) :
    ∃ a t, x s = .ok a t ∧ Served s t ∧ Q a t :=
  ((Exec.Meets.and hx h).mono (fun _ _ ht ↦ ht) (fun _ _ he ↦ he.1.1 he.2) id).exists_ok

end Answered

theorem readBlocks_answered (count : ℕ) : ∀ (s : Inner) (phys : ℕ), s.disk.Answering →
    (∀ b, phys ≤ b → b < phys + count → b * blockSize + blockSize ≤ s.image.len) →
    Answered (readBlocks phys count) s := by
  induction count with
  | zero => exact fun s phys h _ ↦ .pure h _
  | succ count ih =>
    intro s phys h hin
    unfold readBlocks
    refine (Answered.get h (hin phys le_rfl (by omega))).bind fun block t _ ht ↦ ?_
    refine (ih t (phys + 1) ht.answering fun b hlow hhigh ↦ ?_).bind fun rest u _ hu ↦ .pure hu.answering _
    rw [ht.len]
    exact hin b (by omega) (by omega)

theorem readCompressedExtent_answered (h : s.disk.Answering) {ext : Extent}
    (hin : ∀ b, ext.physical ≤ b → b < ext.physical + max ext.physLen 1 → b * blockSize + blockSize ≤ s.image.len) :
    Answered (readCompressedExtent ext) s := by
  have hio : ∀ message, ¬(Error.eio message).IsHost := fun _ ↦ id
  unfold readCompressedExtent
  refine (readBlocks_answered _ s ext.physical h hin).bind fun raw t _ ht ↦ ?_
  cases RecordHeader.parse (Buf.ofBytes raw.length raw) with
  | none => exact Answered.throw ht.answering (hio _)
  | some hdr =>
    refine Answered.bind (Answered.pure ht.answering hdr) fun hdr' v _ hv ↦ ?_
    dsimp only
    split_ifs
    · exact .throw hv.answering (hio _)
    · exact .throw hv.answering (hio _)
    · refine Answered.bind (Served.refl hv.answering : Answered (Exec.read (·.env)) v) fun env w _ hw ↦ ?_
      unfold decompress
      cases hdr'.algo with
      | off => exact Answered.pure hw.answering _
      | lz4 =>
        dsimp only
        cases env.lz4.decompress ((raw.drop headerSize).take hdr'.payloadLen) hdr'.uncompressedLen with
        | ok data => exact Answered.pure hw.answering _
        | error e => exact Answered.throw hw.answering (hio _)

theorem readChunks_answered (chunks : List Chunk) : ∀ s : Inner, s.disk.Answering →
    (∀ c ∈ chunks, ∀ phys, mapExtents i.extents c.index = some phys → phys * blockSize + blockSize ≤ s.image.len) →
    Answered (readChunks i chunks) s := by
  induction chunks with
  | nil => exact fun s h _ ↦ .pure h _
  | cons c rest ih =>
    intro s h hin
    have hchunk : Answered (readChunk i c) s := by
      unfold readChunk mapFileBlock
      cases hmap : mapExtents i.extents c.index with
      | none => exact .pure h _
      | some phys => exact (Answered.get h (hin c List.mem_cons_self phys hmap)).bind fun _ t _ ht ↦ .pure ht.answering _
    rw [readChunks_cons]
    refine hchunk.bind fun part t _ ht ↦ ?_
    refine (ih t ht.answering fun c' hc' phys hmap ↦ ?_).bind fun tail u _ hu ↦ .pure hu.answering _
    rw [ht.len]
    exact hin c' (List.mem_cons_of_mem _ hc') phys hmap

end Inner

end LinuxFile
