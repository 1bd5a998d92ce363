import LinuxFile.Spec.Contents

/-!
# Reading blocks of a file

Reading only moves blocks in and out of the cache.
-/

namespace LinuxFile

open Ledger

theorem range'_split {start n len : ℕ} (h : len ≤ n) :
    List.range' start n = List.range' start len ++ List.range' (start + len) (n - len) := by
  rw [List.range'_append_1, Nat.add_sub_cancel' h]

/-- A slice of a block, by the positions in the file of its bytes. -/
theorem Buf.slice_eq_map {block : Block} {index within len : ℕ} (h : within + len ≤ blockSize) :
    block.slice within len =
      (List.range' (index * blockSize + within) len).map (fun p ↦ block.byte (p % blockSize)) := by
  unfold Buf.slice
  rw [← Nat.zero_add within, Nat.zero_add within]
  apply List.ext_getElem
  · simp
  · intro q hq _
    rw [List.length_map, List.length_range'] at hq
    rw [List.getElem_map, List.getElem_map, List.getElem_range', List.getElem_range', Nat.one_mul,
      Nat.add_assoc, Nat.add_comm (index * blockSize), Nat.add_mul_mod_self_right,
      Nat.mod_eq_of_lt (by omega)]

namespace Inner

variable {s t u : Inner} {i : Inode} {ino : ℕ}

/-- Only the cache has moved. -/
def Looked (s t : Inner) : Prop := ∃ d, t = s.withDisk d ∧ CachedImage.Quiet s.disk d

theorem Looked.refl (s : Inner) : Looked s s := ⟨s.disk, rfl, CachedImage.Step.refl _ _⟩

theorem Looked.trans (hst : Looked s t) (htu : Looked t u) : Looked s u := by
  obtain ⟨d, rfl, hd⟩ := hst
  obtain ⟨d', rfl, hd'⟩ := htu
  exact ⟨d', rfl, hd.trans hd'⟩

theorem Looked.keeps (h : Looked s t) (ranges : List (ℕ × ℕ)) : KeepsBlocks ranges s t := by
  obtain ⟨d, rfl, hd⟩ := h
  exact KeepsBlocks.quiet hd

theorem Looked.ok (h : Looked s t) (hok : s.image.Ok) : t.image.Ok := by
  obtain ⟨d, rfl, hd⟩ := h
  exact hd.ok hok

theorem Looked.env (h : Looked s t) : t.env = s.env := by
  obtain ⟨d, rfl, -⟩ := h
  rfl

theorem Looked.inodes (h : Looked s t) : t.inodes = s.inodes := by
  obtain ⟨d, rfl, -⟩ := h
  rfl

/-- Asking the host to write its own buffers back. -/
theorem hostCall_looked (s : Inner) :
    (onImage Image.hostCall).Holds s (fun _ t ↦ Looked s t) (fun e _ ↦ e.IsHost) := by
  rw [onImage, Exec.holds_zoom]
  refine (Image.hostCall_spec s.image).mono ?_ (fun _ _ he ↦ he.1)
  rintro _ _ ⟨faults, rfl⟩
  exact ⟨⟨s.cache, { s.image with faults := faults }⟩, rfl, .of_grown (Image.Grown.faults s.image faults)⟩

theorem Looked.recordBlocks (h : Looked s t) : t.recordBlocks = s.recordBlocks := by
  obtain ⟨d, rfl, -⟩ := h
  rfl

theorem Looked.recordCache (h : Looked s t) : t.recordCache = s.recordCache := by
  obtain ⟨d, rfl, -⟩ := h
  rfl

theorem get_looked (b : ℕ) (hok : s.image.Ok) :
    (onCache (BlockCache.get b)).Holds s (fun data t ↦ data = s.disk.view b ∧ Looked s t)
      (fun e _ ↦ e.IsHost) := by
  rw [holds_onCache]
  refine (BlockCache.get_spec b s.disk hok).mono ?_ (fun _ _ he ↦ he)
  rintro data d ⟨hquiet, hdata, -⟩
  exact ⟨hdata, d, rfl, hquiet⟩

/-! ## Whole blocks -/

theorem readBlocks_spec (count : ℕ) : ∀ (s : Inner) (phys : ℕ), s.image.Ok →
    (∀ b, phys ≤ b → b < phys + count → s.disk.Stable b) →
    (readBlocks phys count).Holds s (fun data t ↦ data = s.disk.bytesOf phys count ∧ Looked s t)
      (fun e _ ↦ e.IsHost) := by
  induction count with
  | zero =>
    intro s phys _ _
    exact ⟨rfl, Looked.refl s⟩
  | succ count ih =>
    intro s phys hok hstable
    unfold readBlocks
    refine (get_looked phys hok).bind ?_ (fun _ _ he ↦ he)
    rintro block t ⟨rfl, hlook⟩
    have hframe : ∀ b, phys ≤ b → b < phys + (count + 1) → t.disk.Stable b ∧ t.disk.view b = s.disk.view b := by
      intro b hlow hhigh
      obtain ⟨d, rfl, hd⟩ := hlook
      exact hd.frame (fun hf ↦ hf) (hstable b hlow hhigh)
    refine (ih t (phys + 1) (hlook.ok hok) fun b hlow hhigh ↦ (hframe b (by omega) (by omega)).1).bind ?_
      (fun _ _ he ↦ he)
    rintro rest u ⟨rfl, hlook'⟩
    refine ⟨?_, hlook.trans hlook'⟩
    rw [bytesOf_congr fun b hlow hhigh ↦ (hframe b (by omega) (by omega)).2]
    unfold CachedImage.bytesOf
    rw [List.range'_succ, List.flatMap_cons]

theorem readCompressedExtent_eq (ext : Extent) :
    readCompressedExtent ext = (do
      let raw ← readBlocks ext.physical (max ext.physLen 1)
      let env ← Exec.read (·.env)
      Exec.ofExcept (decodeRecord env.lz4 raw)) := by
  unfold readCompressedExtent decodeRecord
  congr 1
  funext raw s
  rw [Exec.bind_apply, Exec.bind_apply, Exec.read_apply]
  cases RecordHeader.parse (Buf.ofBytes raw.length raw) with
  | none => rfl
  | some hdr =>
    dsimp only [Exec.ofOption, Exec.exec_pure_apply]
    by_cases hshort : raw.length < headerSize + hdr.payloadLen
    · rw [if_pos hshort, if_pos hshort]
      rfl
    · rw [if_neg hshort, if_neg hshort]
      by_cases hcrc : Crc.crc32 ((raw.drop headerSize).take hdr.payloadLen) ≠ hdr.crc
      · rw [if_pos hcrc, if_pos hcrc]
        rfl
      · rw [if_neg hcrc, if_neg hcrc]
        rfl

theorem readCompressedExtent_spec (hok : s.image.Ok) (hwf : i.Wf) (h : s.Laid i) {e : Extent}
    (he : e ∈ i.extents) (hpacked : e.isCompressed = true) :
    (readCompressedExtent e).Holds s (fun data t ↦ data = s.unpacked e ∧ Looked s t)
      (fun e _ ↦ e.IsHost) := by
  rw [readCompressedExtent_eq]
  refine (readBlocks_spec _ s e.physical hok fun b hlow hhigh ↦
    h.stable b (cover_of_packed hwf he hpacked hlow hhigh)).bind ?_ (fun _ _ he ↦ he)
  rintro raw t ⟨rfl, hlook⟩
  obtain ⟨data, hdata⟩ := h.packed e he hpacked
  rw [Exec.holds_bind, Exec.holds_read, hlook.env, hdata.decode, hdata.unpacked_eq]
  exact ⟨rfl, hlook⟩

/-! ## Chunks of a raw file -/

def readChunk (i : Inode) (c : Chunk) : Fs Bytes :=
  match mapFileBlock i c.index with
  | some phys => do
    let block ← onCache (BlockCache.get phys)
    pure (block.slice c.within c.len)
  | none => pure (List.replicate c.len 0)

theorem readChunks_cons (i : Inode) (c : Chunk) (rest : List Chunk) :
    readChunks i (c :: rest) = (do
      let part ← readChunk i c
      let tail ← readChunks i rest
      pure (part ++ tail)) := by
  rw [readChunks, readChunk]
  cases mapFileBlock i c.index with
  | none => rfl
  | some phys =>
    dsimp only
    rw [bind_assoc]

/-- One chunk of a file block that is not compressed. -/
theorem readChunk_spec (hok : s.image.Ok) {c : Chunk} (hfits : c.within + c.len ≤ blockSize)
    (hraw : ∀ e, cellAt i.extents c.index ≠ .packed e) :
    (readChunk i c).Holds s
      (fun part t ↦ part = (List.range' (c.index * blockSize + c.within) c.len).map (s.storedByte i) ∧
        Looked s t) (fun e _ ↦ e.IsHost) := by
  have hcell := mapExtents_of_cellAt hraw
  have hbyte : ∀ p ∈ List.range' (c.index * blockSize + c.within) c.len,
      s.storedByte i p = s.cellByte p (cellAt i.extents c.index) := by
    intro p hp
    rw [List.mem_range'_1] at hp
    have hdiv : p / blockSize = c.index := by
      rw [Nat.div_eq_of_lt_le]
      · omega
      · rw [Nat.succ_mul]
        omega
    rw [storedByte, hdiv]
  rw [List.map_congr_left hbyte, hcell]
  unfold readChunk mapFileBlock
  cases mapExtents i.extents c.index with
  | none =>
    refine ⟨?_, Looked.refl s⟩
    dsimp only
    rw [show (fun p ↦ s.cellByte p .hole) = fun _ ↦ (0 : UInt8) from rfl, List.map_const',
      List.length_range']
  | some phys =>
    dsimp only
    refine (get_looked phys hok).bind ?_ (fun _ _ he ↦ he)
    rintro block t ⟨rfl, hlook⟩
    exact ⟨Buf.slice_eq_map hfits, hlook⟩

theorem readChunks_spec {off n done : ℕ} {chunks : List Chunk} (htiles : Chunk.Tiles blockSize off n done chunks)
    (hwf : i.Wf) (hraw : ∀ c ∈ chunks, ∀ e, cellAt i.extents c.index ≠ .packed e) :
    ∀ s : Inner, s.image.Ok → s.Laid i → (readChunks i chunks).Holds s
      (fun data t ↦ data = (List.range' (off + done) (n - done)).map (s.storedByte i) ∧ Looked s t)
      (fun e _ ↦ e.IsHost) := by
  induction htiles with
  | nil =>
    intro s _ _
    rw [Nat.sub_self]
    exact ⟨rfl, Looked.refl s⟩
  | @cons c rest pos le place fits whole tail ih =>
    intro s hok hlaid
    have hne : ∀ e, cellAt i.extents c.index ≠ .packed e := hraw c (List.mem_cons_self)
    rw [readChunks_cons]
    refine (readChunk_spec hok fits hne).bind ?_ (fun _ _ he ↦ he)
    rintro part t ⟨rfl, hlook⟩
    have hkeeps := hlook.keeps (extentRanges i.extents)
    refine (ih (fun c' hc' ↦ hraw c' (List.mem_cons_of_mem _ hc')) t (hlook.ok hok)
      (hlaid.keep hwf hkeeps hlook.env hlook.recordBlocks)).bind ?_ (fun _ _ he ↦ he)
    rintro tail u ⟨rfl, hlook'⟩
    refine ⟨?_, hlook.trans hlook'⟩
    rw [place, range'_split (show c.len ≤ n - c.done by omega), List.map_append]
    congr 1
    rw [show off + (c.done + c.len) = off + c.done + c.len by omega, show n - (c.done + c.len) = n - c.done - c.len by omega]
    exact List.map_congr_left fun p _ ↦ hlaid.storedByte_eq hwf hkeeps hlook.env p

end Inner

end LinuxFile
