import LinuxFile.Spec.Codec
import LinuxFile.Spec.Persist

/-!
# Storing records

A record is written to blocks of its own before the old ones are given back, so the file's extents
never name a block that is not there. The first block of a compressed record carries its header.
-/

namespace LinuxFile

open Ledger

/-! ## The header of a compressed record -/

theorem ceilBlocks_mul (n : ℕ) : ceilBlocks (n * blockSize) = n := by
  unfold ceilBlocks blockSize
  omega

theorem le_ceilBlocks_mul (n : ℕ) : n ≤ ceilBlocks n * blockSize := by
  unfold ceilBlocks blockSize
  omega

theorem ceilBlocks_mono {a b : ℕ} (h : a ≤ b) : ceilBlocks a ≤ ceilBlocks b := by
  unfold ceilBlocks
  exact Nat.div_le_div_right (by omega)

theorem ceilBlocks_le {n k : ℕ} (h : n ≤ k * blockSize) : ceilBlocks n ≤ k := by
  have := ceilBlocks_mono h
  rw [ceilBlocks_mul] at this
  exact this

@[simp] theorem resizeBytes_length (data : Bytes) (n : ℕ) : (resizeBytes data n).length = n := by
  unfold resizeBytes
  rw [List.length_append, List.length_take, List.length_replicate]
  omega

/-- What the compressor hands to `store_record`. -/
theorem tryCompress_packed {lz : Lz4} {algo : Compression} {src : Bytes}
    (h : (tryCompress lz algo src).1.isOff = false) :
    (tryCompress lz algo src).1 = .lz4 ∧ algo = .lz4 ∧ 0 < (tryCompress lz algo src).2.length ∧
      headerSize + (tryCompress lz algo src).2.length + blockSize ≤ src.length := by
  unfold tryCompress at h ⊢
  by_cases hsmall : algo.isOff = true ∨ src.length < blockSize * 2
  · rw [if_pos hsmall] at h
    cases h
  · rw [if_neg hsmall] at h ⊢
    cases algo with
    | off => cases h
    | lz4 =>
      dsimp only at h ⊢
      by_cases hsaves : savesABlock src.length (lz.compress src).length = true
      · rw [if_pos hsaves]
        have hne : src ≠ [] := by
          rintro rfl
          apply hsmall
          exact Or.inr (by decide)
        refine ⟨rfl, rfl, List.length_pos_iff.mpr (lz.compress_ne_nil src hne), ?_⟩
        simpa [savesABlock] using hsaves
      · rw [if_neg hsaves] at h
        cases h

theorem header_valid {hdr : RecordHeader} {recBlocks : ℕ} (halgo : hdr.algo = .lz4)
    (hlogical : hdr.logicalBlocks = max (ceilBlocks hdr.uncompressedLen) 1)
    (hpayload : 0 < hdr.payloadLen)
    (hsaves : headerSize + hdr.payloadLen + blockSize ≤ hdr.uncompressedLen)
    (hlen : hdr.uncompressedLen ≤ recBlocks * blockSize) (hpos : 0 < recBlocks)
    (hmax : recBlocks ≤ maxRecordBlocks) : hdr.Valid := by
  have h1 := ceilBlocks_le hlen
  have h2 := le_ceilBlocks_mul hdr.uncompressedLen
  have hbs : 0 < blockSize := by decide
  refine ⟨halgo, by omega, by omega, ?_, hpayload, by omega, ?_⟩
  · rw [hlogical]
    exact h2.trans (Nat.mul_le_mul_right _ (le_max_left _ _))
  · rw [hlogical]
    unfold RecordHeader.physBlocks
    exact (ceilBlocks_mono (by omega)).trans (le_max_left _ _)

theorem Buf.ofBytes_slice {n : ℕ} {data : Bytes} {len : ℕ} (hlen : len ≤ data.length) (hn : len ≤ n) :
    (Buf.ofBytes n data).slice 0 len = data.take len := by
  apply List.ext_getElem?
  intro i
  by_cases hi : i < len
  · rw [Buf.slice_getElem? _ hi, Buf.ofBytes, Buf.put_byte_of_mem (by omega) (by omega) (by omega)]
    rw [List.getElem?_take_of_lt hi]
    simp [List.getD_eq_getElem?_getD, show i < data.length by omega]
  · rw [List.getElem?_eq_none (by simp; omega), List.getElem?_eq_none (by simp; omega)]

theorem parse_recordImage {hdr : RecordHeader} (hvalid : hdr.Valid) (payload : Bytes)
    (hlen : payload.length = hdr.payloadLen) :
    RecordHeader.parse (dataBlock (Inner.recordImage hdr payload) 0) = some hdr := by
  have hsize : headerSize ≤ blockSize := by decide
  have hphys : headerSize + payload.length ≤ hdr.physBlocks * blockSize := by
    unfold RecordHeader.physBlocks
    rw [hlen]
    exact le_ceilBlocks_mul _
  apply RecordHeader.parse_eq_some hsize hvalid
  unfold dataBlock Inner.recordImage
  rw [Nat.zero_mul, List.drop_zero]
  have hlong : headerSize ≤ (resizeBytes (hdr.encode.slice 0 headerSize ++ payload)
      (hdr.physBlocks * blockSize)).length := by
    rw [resizeBytes_length]
    omega
  rw [Buf.ofBytes_slice (by rw [List.length_take]; omega) hsize, List.take_take, min_eq_left hsize]
  unfold resizeBytes
  rw [List.take_append_of_le_length (by simp; omega), List.take_take, min_eq_left (by omega),
    List.take_append_of_le_length (by simp), List.take_of_length_le (by simp)]

theorem physBlocks_pos (hdr : RecordHeader) : 0 < hdr.physBlocks := by
  unfold RecordHeader.physBlocks ceilBlocks headerSize blockSize
  omega

theorem recordImage_blocks (hdr : RecordHeader) (payload : Bytes) :
    ceilBlocks (Inner.recordImage hdr payload).length = hdr.physBlocks := by
  unfold Inner.recordImage
  rw [resizeBytes_length, ceilBlocks_mul]

namespace Inner

variable {T : ℕ → Prop} {s t : Inner} {live live' : KeyMap Inode} {hand : List (ℕ × ℕ)} {ino : ℕ}
  {i : Inode}

/-! ## Cutting a range out -/

/-- The inode after `[start, stop)` was cut out. -/
def punched (start stop : ℕ) (i : Inode) : Inode :=
  let kept := sortByLogical (i.extents.flatMap (punchKeep start stop))
  { i with extents := kept, blocks := sectorsOf kept, dataKind := kindOf kept }

theorem punch_eq (hmem : s.inodes.find? ino = some i) {start stop : ℕ} (hlt : start < stop) :
    punchLogicalRange ino start stop s = .ok () { s with
      alloc := (i.extents.flatMap (punchFree start stop)).foldl (fun a r ↦ a.freeRange r.1 r.2) s.alloc
      inodes := s.inodes.insert ino (punched start stop i)
      dirtyInodes := s.dirtyInodes.insert ino () } := by
  unfold punchLogicalRange
  rw [if_neg (by omega), Exec.bind_eq_of_ok (getInode_mem hmem)]
  exact getInodeMut_mem (s := { s with
    alloc := (i.extents.flatMap (punchFree start stop)).foldl (fun a r ↦ a.freeRange r.1 r.2) s.alloc })
    hmem _

theorem punched_extents (h : s.Inv live hand) (hmem : s.inodes.find? ino = some i) {start stop : ℕ}
    (hlt : start < stop) : Punched i start stop (punched start stop i).extents :=
  (punched_of_wf (h.numbered.shape ino i (h.numbered.memory ino i hmem)) hlt).sort

theorem punch_inv (h : s.Inv live hand) (hmem : s.inodes.find? ino = some i) {start stop : ℕ}
    (hlt : start < stop) :
    Inv { s with
      alloc := (i.extents.flatMap (punchFree start stop)).foldl (fun a r ↦ a.freeRange r.1 r.2) s.alloc
      inodes := s.inodes.insert ino (punched start stop i)
      dirtyInodes := s.dirtyInodes.insert ino () } (live.insert ino (punched start stop i)) hand := by
  have hk := h.numbered.memory ino i hmem
  have hwf := h.numbered.shape ino i hk
  have hp := punched_extents h hmem hlt
  refine h.exchange hmem (punched start stop i)
    ⟨fun e he ↦ (hp.wf e he).congr id, hp.clear, hwf.tree, hwf.size_le,
      fun hk ↦ absurd hk (kindOf_ne_inline _)⟩ rfl
    (i.extents.flatMap (punchFree start stop)) hand (fun b ↦ ?_) (fun e he hpacked ↦ ?_) ?_
  · have h1 := hp.cover b
    rw [cover_ranges, cover_ranges]
    change cover (extentRanges (punched start stop i).extents) b +
      (cover i.treeRanges b + cover i.xattrRanges b) + _ + _ ≤ _
    omega
  · exact h.onDisk.headers ino i hk e (hp.packed e he hpacked) hpacked
  · intro c hc hck hcd
    obtain ⟨x, hx, huses, -⟩ := (h.numbered.record c hc).owner hcd
    rw [hck, hmem] at hx
    cases hx
    exact ⟨huses, kindOf_ne_inline _⟩

theorem punch_keeps (h : Good T s live) (hT : T ino) (hmem : s.inodes.find? ino = some i)
    {start stop : ℕ} (hlt : start < stop) :
    Keeps T s live (punchLogicalRange ino start stop)
      (fun _ t live' ↦ Good T t live' ∧ t.inodes.find? ino = some (punched start stop i) ∧
        live' = live.insert ino (punched start stop i) ∧ t.recordCache = s.recordCache) :=
  Keeps.of_step (punch_eq hmem hlt) (Evolves.insert hT hmem (punched start stop i))
    ⟨⟨punch_inv h.inv hmem hlt, h.held⟩, KeyMap.find?_insert_self _ _ _, rfl, rfl⟩

/-! ## Storing a record -/

/-- What storing a record may change of its inode. -/
structure Stowed (i i' : Inode) : Prop where
  same : i' = { i with
    extents := i'.extents
    blocks := i'.blocks
    dataKind := i'.dataKind
    flags := i'.flags }
  kind : i'.dataKind ≠ .inline
  flags : i'.flags = i.flags ∨ i'.flags = i.flags ||| flagCompressed

theorem Stowed.flags_ne {i i' : Inode} (h : Stowed i i') (hne : i.flags &&& flagCompressed ≠ 0) :
    i'.flags &&& flagCompressed ≠ 0 := by
  rcases h.flags with hf | hf <;> rw [hf]
  · exact hne
  · exact flags_set_compressed _

theorem Stowed.usesCompression {i i' : Inode} (h : Stowed i i') (huses : i.usesCompression = true) :
    i'.usesCompression = true := by
  have hcomp : i'.compression = i.compression := by rw [h.same]
  unfold Inode.usesCompression at *
  rw [Bool.or_eq_true] at huses ⊢
  rw [hcomp]
  exact huses.imp_right fun hne ↦ by
    simpa using h.flags_ne (by simpa using hne)

theorem Stowed.trans {a b c : Inode} (hab : Stowed a b) (hbc : Stowed b c) : Stowed a c := by
  refine ⟨by rw [hbc.same, hab.same], hbc.kind, ?_⟩
  rcases hab.flags with h1 | h1 <;> rcases hbc.flags with h2 | h2
  · exact Or.inl (h2.trans h1)
  · exact Or.inr (by rw [h2, h1])
  · exact Or.inr (by rw [h2, h1])
  · refine Or.inr ?_
    rw [h2, h1, UInt32.or_assoc, UInt32.or_self]

/-- A compressed extent is added and the inode is marked. -/
theorem addPacked_keeps (h : s.Inv live hand) (hT : T ino) (hmem : s.inodes.find? ino = some i)
    {ext : Extent} (hext : ext.Wf { i with flags := i.flags ||| flagCompressed })
    (hnew : ∀ e ∈ i.extents, Clear e ext) {hand' : List (ℕ × ℕ)}
    (hhand : ∀ b, span ext.physical ext.physLen b + cover hand' b ≤ cover hand b)
    (hhead : ext.isCompressed = true → s.HeaderAt ext) :
    Keeps T s live (do
      addExtent ino ext
      getInodeMut ino (fun i ↦ { i with flags := i.flags ||| flagCompressed }))
      (fun _ t live' ↦ ∃ i', Stowed i i' ∧ live' = live.insert ino i' ∧ t.Inv live' hand' ∧
        t = { s with
          inodes := s.inodes.insert ino i'
          dirtyInodes := s.dirtyInodes.insert ino () }) := by
  have hwf := h.numbered.shape ino i (h.numbered.memory ino i hmem)
  have hjwf : Inode.Wf { i with flags := i.flags ||| flagCompressed } :=
    ⟨fun e he ↦ (hwf.extents e he).congr fun _ ↦ flags_set_compressed _, hwf.clear, hwf.tree, hwf.size_le,
      hwf.inline⟩
  unfold Keeps
  rw [Exec.holds_bind]
  refine Exec.Holds.mono (addExtent_eval (j := { i with flags := i.flags ||| flagCompressed }) hmem rfl
    hjwf hext hnew) ?_ (fun _ _ he ↦ he.elim)
  rintro _ _ ⟨extents, hadded, rfl⟩
  rw [Exec.holds_iff_of_ok (getInodeMut_mem (s := { s with
    inodes := s.inodes.insert ino (setExtents extents i)
    dirtyInodes := s.dirtyInodes.insert ino () }) (KeyMap.find?_insert_self _ _ _) _)]
  dsimp only
  rw [KeyMap.insert_insert, KeyMap.insert_insert]
  set i' : Inode := { setExtents extents i with flags := i.flags ||| flagCompressed } with hi'
  have hsame : i' = { i with
      extents := i'.extents, dataKind := i'.dataKind, flags := i'.flags, blocks := i'.blocks } := rfl
  have hinv := h.addExtent hmem hsame (fun _ ↦ flags_set_compressed _)
    (kindOf_ne_inline extents) (j := { i with flags := i.flags ||| flagCompressed }) rfl
    (fun _ ↦ flags_set_compressed _) hadded hhand hhead
  exact ⟨live.insert ino i', Evolves.insert hT hmem i', i', ⟨rfl, kindOf_ne_inline extents, Or.inr rfl⟩,
    rfl, hinv, rfl⟩

theorem stowed_of_setExtents (extents : List Extent) (i : Inode) : Stowed i (setExtents extents i) :=
  ⟨rfl, kindOf_ne_inline extents, Or.inl rfl⟩

theorem stowed_of_punched (start stop : ℕ) (i : Inode) : Stowed i (punched start stop i) :=
  ⟨rfl, kindOf_ne_inline _, Or.inl rfl⟩

/-- The block count of the inode is taken from its extents. -/
theorem countBlocks_keeps (h : Good T s live) (hT : T ino) (hmem : s.inodes.find? ino = some i)
    (hkind : i.dataKind ≠ .inline) :
    Keeps T s live (getInodeMut ino (fun i ↦ { i with blocks := sectorsOf i.extents }))
      (fun _ t live' ↦ Good T t live' ∧ t.recordCache = s.recordCache ∧
        ∃ i', Stowed i i' ∧ t.inodes.find? ino = some i' ∧ live' = live.insert ino i') := by
  have hwf := h.inv.numbered.shape ino i (h.inv.numbered.memory ino i hmem)
  have hinv := h.inv.update hmem { i with blocks := sectorsOf i.extents }
    ⟨fun e he ↦ (hwf.extents e he).congr id, hwf.clear, hwf.tree, hwf.size_le, hwf.inline⟩ rfl rfl rfl
    (fun huses hk ↦ ⟨huses, hk⟩)
  exact Keeps.of_step (getInodeMut_mem hmem _) (Evolves.insert hT hmem _)
    ⟨⟨hinv, h.held⟩, rfl, { i with blocks := sectorsOf i.extents }, ⟨rfl, hkind, Or.inl rfl⟩,
      KeyMap.find?_insert_self _ _ _, rfl⟩

/-- New blocks are taken and filled before the old ones of the range are given back. -/
theorem replaceRange_keeps {α : Type} {Q : α → Inner → KeyMap Inode → Prop} (h : Good T s live)
    (hT : T ino) (hmem : s.inodes.find? ino = some i) {start stop : ℕ} (hlt : start < stop)
    {data : Bytes} {n : ℕ} (hn : max (ceilBlocks data.length) 1 ≤ n) {f : ℕ → Fs α}
    (hf : ∀ phys t, SameShell s t → t.Inv (live.insert ino (punched start stop i)) [(phys, n)] →
      Held T t → t.inodes.find? ino = some (punched start stop i) → t.recordCache = s.recordCache →
      t.disk.Copies (· = dataBlock data 0) phys →
      Keeps T t (live.insert ino (punched start stop i)) (f phys) Q) :
    Keeps T s live (do
      let phys ← onAlloc (Allocator.allocate n)
      writePhysicalBytes phys data
      punchLogicalRange ino start stop
      f phys) Q := by
  refine (allocate_keeps h.inv (by omega)).bind ?_
  rintro phys _ _ hev ⟨rfl, hinv, -, alloc, img, rfl, -⟩
  refine (writePhysicalBytes_keeps (n := n) hinv (fun b hlow hhigh ↦ ?_) data hn).bind ?_
  · rw [cover_cons, span_eq_one ⟨hlow, hhigh⟩]
    omega
  · rintro _ t _ hev' ⟨rfl, hinv', d, ht, -, hcopies⟩
    have hmem' : t.inodes.find? ino = some i := by rw [ht]; exact hmem
    have hcache : t.recordCache = s.recordCache := by rw [ht]; rfl
    have hdisk : t.disk = d := by rw [ht]; rfl
    refine Keeps.bind_step (punch_eq hmem' hlt) (Evolves.insert hT hmem' _) ?_
    refine hf phys _ ((hev.shell.trans hev'.shell).trans rfl) (punch_inv hinv' hmem' hlt) ?_
      (KeyMap.find?_insert_self _ _ _) hcache ?_
    · intro c hc
      exact h.held c (hcache.symm.trans hc)
    · change t.disk.Copies _ phys
      rw [hdisk]
      exact hcopies 0 (by omega)

theorem storeRecord_keeps (h : Good T s live) (hT : T ino) (hmem : s.inodes.find? ino = some i)
    {record : ℕ} (hrecord : record * s.recordBlocks ≤ maxFileSize / blockSize) {data : Bytes}
    (hdata : data.length ≤ s.recordBytes) :
    Keeps T s live (storeRecord ino record data)
      (fun _ t live' ↦ Good T t live' ∧ t.recordCache = s.recordCache ∧
        ∃ i', Stowed i i' ∧ t.inodes.find? ino = some i' ∧ live' = live.insert ino i') := by
  have hrec := h.inv.geometry.records
  have hmax : maxFileSize / blockSize + maxRecordBlocks ≤ maxLogical := by decide
  have hsmall : maxRecordBlocks < u32Limit := by decide
  have hlen : max (ceilBlocks data.length) 1 ≤ s.recordBlocks := by
    have := ceilBlocks_le hdata
    omega
  unfold storeRecord
  refine Keeps.read ?_
  dsimp only
  by_cases hzero : data.all (· == 0) = true
  · rw [if_pos hzero]
    refine (punch_keeps h hT hmem (by omega)).mono ?_
    rintro _ t live' - ⟨hgood, hfind, rfl, hcache⟩
    exact ⟨hgood, hcache, _, stowed_of_punched _ _ i, hfind, rfl⟩
  · rw [if_neg hzero]
    refine Keeps.bind_ok (getInode_mem hmem) (Keeps.read ?_)
    have hlt : record * s.recordBlocks < record * s.recordBlocks + s.recordBlocks := by omega
    have hp := punched_extents h.inv hmem hlt
    have hclear : ∀ phys n k, ∀ algo, n ≤ s.recordBlocks → ∀ e ∈ (punched (record * s.recordBlocks)
        (record * s.recordBlocks + s.recordBlocks) i).extents,
        Clear e (Extent.withPhys (record * s.recordBlocks) phys n k algo) := by
      intro phys n k algo hn e he b hb
      unfold Extent.withPhys Extent.logicalEnd at hb
      have := hp.outside e he
      unfold Extent.logicalEnd at this
      dsimp only at hb
      omega
    by_cases hoff : (tryCompress s.env.lz4 (Compression.fromU8 i.compression) data).1.isOff = true
    · rw [if_pos hoff]
      refine replaceRange_keeps h hT hmem (by omega) le_rfl ?_
      rintro phys t - hinv hheld hmem' hcache -
      have hhand : ∀ b, span phys (Extent.withPhys (record * s.recordBlocks) phys
          (max (ceilBlocks data.length) 1) (max (ceilBlocks data.length) 1) 0).physLen b + cover [] b ≤
          cover [(phys, max (ceilBlocks data.length) 1)] b := by
        intro b
        rw [Extent.withPhys_physLen, cover_cons, cover_nil]
      refine (addExtent_keeps hinv hT hmem'
        (Extent.withPhys_wf (by omega) (by omega) (by omega)) (hclear phys _ _ _ hlen) hhand ?_).bind ?_
      · intro hpacked
        cases hpacked
      · rintro _ _ _ - ⟨extents, -, rfl, hinv', rfl⟩
        refine (countBlocks_keeps ⟨hinv', hheld⟩ hT (KeyMap.find?_insert_self _ _ _)
          (kindOf_ne_inline extents)).mono ?_
        rintro _ u live' - ⟨hgood, hcache', i', hstowed, hfind, rfl⟩
        refine ⟨hgood, hcache'.trans hcache, i', ?_, hfind, ?_⟩
        · exact ((stowed_of_punched _ _ i).trans (stowed_of_setExtents extents _)).trans hstowed
        · rw [KeyMap.insert_insert, KeyMap.insert_insert]
    · rw [if_neg hoff]
      obtain ⟨hlz4, -, hpos, hsaves⟩ := tryCompress_packed (Bool.eq_false_of_not_eq_true hoff)
      set packed := tryCompress s.env.lz4 (Compression.fromU8 i.compression) data
      set hdr : RecordHeader := ⟨packed.1, max (ceilBlocks data.length) 1, packed.2.length, data.length,
        Crc.crc32 packed.2⟩ with hhdr
      have hvalid : hdr.Valid := header_valid hlz4 rfl hpos hsaves hdata hrec.1 hrec.2
      have hphys : 0 < hdr.physBlocks := physBlocks_pos hdr
      refine replaceRange_keeps h hT hmem (by omega) (by rw [recordImage_blocks]; omega) ?_
      rintro phys t - hinv hheld hmem' hcache hcopies
      rw [← bind_assoc]
      have hhand : ∀ b, span phys (Extent.withPhys (record * s.recordBlocks) phys
          (max (ceilBlocks data.length) 1) hdr.physBlocks packed.1.asU8).physLen b + cover [] b ≤
          cover [(phys, hdr.physBlocks)] b := by
        intro b
        rw [Extent.physLen, if_pos (by change hdr.physBlocks ≠ 0; omega), cover_cons, cover_nil]
        exact le_rfl
      refine (addPacked_keeps hinv hT hmem' ?_ (hclear phys _ _ _ hlen) hhand ?_).bind ?_
      · have hstop : record * s.recordBlocks + s.recordBlocks ≤ maxLogical := by omega
        refine ⟨hlen.trans_lt (by omega), (Nat.add_le_add_left hlen _).trans hstop, fun hraw ↦ ?_,
          fun _ ↦ ⟨hphys, flags_set_compressed _⟩, fun hzero ↦ ?_⟩
        swap
        · change max _ _ = 0 at hzero
          omega
        change packed.1.asU8 = 0 at hraw
        rw [hlz4] at hraw
        cases hraw
      · intro _
        refine CachedImage.Copies.mono hcopies ?_
        rintro _ rfl
        exact ⟨hdr, parse_recordImage hvalid _ rfl, rfl, rfl⟩
      · rintro _ _ _ - ⟨i', hstowed, rfl, hinv', rfl⟩
        refine (countBlocks_keeps ⟨hinv', hheld⟩ hT (KeyMap.find?_insert_self _ _ _) hstowed.kind).mono ?_
        rintro _ u live' - ⟨hgood, hcache', i'', hstowed', hfind, rfl⟩
        refine ⟨hgood, hcache'.trans hcache, i'', ?_, hfind, ?_⟩
        · exact ((stowed_of_punched _ _ i).trans hstowed).trans hstowed'
        · rw [KeyMap.insert_insert, KeyMap.insert_insert]

/-! ## Writing back the held record -/

/-- Only a file that compresses is changed by storing the held record. -/
def Drained (live live' : KeyMap Inode) : Prop :=
  live' = live ∨ ∃ k i i', live.find? k = some i ∧ i.usesCompression = true ∧ i.dataKind ≠ .inline ∧
    Stowed i i' ∧ live' = live.insert k i'

theorem Drained.find {k : ℕ} (h : Drained live live') (hk : live.find? k = some i) :
    ∃ i', live'.find? k = some i' ∧
      (i' = i ∨ i.usesCompression = true ∧ i.dataKind ≠ .inline ∧ Stowed i i') := by
  rcases h with rfl | ⟨c, x, x', hx, huses, hkind, hstowed, rfl⟩
  · exact ⟨i, hk, Or.inl rfl⟩
  · by_cases hkc : k = c
    · rw [hkc, hx] at hk
      cases hk
      exact ⟨x', by rw [hkc, KeyMap.find?_insert_self], Or.inr ⟨huses, hkind, hstowed⟩⟩
    · exact ⟨i, by rw [KeyMap.find?_insert_of_ne hkc]; exact hk, Or.inl rfl⟩

theorem flushRecordCache_keeps (h : Good T s live) :
    Keeps T s live flushRecordCache
      (fun _ t live' ↦ Good T t live' ∧ t.recordCache = none ∧ Drained live live') := by
  unfold flushRecordCache
  refine Keeps.read ?_
  cases hheld : s.recordCache with
  | none => exact Keeps.pure ⟨h, hheld, Or.inl rfl⟩
  | some c =>
    have hok := h.inv.numbered.record c hheld
    have hgood : Good T { s with recordCache := none } live :=
      ⟨h.inv.hold none (fun _ hc ↦ by cases hc), fun _ hc ↦ by cases hc⟩
    refine Keeps.bind_step rfl (Evolves.memory_only rfl rfl (fun _ _ ↦ rfl) (fun _ i hi ↦ ⟨i, hi⟩)) ?_
    cases hdirty : c.dirty with
    | false => exact Keeps.pure ⟨hgood, rfl, Or.inl rfl⟩
    | true =>
      obtain ⟨i, hmem, huses, hkind⟩ := hok.owner hdirty
      refine (storeRecord_keeps (i := i) hgood (h.held c hheld) hmem hok.index_le hok.length_le).mono ?_
      rintro _ t live' - ⟨hgood', hnone, i', hstowed, -, rfl⟩
      exact ⟨hgood', hnone, Or.inr ⟨c.ino, i, i', h.inv.numbered.memory _ i hmem, huses, hkind, hstowed,
        rfl⟩⟩

/-- The same without a choice of `T`: files that do not compress keep their blocks. -/
structure DrainedTo (s : Inner) (live : KeyMap Inode) (t : Inner) (live' : KeyMap Inode) : Prop where
  inv : t.Inv live' []
  drained : Drained live live'
  evolves : Evolves (fun _ ↦ True) s live t live'
  record : t.recordCache = none
  raw : ∀ k i, live.find? k = some i → i.usesCompression = false → KeepsBlocks i.ranges s t

theorem flushRecordCache_spec (h : s.Inv live []) :
    flushRecordCache.Holds s (fun _ t ↦ ∃ live', DrainedTo s live t live')
      (fun e t ↦ e.IsHost ∨ ∃ live', t.Inv live' [] ∧ Evolves (fun _ ↦ True) s live t live') := by
  cases hheld : s.recordCache with
  | none =>
    unfold flushRecordCache
    rw [Exec.holds_bind, Exec.holds_read, hheld]
    exact ⟨live, h, Or.inl rfl, Evolves.refl _ s live, hheld, fun _ _ _ _ _ _ _ hP ↦ hP⟩
  | some c =>
    cases hdirty : c.dirty with
    | false =>
      unfold flushRecordCache
      rw [Exec.holds_bind, Exec.holds_read, hheld]
      dsimp only
      rw [Exec.holds_bind, Exec.holds_modify, hdirty]
      exact ⟨live, h.hold none (fun _ hc ↦ by cases hc), Or.inl rfl,
        Evolves.memory_only rfl rfl (fun _ _ ↦ rfl) (fun _ i hi ↦ ⟨i, hi⟩), rfl,
        fun _ _ _ _ _ _ _ hP ↦ hP⟩
    | true =>
      have hgood : Good (· = c.ino) s live := ⟨h, fun c' hc' ↦ by
        rw [hheld] at hc'
        cases hc'
        rfl⟩
      refine Exec.Holds.mono (flushRecordCache_keeps hgood) ?_ ?_
      · rintro _ t ⟨live', hev, hgood', hnone, hdrained⟩
        refine ⟨live', hgood'.inv, hdrained, hev.weaken (fun _ _ ↦ trivial), hnone, ?_⟩
        intro k i hk hraw
        refine hev.blocks k i ?_ hk
        rintro rfl
        obtain ⟨x, hx, huses, -⟩ := (h.numbered.record c hheld).owner hdirty
        rw [h.numbered.memory _ x hx] at hk
        cases hk
        rw [hraw] at huses
        cases huses
      · rintro e t (he | ⟨live', hev, hgood'⟩)
        · exact Or.inl he
        · exact Or.inr ⟨live', hgood'.inv, hev.weaken (fun _ _ ↦ trivial)⟩

end Inner

end LinuxFile
