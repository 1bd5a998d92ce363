import LinuxFile.Spec.Sound

/-!
# Writing a raw file

A write visits the file blocks of its range one by one. A block that the file does not have yet is taken from the
allocator as it is: outside the written bytes it shows whatever the block held before.
-/

namespace LinuxFile.Inner

open Ledger

variable {s t u : Inner} {i i' : Inode} {ino : ℕ}

/-- The inode with other extents. -/
structure Recut (i i' : Inode) : Prop where
  same : i' = { i with
    extents := i'.extents
    blocks := i'.blocks
    dataKind := i'.dataKind
    inlineData := i'.inlineData }
  kind : i'.dataKind ≠ .inline

theorem Recut.trans {a b c : Inode} (hab : Recut a b) (hbc : Recut b c) : Recut a c :=
  ⟨by rw [hbc.same, hab.same], hbc.kind⟩

theorem Recut.usesCompression (h : Recut i i') : i'.usesCompression = i.usesCompression := by
  rw [h.same]
  rfl

theorem Recut.size (h : Recut i i') : i'.size = i.size := by rw [h.same]

/-! ## One block -/

theorem cellAt_inj (hwf : i.Wf) (hraw : ∀ e ∈ i.extents, e.compress = 0) {b : ℕ}
    (hone : cover (extentRanges i.extents) b ≤ 1) {n m : ℕ} (hn : cellAt i.extents n = .raw b)
    (hm : cellAt i.extents m = .raw b) : n = m := by
  have hmap : ∀ k, cellAt i.extents k = .raw b → mapExtents i.extents k = some b := by
    intro k hk
    have hcell := mapExtents_of_cellAt (not_packed_of_raw hraw k)
    rw [hk] at hcell
    cases hfind : mapExtents i.extents k with
    | none =>
      rw [hfind] at hcell
      cases hcell
    | some phys =>
      rw [hfind] at hcell
      cases hcell
      rfl
  have hranges : i.extents.map (fun e ↦ (e.physical, e.length)) = extentRanges i.extents := by
    unfold extentRanges
    apply List.map_congr_left
    intro e he
    rw [(hwf.extents e he).physLen_eq (hraw e he)]
  exact mapExtents_inj (by rw [hranges]; exact hone) (hmap n hn) (hmap m hm)

theorem laid_of_raw (hraw : ∀ e ∈ i.extents, e.compress = 0)
    (hstable : ∀ b, 0 < cover (extentRanges i.extents) b → s.disk.Stable b) : s.Laid i := by
  have hnone : ∀ e ∈ i.extents, ¬e.isCompressed = true := by
    intro e he hpacked
    rw [Extent.isCompressed, hraw e he] at hpacked
    cases hpacked
  exact ⟨hstable, fun e he hp ↦ absurd hp (hnone e he), fun e he hp ↦ absurd hp (hnone e he),
    fun e he hp ↦ absurd hp (hnone e he), fun e he hp ↦ absurd hp (hnone e he)⟩

/-- The file block `logical` of the inode `i'` is `phys`; the others are as they were in `i`. -/
structure Mapped (s : Inner) (ino : ℕ) (i : Inode) (logical phys : ℕ) (i' : Inode) (t : Inner) : Prop where
  inodes : t.inodes = s.inodes.insert ino i'
  shell : SameShell s t
  record : t.recordCache = s.recordCache
  inv : t.Inv t.inodes []
  disk : CachedImage.Quiet s.disk t.disk
  recut : Recut i i'
  raw : ∀ e ∈ i'.extents, e.compress = 0
  self : cellAt i'.extents logical = .raw phys
  old : cellAt i.extents logical = .hole ∨ cellAt i.extents logical = .raw phys
  cells : ∀ n, n ≠ logical → cellAt i'.extents n = cellAt i.extents n
  blocks : ∀ b, b ≠ phys → 0 < cover (extentRanges i'.extents) b → 0 < cover (extentRanges i.extents) b

theorem allocateLogical_maps (h : s.Inv s.inodes []) (hmem : s.inodes.find? ino = some i)
    (hkind : i.dataKind ≠ .inline) (hraw : ∀ e ∈ i.extents, e.compress = 0) {logical : ℕ}
    (hlog : logical + 1 ≤ maxLogical) :
    (allocateLogical ino logical).Holds s (fun phys t ↦ ∃ i', Mapped s ino i logical phys i' t)
      (fun e _ ↦ e.IsHost) := by
  have hcell := mapExtents_of_cellAt (not_packed_of_raw hraw logical)
  unfold allocateLogical mapFileBlock
  rw [Exec.holds_bind_of_ok (getInode_mem hmem)]
  cases hmap : mapExtents i.extents logical with
  | some phys =>
    rw [hmap] at hcell
    refine ⟨i, (KeyMap.insert_of_find? hmem).symm, SameShell.refl s, rfl, h, CachedImage.Step.refl _ _,
      ⟨rfl, hkind⟩, hraw, hcell, Or.inr hcell, fun _ _ ↦ rfl, fun _ _ hb ↦ hb⟩
  | none =>
    rw [hmap] at hcell
    dsimp only
    rw [Exec.when, if_neg hkind, Exec.holds_bind, Exec.holds_exec_pure]
    refine (allocate_takes h (by decide)).bind ?_ (fun _ _ he ↦ he)
    rintro phys _ ⟨hinv, -, alloc, img, rfl, hgrown⟩
    have hwf := h.numbered.shape ino i hmem
    have hclear : ∀ e ∈ i.extents, Clear e (Extent.withPhys logical phys 1 1 0) := by
      intro e he n hn
      have hnot := mapExtents_eq_none_iff.mp hmap e he
      unfold Extent.withPhys Extent.logicalEnd at hn
      unfold Extent.logicalEnd at hnot
      dsimp only at hn
      omega
    have hext : (Extent.withPhys logical phys 1 1 0).Wf i := Extent.withPhys_wf (by decide) hlog (by omega)
    refine (addExtent_eval (s := { s with alloc := alloc, image := img }) hmem rfl hwf hext hclear).bind ?_
      (fun _ _ he ↦ he.elim)
    rintro _ _ ⟨extents, hadded, rfl⟩
    have hcells := hadded.cell
    have hself : cellAt extents logical = .raw phys := by
      have hat : (Extent.withPhys logical phys 1 1 0).logical ≤ logical ∧
          logical < (Extent.withPhys logical phys 1 1 0).logicalEnd := ⟨le_refl _, Nat.lt_succ_self _⟩
      rw [hcells, if_pos hat, Extent.cell_raw rfl]
      change Cell.raw (phys + (logical - logical)) = _
      rw [Nat.sub_self, Nat.add_zero]
    set i' : Inode := { setExtents extents i with blocks := i.blocks + blockSize / 512 } with hi'
    have hmine : i' = { i with
        extents := i'.extents, dataKind := i'.dataKind, flags := i'.flags, blocks := i'.blocks } := rfl
    have hinv' := hinv.addExtent (s := { s with alloc := alloc, image := img }) hmem hmine id
      (kindOf_ne_inline extents) (j := i) rfl id hadded (show ∀ b, span phys
        (Extent.withPhys logical phys 1 1 0).physLen b + cover [] b ≤ cover _ b from fun b ↦ by
          rw [Extent.withPhys_physLen, cover_nil, cover_cons]
          exact Nat.le_add_right _ _) (fun hpacked ↦ by cases hpacked)
    rw [Exec.holds_bind_of_ok (getInodeMut_mem (i := setExtents extents i) (KeyMap.find?_insert_self _ _ _) _),
      Exec.holds_pure]
    rw [KeyMap.insert_insert, KeyMap.insert_insert]
    refine ⟨i', rfl, rfl, rfl, hinv', CachedImage.Step.of_grown hgrown, ⟨rfl, kindOf_ne_inline extents⟩,
      hadded.raw hraw rfl, hself, Or.inl hcell, fun n hn ↦ ?_, fun b hb hcover ↦ ?_⟩
    · change cellAt extents n = _
      rw [hcells, if_neg]
      unfold Extent.withPhys Extent.logicalEnd
      dsimp only
      omega
    · change 0 < cover (extentRanges extents) b at hcover
      rw [hadded.cover, Extent.withPhys_physLen, span_eq_zero] at hcover
      · exact hcover
      · change ¬(phys ≤ b ∧ b < phys + 1)
        omega

/-! ## One chunk -/

/-- The file after bytes of one of its blocks were written. -/
structure ChunkWritten (s : Inner) (ino : ℕ) (i : Inode) (c : Chunk) (data : Bytes) (i' : Inode) (t : Inner) :
    Prop where
  rewritten : Rewritten s ino i' t
  record : t.recordCache = s.recordCache
  recut : Recut i i'
  raw : ∀ e ∈ i'.extents, e.compress = 0
  self : cellAt i'.extents c.index ≠ .hole
  cells : ∀ n, n ≠ c.index → cellAt i'.extents n = cellAt i.extents n
  inside : ∀ p, c.index * blockSize + c.within ≤ p → p < c.index * blockSize + c.within + c.len →
    t.storedByte i' p = data.getD (p - (c.index * blockSize + c.within)) 0
  outside : ∀ p, p / blockSize ≠ c.index → t.storedByte i' p = s.storedByte i p
  around : ∀ p, p < c.index * blockSize + c.within ∨ c.index * blockSize + c.within + c.len ≤ p →
    cellAt i.extents c.index ≠ .hole → t.storedByte i' p = s.storedByte i p

theorem div_eq_index {c : Chunk} (hfits : c.within + c.len ≤ blockSize) {p : ℕ}
    (hlow : c.index * blockSize + c.within ≤ p) (hhigh : p < c.index * blockSize + c.within + c.len) :
    p / blockSize = c.index ∧ p % blockSize = p - c.index * blockSize := by
  have hdiv : p / blockSize = c.index := by
    rw [Nat.div_eq_of_lt_le]
    · omega
    · rw [Nat.succ_mul]
      omega
  have hmod := Nat.mod_add_div p blockSize
  rw [hdiv, Nat.mul_comm] at hmod
  exact ⟨hdiv, by omega⟩

theorem writeChunk_writes (h : s.Inv s.inodes []) (hmem : s.inodes.find? ino = some i) (hlaid : s.Laid i)
    (hkind : i.dataKind ≠ .inline) (hraw : ∀ e ∈ i.extents, e.compress = 0) (buf : Bytes) {c : Chunk}
    (hlog : c.index + 1 ≤ maxLogical) (hfits : c.within + c.len ≤ blockSize)
    (hbuf : c.done + c.len ≤ buf.length) :
    (writeChunk ino buf c).Holds s
      (fun _ t ↦ ∃ i', ChunkWritten s ino i c ((buf.drop c.done).take c.len) i' t) (fun e _ ↦ e.IsHost) := by
  unfold writeChunk
  refine (allocateLogical_maps h hmem hkind hraw hlog).bind ?_ (fun _ _ he ↦ he)
  rintro phys t ⟨i', hmap⟩
  rw [holds_onCache]
  refine (BlockCache.getMut_spec phys _ t.disk hmap.inv.geometry.image).mono ?_ (fun _ _ he ↦ he)
  rintro _ d ⟨hstep, hview, hdirty⟩
  have hmem' : t.inodes.find? ino = some i' := by
    rw [hmap.inodes]
    exact KeyMap.find?_insert_self _ _ _
  have hwf' := hmap.inv.numbered.shape ino i' hmem'
  have hown : 0 < cover (extentRanges i'.extents) phys := cover_of_raw hwf' hmap.self
  have hone : ∀ b, cover (extentRanges i'.extents) b ≤ 1 := by
    intro b
    have hload := hmap.inv.owned.load_le_one b
    have hle := cover_le_load (s := t) hmem' b
    rw [cover_ranges] at hle
    omega
  have hlen : ((buf.drop c.done).take c.len).length = c.len := by
    rw [List.length_take, List.length_drop]
    omega
  -- the blocks of the old extents, but for `phys`, show what they showed
  have hframe : ∀ b, b ≠ phys → 0 < cover (extentRanges i'.extents) b →
      (t.withDisk d).disk.Stable b ∧ d.view b = s.disk.view b := by
    intro b hb hcover
    have hold := hlaid.stable b (hmap.blocks b hb hcover)
    obtain ⟨hstable, hsame⟩ := hmap.disk.frame (fun hf ↦ hf) hold
    obtain ⟨hstable', hsame'⟩ := hstep.frame hb hstable
    exact ⟨hstable', hsame'.trans hsame⟩
  have hcells : ∀ p, p / blockSize ≠ c.index → (t.withDisk d).storedByte i' p = s.storedByte i p := by
    intro p hp
    unfold storedByte
    rw [hmap.cells _ hp]
    apply cellByte_congr (t := t.withDisk d) hmap.shell.env
    · intro b hb
      rw [← hmap.cells _ hp] at hb
      have hne : b ≠ phys := by
        rintro rfl
        exact hp (cellAt_inj hwf' hmap.raw (hone b) hb hmap.self)
      exact (hframe b hne (cover_of_raw hwf' hb)).2
    · intro e he
      exact absurd he (not_packed_of_raw hraw _ e)
  have hself : ∀ p, p / blockSize = c.index →
      (t.withDisk d).storedByte i' p = (d.view phys).byte (p % blockSize) := by
    intro p hp
    unfold storedByte
    rw [hp, hmap.self]
    rfl
  refine ⟨i', ⟨hmap.inodes, hmap.shell.trans rfl, ?_, laid_of_raw hmap.raw fun b hb ↦ ?_, ?_⟩, hmap.record,
    hmap.recut, hmap.raw, ?_, hmap.cells, ?_, hcells, ?_⟩
  · refine hmap.inv.write hstep ?_
    rintro b rfl
    obtain ⟨e, he, hn, hcell⟩ := exists_of_cellAt (by rw [hmap.self]; simp : cellAt i'.extents c.index ≠ .hole)
    rw [hmap.self, Extent.cell_raw (hmap.raw e he), Cell.raw.injEq] at hcell
    have hphys := (hwf'.extents e he).physLen_eq (hmap.raw e he)
    unfold Extent.logicalEnd at hn
    exact Or.inr ⟨ino, i', e, hmem', he, hmap.raw e he, by omega, by omega⟩
  · by_cases hb' : b = phys
    · rw [hb']
      exact hdirty.stable
    · exact (hframe b hb' hb).1
  · intro k j hk hj b hb P hP
    have hj' : t.inodes.find? k = some j := by
      rw [hmap.inodes, KeyMap.find?_insert_of_ne hk]
      exact hj
    refine hstep.copies b ?_ P (hmap.disk.copies b (fun hf ↦ hf) P hP)
    rintro rfl
    have hload := hmap.inv.owned.load_le_one b
    have htwo := KeyMap.two_weights_le_total (fun _ i ↦ cover (Inode.ranges i) b) hmem' hj' (Ne.symm hk)
    rw [cover_ranges, cover_ranges] at htwo
    unfold load at hload
    omega
  · rw [hmap.self]
    simp
  · intro p hlow hhigh
    obtain ⟨hdiv, hmod⟩ := div_eq_index hfits hlow hhigh
    rw [hself p hdiv, hview, Buf.put_byte_of_mem (Nat.mod_lt _ (by decide)) (by omega) (by omega)]
    congr 1
    omega
  · intro p hp hne
    by_cases hdiv : p / blockSize = c.index
    · have hphys : cellAt i.extents c.index = .raw phys := hmap.old.resolve_left hne
      have hcover := cover_of_raw (h.numbered.shape ino i hmem) hphys
      obtain ⟨-, hsame⟩ := hmap.disk.frame (fun hf ↦ hf) (hlaid.stable phys hcover)
      have hmod := Nat.mod_add_div p blockSize
      rw [hdiv, Nat.mul_comm] at hmod
      rw [hself p hdiv, hview, Buf.put_byte_of_notMem (by omega), hsame, storedByte, hdiv, hphys]
      rfl
    · exact hcells p hdiv

/-! ## All chunks -/

/-- The file after the first `done` bytes of `buf` were written at `off`. -/
structure RawWritten (s : Inner) (ino : ℕ) (i : Inode) (off : ℕ) (buf : Bytes) (done : ℕ) (i' : Inode) (t : Inner) :
    Prop where
  rewritten : Rewritten s ino i' t
  record : t.recordCache = s.recordCache
  recut : Recut i i'
  raw : ∀ e ∈ i'.extents, e.compress = 0
  mapped : ∀ n, cellAt i.extents n ≠ .hole → cellAt i'.extents n ≠ .hole
  covered : ∀ p, off ≤ p → p < off + done → cellAt i'.extents (p / blockSize) ≠ .hole
  cells : ∀ n, (∀ p, off ≤ p → p < off + done → p / blockSize ≠ n) → cellAt i'.extents n = cellAt i.extents n
  inside : ∀ p, off ≤ p → p < off + done → t.storedByte i' p = buf.getD (p - off) 0
  outside : ∀ p, p < off ∨ off + buf.length ≤ p →
    (cellAt i.extents (p / blockSize) ≠ .hole ∨ ∀ q, off ≤ q → q < off + done → q / blockSize ≠ p / blockSize) →
    t.storedByte i' p = s.storedByte i p

theorem rawWritten_zero (h : s.Inv s.inodes []) (hmem : s.inodes.find? ino = some i) (hlaid : s.Laid i)
    (hkind : i.dataKind ≠ .inline) (hraw : ∀ e ∈ i.extents, e.compress = 0) (off : ℕ) (buf : Bytes) :
    RawWritten s ino i off buf 0 i s where
  rewritten := ⟨(KeyMap.insert_of_find? hmem).symm, SameShell.refl s, h, hlaid, fun _ _ _ _ _ _ _ hP ↦ hP⟩
  record := rfl
  recut := ⟨rfl, hkind⟩
  raw := hraw
  mapped _ hn := hn
  covered p hlow hhigh := by omega
  cells _ _ := rfl
  inside p hlow hhigh := by omega
  outside _ _ _ := rfl

theorem RawWritten.step {off : ℕ} {buf : Bytes} {c : Chunk} {i₁ i₂ : Inode} {t₁ t₂ : Inner}
    (h : RawWritten s ino i off buf c.done i₁ t₁)
    (hc : ChunkWritten t₁ ino i₁ c ((buf.drop c.done).take c.len) i₂ t₂) (hpos : 0 < c.len)
    (hplace : c.index * blockSize + c.within = off + c.done) (hfits : c.within + c.len ≤ blockSize)
    (hle : c.done + c.len ≤ buf.length) : RawWritten s ino i off buf (c.done + c.len) i₂ t₂ := by
  have hindex : ∀ p, off + c.done ≤ p → p < off + c.done + c.len → p / blockSize = c.index := by
    intro p hlow hhigh
    exact (div_eq_index hfits (by omega) (by omega)).1
  refine ⟨h.rewritten.trans hc.rewritten, hc.record.trans h.record, h.recut.trans hc.recut, hc.raw, ?_, ?_, ?_, ?_,
    ?_⟩
  · intro n hn
    by_cases hidx : n = c.index
    · rw [hidx]
      exact hc.self
    · rw [hc.cells n hidx]
      exact h.mapped n hn
  · intro p hlow hhigh
    by_cases hidx : p / blockSize = c.index
    · rw [hidx]
      exact hc.self
    · rw [hc.cells _ hidx]
      by_cases hold : p < off + c.done
      · exact h.covered p hlow hold
      · exact absurd (hindex p (by omega) (by omega)) hidx
  · intro n hn
    have hne : n ≠ c.index := by
      rintro rfl
      exact hn (off + c.done) (by omega) (by omega) (hindex _ (le_refl _) (by omega))
    rw [hc.cells n hne]
    exact h.cells n fun p hlow hhigh ↦ hn p hlow (by omega)
  · intro p hlow hhigh
    by_cases hold : p < off + c.done
    · have hsame : t₂.storedByte i₂ p = t₁.storedByte i₁ p := by
        by_cases hidx : p / blockSize = c.index
        · apply hc.around p (by omega)
          rw [← hidx]
          exact h.covered p hlow hold
        · exact hc.outside p hidx
      rw [hsame]
      exact h.inside p hlow hold
    · rw [hc.inside p (by omega) (by omega), hplace, List.getD_eq_getElem?_getD, List.getElem?_take,
        if_pos (by omega), List.getElem?_drop, List.getD_eq_getElem?_getD]
      congr 2
      omega
  · intro p hp hcell
    have hsame : t₂.storedByte i₂ p = t₁.storedByte i₁ p := by
      by_cases hidx : p / blockSize = c.index
      · apply hc.around p (by omega)
        rcases hcell with hne | hnone
        · rw [← hidx]
          exact h.mapped _ hne
        · exact absurd ((hindex _ (le_refl _) (by omega)).trans hidx.symm)
            (hnone (off + c.done) (by omega) (by omega))
      · exact hc.outside p hidx
    rw [hsame]
    exact h.outside p hp (hcell.imp id fun hnone q hlow hhigh ↦ hnone q hlow (by omega))

/-- A write to a raw file. -/
theorem writeDataRaw_writes (h : s.Inv s.inodes []) (hmem : s.inodes.find? ino = some i) (hlaid : s.Laid i)
    (hkind : i.dataKind ≠ .inline) (hraw : ∀ e ∈ i.extents, e.compress = 0) {off : ℕ} {buf : Bytes}
    (hstop : off + buf.length ≤ maxFileSize) :
    (writeDataRaw ino off buf).Holds s (fun _ t ↦ ∃ i', RawWritten s ino i off buf buf.length i' t)
      (fun e _ ↦ e.IsHost) := by
  unfold writeDataRaw
  by_cases hnil : buf = []
  · rw [if_pos hnil, hnil]
    exact ⟨i, rawWritten_zero h hmem hlaid hkind hraw off []⟩
  rw [if_neg hnil, Exec.holds_bind_of_ok (getInode_mem hmem), Exec.when, if_neg hkind, Exec.holds_bind,
    Exec.holds_exec_pure]
  refine (Exec.holds_forEach (fun rest t ↦ ∃ done i', Chunk.Tiles blockSize off buf.length done rest ∧
    RawWritten s ino i off buf done i' t) ?_ _ ?_).mono ?_ (fun _ _ he ↦ he)
  · rintro c rest t ⟨done, i₁, htiles, hwritten⟩
    cases htiles with
    | cons pos le place fits whole tail =>
      have hmax : maxFileSize + blockSize ≤ maxLogical * blockSize := by decide
      have hlog : c.index + 1 ≤ maxLogical := by
        have hlt : (c.index + 1) * blockSize ≤ maxLogical * blockSize := by
          rw [Nat.add_mul]
          omega
        exact Nat.le_of_mul_le_mul_right hlt (by decide)
      refine (writeChunk_writes hwritten.rewritten.inv hwritten.rewritten.find hwritten.rewritten.laid
        hwritten.recut.kind hwritten.raw buf hlog fits le).mono ?_ (fun _ _ he ↦ he)
      rintro _ u ⟨i₂, hchunk⟩
      exact ⟨_, i₂, tail, hwritten.step hchunk pos place fits le⟩
  · exact ⟨0, i, Chunk.list_tiles (by decide) off buf.length, rawWritten_zero h hmem hlaid hkind hraw off buf⟩
  · rintro _ t ⟨done, i', htiles, hwritten⟩
    cases htiles
    exact ⟨i', hwritten⟩

/-! ## Inline data moves to blocks -/

theorem getD_dataBlock (data : Bytes) (n : ℕ) {q : ℕ} (hq : q < blockSize) :
    (dataBlock data n).byte q = data.getD (n * blockSize + q) 0 := by
  unfold dataBlock Buf.ofBytes
  rw [Buf.put_byte]
  split_ifs with hin
  · rw [Nat.sub_zero, List.getD_eq_getElem?_getD, List.getElem?_take, if_pos hq, List.getElem?_drop,
      List.getD_eq_getElem?_getD]
  · rw [List.length_take, List.length_drop] at hin
    rw [List.getD_eq_default]
    · rfl
    · omega

/-- The file after its inline data was moved to blocks. -/
structure Promoted (s : Inner) (ino : ℕ) (i i' : Inode) (t : Inner) : Prop where
  rewritten : Rewritten s ino i' t
  record : t.recordCache = s.recordCache
  recut : Recut i i'
  raw : ∀ e ∈ i'.extents, e.compress = 0
  bytes : ceilBlocks i.inlineData.length < u32Limit → ∀ p, t.storedByte i' p = i.inlineData.getD p 0
  mapped : ceilBlocks i.inlineData.length < u32Limit → ∀ n, n < ceilBlocks i.inlineData.length →
    cellAt i'.extents n ≠ .hole

/-- An empty file has nothing to move. -/
theorem promoted_of_empty (h : s.Inv s.inodes []) (hmem : s.inodes.find? ino = some i) (hkind : i.dataKind = .inline)
    (hempty : i.inlineData = []) : Promoted s ino i { i with dataKind := .extents, inlineData := [] }
      { s with
        inodes := s.inodes.insert ino { i with dataKind := .extents, inlineData := [] }
        dirtyInodes := s.dirtyInodes.insert ino () } := by
  have hwf := h.numbered.shape ino i hmem
  have hnone := hwf.inline hkind
  refine ⟨⟨rfl, rfl, ?_, ?_, fun _ _ _ _ _ _ _ hP ↦ hP⟩, rfl, ⟨rfl, by simp⟩, fun e he ↦ ?_, fun _ p ↦ ?_,
    fun _ n hn ↦ ?_⟩
  · refine h.update hmem _ ⟨fun e he ↦ (hwf.extents e he).congr id, hwf.clear, hwf.tree, hwf.size_le, ?_⟩ rfl rfl
      rfl (fun _ hk ↦ absurd hkind hk)
    intro hk
    cases hk
  · refine laid_of_raw (fun e he ↦ ?_) (fun b hb ↦ ?_)
    · rw [show Inode.extents _ = i.extents from rfl, hnone] at he
      cases he
    · rw [show Inode.extents _ = i.extents from rfl, hnone] at hb
      exact absurd hb (by simp [extentRanges])
  · rw [show Inode.extents _ = i.extents from rfl, hnone] at he
    cases he
  · rw [storedByte, show Inode.extents _ = i.extents from rfl, hnone, hempty]
    rfl
  · rw [hempty] at hn
    exact absurd hn (Nat.not_lt_zero n)

theorem promoteInline_promotes (h : s.Inv s.inodes []) (hmem : s.inodes.find? ino = some i)
    (hkind : i.dataKind = .inline) :
    (promoteInline ino).Holds s (fun _ t ↦ ∃ i', Promoted s ino i i' t) (fun e _ ↦ e.IsHost) := by
  have hwf := h.numbered.shape ino i hmem
  unfold promoteInline
  rw [Exec.holds_bind_of_ok (getInode_mem hmem), if_neg (by rw [hkind]; simp)]
  by_cases hempty : i.inlineData = []
  · rw [if_pos hempty, Exec.holds_iff_of_ok (getInodeMut_mem hmem _)]
    exact ⟨_, promoted_of_empty h hmem hkind hempty⟩
  · rw [if_neg hempty]
    dsimp only
    set need := max (ceilBlocks i.inlineData.length) 1 with hneed
    refine (allocate_takes h (by omega : 0 < need)).bind ?_ (fun _ _ he ↦ he)
    rintro phys _ ⟨hinv, -, alloc, img, rfl, hgrown⟩
    refine (writePhysicalBytes_fills (n := need) hinv (fun b hlow hhigh ↦ ?_) i.inlineData le_rfl).bind ?_
      (fun _ _ he ↦ he)
    · rw [cover_cons, span_eq_one ⟨hlow, hhigh⟩]
      omega
    rintro _ _ ⟨hinv', d, rfl, hstep, hcopies⟩
    set w : Inner := withDisk { s with alloc := alloc, image := img } d
    set i₁ : Inode := { i with
      inlineData := [], dataKind := .extents, extents := [], blocks := need * (blockSize / 512) }
    set ext := Extent.withPhys 0 phys (need % u32Limit) (need % u32Limit) 0 with hext
    have hmod : need % u32Limit < u32Limit := Nat.mod_lt _ (by decide)
    have hphys : phys < u64Limit := by
      have hin := hinv.lt_total (b := phys) (by
        rw [cover_cons, span_eq_one ⟨le_refl _, by omega⟩]
        omega)
      have htotal := hinv.geometry.total
      omega
    have hextwf : ext.Wf i₁ := Extent.withPhys_wf hmod (by
      have hmax : u32Limit ≤ maxLogical := by decide
      omega) (fun _ ↦ hphys)
    have hwf₁ : i₁.Wf :=
      ⟨fun e he ↦ (List.not_mem_nil he).elim, List.Pairwise.nil, hwf.tree, hwf.size_le, fun _ ↦ rfl⟩
    rw [Exec.holds_bind_of_ok (getInodeMut_mem (s := w) hmem _)]
    refine (addExtent_eval (i := i₁) (KeyMap.find?_insert_self _ _ _) rfl hwf₁ hextwf
      (fun e he ↦ by cases he)).mono ?_ (fun _ _ he ↦ he.elim)
    rintro _ _ ⟨extents, hadded, rfl⟩
    rw [KeyMap.insert_insert, KeyMap.insert_insert]
    have hlen : ext.physLen = need % u32Limit := Extent.withPhys_physLen
    have hcover : ∀ b, cover (extentRanges extents) b = span phys (need % u32Limit) b := by
      intro b
      rw [hadded.cover, hlen]
      exact Nat.zero_add _
    have hraw := hadded.raw (fun e he ↦ by cases he) rfl
    have hinside : ∀ b, 0 < span phys (need % u32Limit) b → phys ≤ b ∧ b < phys + need := by
      intro b hb
      have hle := Nat.mod_le need u32Limit
      by_cases hin : phys ≤ b ∧ b < phys + need % u32Limit
      · omega
      · rw [span_eq_zero hin] at hb
        cases hb
    have hwritten : ∀ b, phys ≤ b → b < phys + need → d.Copies (· = dataBlock i.inlineData (b - phys)) b := by
      intro b hlow hhigh
      have hcopy := hcopies (b - phys) (by omega)
      rwa [Nat.add_sub_cancel' hlow] at hcopy
    refine ⟨setExtents extents i₁, ⟨rfl, rfl, ?_, laid_of_raw hraw fun b hb ↦ ?_, ?_⟩, rfl,
      ⟨rfl, kindOf_ne_inline extents⟩, hraw, fun hsmall p ↦ ?_, fun hsmall n hn ↦ ?_⟩
    · refine hinv'.exchange hmem (setExtents extents i₁)
        ⟨fun e he ↦ (hadded.wf e he).congr id, hadded.clear, hwf.tree, hwf.size_le,
        fun hk ↦ absurd hk (kindOf_ne_inline extents)⟩ rfl [] [] (fun b ↦ ?_) (fun e he hpacked ↦ ?_) ?_
      · rw [cover_ranges, cover_ranges, cover_nil, cover_cons, cover_nil]
        change cover (extentRanges extents) b + (cover i.treeRanges b + cover i.xattrRanges b) + 0 + 0 ≤ _
        rw [hcover b]
        dsimp only
        have hspan : span phys (need % u32Limit) b ≤ span phys need b := by
          have hone := span_le_one phys (need % u32Limit) b
          by_cases hb : 0 < span phys (need % u32Limit) b
          · rw [span_eq_one (hinside b hb)]
            exact hone
          · omega
        omega
      · rw [Extent.isCompressed, hraw e he] at hpacked
        cases hpacked
      · intro c hc hck hdirty
        obtain ⟨x, hx, -, hxkind⟩ := (hinv'.numbered.record c hc).owner hdirty
        rw [hck] at hx
        cases hmem.symm.trans hx
        exact absurd hkind hxkind
    · change 0 < cover (extentRanges extents) b at hb
      rw [hcover b] at hb
      obtain ⟨hlow, hhigh⟩ := hinside b hb
      exact (hwritten b hlow hhigh).stable
    · intro k j hk hj b hb P hP
      refine hstep.copies b ?_ P ((CachedImage.Step.of_grown hgrown).copies b (fun hf ↦ hf) P hP)
      intro hin
      have hfree := (hinv.hand_free (b := b) (by
        rw [cover_cons, span_eq_one hin]
        omega)).2 k j hj
      rw [cover_ranges] at hfree
      omega
    · have hsmall' : need % u32Limit = need := Nat.mod_eq_of_lt (by
        have hone : 1 < u32Limit := by decide
        omega)
      have hcell := hadded.cell (p / blockSize)
      unfold storedByte
      change cellByte _ p (cellAt extents (p / blockSize)) = _
      by_cases hin : p / blockSize < need
      · have hext' : ext.logical ≤ p / blockSize ∧ p / blockSize < ext.logicalEnd := by
          rw [hext, hsmall']
          refine ⟨Nat.zero_le _, ?_⟩
          change p / blockSize < 0 + need
          omega
        rw [hcell, if_pos hext', Extent.cell_raw rfl, cellByte_raw]
        have hview := (hwritten (phys + p / blockSize) (by omega) (by omega)).view
        rw [Nat.add_sub_cancel_left] at hview
        change (d.view (phys + (p / blockSize - 0))).byte (p % blockSize) = _
        rw [Nat.sub_zero, hview, getD_dataBlock _ _ (Nat.mod_lt _ (by decide)), Nat.mul_comm, Nat.div_add_mod]
      · have hext' : ¬(ext.logical ≤ p / blockSize ∧ p / blockSize < ext.logicalEnd) := by
          rw [hext, hsmall']
          unfold Extent.withPhys Extent.logicalEnd
          dsimp only
          omega
        rw [hcell, if_neg hext']
        have hle := le_ceilBlocks_mul i.inlineData.length
        have hpos : ceilBlocks i.inlineData.length ≤ p / blockSize := by omega
        have hp := (Nat.le_div_iff_mul_le (by decide : 0 < blockSize)).mp hpos
        rw [List.getD_eq_default _ _ (by omega)]
        rfl
    · have hsmall' : need % u32Limit = need := Nat.mod_eq_of_lt (by
        have hone : 1 < u32Limit := by decide
        omega)
      have hext' : ext.logical ≤ n ∧ n < ext.logicalEnd := by
        rw [hext, hsmall']
        refine ⟨Nat.zero_le _, ?_⟩
        change n < 0 + need
        omega
      change cellAt extents n ≠ .hole
      rw [hadded.cell n, if_pos hext']
      exact Extent.cell_ne_hole ext n

end LinuxFile.Inner
