import LinuxFile.Theorems.WriteFrame

/-!
# Shrinking a file and making it longer again

A file that does not compress is cut after whole blocks, so what its last block holds behind the new end stays there
and is seen again when the file grows. Only a file that goes back into its inode forgets it.
-/

namespace LinuxFile.Inner

variable {s t u : Inner} {i i' : Inode} {ino n m off : ℕ} {buf : Bytes}

/-- What is left of the extents of a file that is cut to `n` bytes. -/
def cutExtents (i : Inode) (n : ℕ) : List Extent := i.extents.flatMap (cutKeep (ceilBlocks n))

/-- Where the stored bytes of a file that has been cut to `n` bytes end. -/
def keptEnd (i : Inode) (n : ℕ) : ℕ :=
  if n ≤ inlineMax ∧ (cutExtents i n).length ≤ 1 then n else ceilBlocks n * blockSize

/-- The file after it has been cut, with all its stored bytes, those behind the end included. -/
structure Shrunk (s : Inner) (ino : ℕ) (i : Inode) (n : ℕ) (i' : Inode) (t : Inner) : Prop where
  cut : FileCut s ino i n i' t
  bytes : ∀ p, t.fileByte ino i' p = if p < keptEnd i n then s.fileByte ino i p else 0

theorem storedByte_cut (hwf : i.Wf) (huses : i.usesCompression = false) (hext : i'.extents = cutExtents i n) (p : ℕ) :
    s.storedByte i' p = if p < ceilBlocks n * blockSize then s.storedByte i p else 0 := by
  unfold storedByte
  rw [hext, cutExtents, (cut_of_wf hwf (raw_of_uncompressed hwf huses) (ceilBlocks n)).cell,
    apply_ite (s.cellByte p)]
  exact if_congr div_lt_ceilBlocks rfl rfl

section Shrink

variable (h : s.Sound) (hmem : s.inodes.find? ino = some i) (hkind : i.dataKind ≠ .inline)
  (huses : i.usesCompression = false)

include h hmem hkind huses

/-- Cutting the extents and going back into the inode, when no record is held. -/
theorem shrink_shrinks (hnone : s.recordCache = none) (now : Timespec) (hn : n ≤ i.size) :
    (do shrinkRaw ino n i now; demoteInline ino n now : Fs Unit).Holds s
      (fun _ t ↦ ∃ i', Shrunk s ino i n i' t) (fun e _ ↦ e.IsHost) := by
  have hwf := h.wf hmem
  set i₁ : Inode := Inode.touchMtime { i with
    extents := cutExtents i n, size := n, blocks := sectorsOf (cutExtents i n) } now with hi₁
  set t : Inner := { s with
    alloc := (i.extents.flatMap (cutFree (ceilBlocks n))).foldl (fun a r ↦ a.freeRange r.1 r.2) s.alloc
    inodes := s.inodes.insert ino i₁
    dirtyInodes := s.dirtyInodes.insert ino () } with ht
  have hcut : shrinkRaw ino n i now s = .ok () t := by
    unfold shrinkRaw freeRanges
    rw [Exec.bind_apply, Exec.modify_apply]
    exact getInodeMut_mem (s := { s with
      alloc := (i.extents.flatMap (cutFree (ceilBlocks n))).foldl (fun a r ↦ a.freeRange r.1 r.2) s.alloc }) hmem _
  obtain ⟨j, hfile⟩ := (shrinkRaw_cuts h hnone hmem hkind huses now (hn.trans hwf.size_le)).of_ok hcut
  have hfind : t.inodes.find? ino = some i₁ := KeyMap.find?_insert_self _ _ _
  have hj : j = i₁ := Option.some.inj (hfile.find.symm.trans hfind)
  subst hj
  have hkind₁ : i₁.dataKind ≠ .inline := hkind
  have hext : i₁.extents = cutExtents i n := rfl
  have hbytes : ∀ p, t.fileByte ino i₁ p = if p < ceilBlocks n * blockSize then s.fileByte ino i p else 0 := by
    intro p
    rw [fileByte_none hfile.record hkind₁, fileByte_none hnone hkind]
    exact storedByte_cut (s := s) hwf huses rfl p
  rw [Exec.holds_bind_of_ok hcut]
  refine ((demoteInline_cuts hfile.edited.sound hfile.record hfind now hfile.size).and
    (demoteInline_kind hfind n now)).mono ?_ (fun _ _ he ↦ he.1)
  rw [hext]
  rintro _ u ⟨⟨i', hlast⟩, hlastKind⟩
  refine ⟨i', hfile.trans hn hlast, fun p ↦ ?_⟩
  unfold keptEnd
  by_cases hsmall : n ≤ inlineMax ∧ (cutExtents i n).length ≤ 1
  · rw [if_pos hsmall] at hlastKind
    obtain ⟨k, hk, hinline⟩ := hlastKind
    have hik : k = i' := Option.some.inj (hk.symm.trans hlast.find)
    subst hik
    have hlength := hlast.edited.sound.inline ino k hk hinline
    rw [if_pos hsmall]
    by_cases hp : p < n
    · rw [if_pos hp, hlast.below p hp (by rwa [hfile.size]), hbytes p, if_pos (by
        have := le_ceilBlocks_mul n
        omega)]
    · rw [if_neg hp, fileByte_inline hinline, List.getD_eq_default _ _ (by rw [hlength, hlast.size]; omega)]
  · rw [if_neg hsmall] at hlastKind
    subst hlastKind
    have hik : i' = i₁ := Option.some.inj (hlast.find.symm.trans hfind)
    rw [if_neg hsmall, hik]
    exact hbytes p

/-- `truncate_data` to a smaller size. -/
theorem truncateData_shrinks (hwritable : s.writable = true) (hn : n < i.size) :
    (truncateData ino n).Holds s (fun _ t ↦ ∃ i', Shrunk s ino i n i' t) (fun e _ ↦ e.IsHost) := by
  have hsize := (h.wf hmem).size_le
  unfold truncateData
  rw [Exec.holds_bind_of_ok (requireWrite_ok hwritable), if_neg (by omega)]
  refine (flushRecordCache_flushes h).bind ?_ (fun _ _ he ↦ he)
  intro _ t ht
  obtain ⟨j, hj, hdata⟩ := ht.same.some ino i hmem
  have hji : j = i := hdata.stowed.resolve_right fun hst ↦ by
    rw [huses] at hst
    cases hst.2.1
  subst hji
  have hheld : s.DirtyHeld ino := fun c hc hino ↦ absurd hino (h.held_ne hmem huses c hc)
  rw [Exec.holds_bind_of_ok (getInode_mem hj), Exec.holds_bind, Exec.holds_read, if_neg (by omega), if_neg hkind,
    if_pos hn, if_neg (by rw [huses]; exact Bool.false_ne_true)]
  refine (shrink_shrinks ht.sound hj hkind huses ht.none _ hn.le).mono ?_ (fun _ _ he ↦ he)
  rintro _ u ⟨i', hshrunk⟩
  refine ⟨i', hshrunk.cut.of_emptied ht hdata, fun p ↦ ?_⟩
  rw [hshrunk.bytes p, ht.all ino hheld j j hmem hj p]

end Shrink

theorem getD_lengthen {data : Bytes} (h : data.length ≤ m) (p : ℕ) : (resizeBytes data m).getD p 0 = data.getD p 0 := by
  by_cases hp : p < m
  · exact getD_resizeBytes data hp
  · rw [List.getD_eq_default _ _ (by rw [resizeBytes_length]; omega), List.getD_eq_default _ _ (by omega)]

/-- `truncate_data` to a larger size shows the bytes that are there. -/
theorem truncateData_extends (h : s.Sound) (hwritable : s.writable = true) (hmem : s.inodes.find? ino = some i)
    (huses : i.usesCompression = false) (hm : i.size < m) (hmax : m ≤ maxFileSize) :
    (truncateData ino m).Holds s
      (fun _ t ↦ ∃ i', FileCut s ino i m i' t ∧ ∀ p, t.fileByte ino i' p = s.fileByte ino i p)
      (fun e _ ↦ e.IsHost) := by
  have hheld : s.DirtyHeld ino := fun c hc hino ↦ absurd hino (h.held_ne hmem huses c hc)
  have hbytes : (truncateData ino m).Holds s
      (fun _ t ↦ ∃ i', t.inodes.find? ino = some i' ∧ ∀ p, t.fileByte ino i' p = s.fileByte ino i p)
      (fun e _ ↦ e.IsHost) := by
    unfold truncateData
    rw [Exec.holds_bind_of_ok (requireWrite_ok hwritable), if_neg (by omega)]
    refine (flushRecordCache_flushes h).bind ?_ (fun _ _ he ↦ he)
    intro _ u hu
    obtain ⟨j, hj, hdata⟩ := hu.same.some ino i hmem
    have hall := hu.all ino hheld i j hmem hj
    have hsize := hdata.size
    rw [Exec.holds_bind_of_ok (getInode_mem hj), Exec.holds_bind, Exec.holds_read, if_neg (by omega)]
    by_cases hkind : j.dataKind = .inline
    · have hlength := hu.sound.inline ino j hj hkind
      set j' := Inode.touchMtime { j with inlineData := resizeBytes j.inlineData m, size := m } u.env.now with hj'
      have hkind' : j'.dataKind = .inline := hkind
      rw [if_pos hkind, Exec.holds_iff_of_ok (getInodeMut_mem hj _)]
      refine ⟨j', KeyMap.find?_insert_self _ _ _, fun p ↦ ?_⟩
      rw [← hall p, fileByte_inline hkind, fileByte_inline hkind']
      exact getD_lengthen (by omega) p
    · rw [if_neg hkind, if_neg (by omega), Exec.holds_iff_of_ok (getInodeMut_mem hj _)]
      refine ⟨_, KeyMap.find?_insert_self _ _ _, fun p ↦ ?_⟩
      rw [← hall p]
      exact fileByte_inode (s := u) rfl rfl rfl ino p
  refine ((truncateData_cuts h hwritable hmem hmax).and hbytes).mono ?_ (fun _ _ he ↦ he.1)
  rintro _ t ⟨⟨i', hcut⟩, j, hj, hall⟩
  have hij : j = i' := Option.some.inj (hj.symm.trans hcut.find)
  subst hij
  exact ⟨j, hcut, hall⟩

/-- The file after it was cut to `n` bytes and then made longer: its first `n` bytes, and zeros up to `stop`. -/
structure ZeroFilled (s : Inner) (ino n stop : ℕ) (u : Inner) : Prop where
  length : stop ≤ (u.contents ino).length
  below : ∀ p, p < n → (u.contents ino).getD p 0 = (s.contents ino).getD p 0
  zeros : ∀ p, n ≤ p → p < stop → (u.contents ino).getD p 0 = 0
  reads : ∀ off count, u.ReadGives ino off count (PlainFile.read (u.contents ino) off count)

/-- The file holds zeros from `n` to `stop`, as far as a cut to `n` bytes keeps it. -/
def ZeroTail (s : Inner) (ino : ℕ) (i : Inode) (n stop : ℕ) : Prop :=
  ∀ p, n ≤ p → p < min stop (keptEnd i n) → s.fileByte ino i p = 0

theorem Shrunk.blank (h : Shrunk s ino i n i' t) {p : ℕ} (hzero : t.fileByte ino i' p = 0) : t.Blank ino i' p := by
  refine ⟨hzero, ?_⟩
  by_cases hkind : i'.dataKind = .inline
  · exact storedByte_inline (h.cut.edited.sound.wf h.cut.find) hkind p
  · rwa [fileByte_none h.cut.record hkind] at hzero

theorem Shrunk.zero_of_tail (h : Shrunk s ino i n i' t) {stop p : ℕ} (htail : ZeroTail s ino i n stop) (hlow : n ≤ p)
    (hhigh : p < stop) : t.fileByte ino i' p = 0 := by
  rw [h.bytes p]
  split_ifs with hp
  · exact htail p hlow (lt_min hhigh hp)
  · rfl

theorem Shrunk.byte_below (h : Shrunk s ino i n i' t) (hmem : s.inodes.find? ino = some i) (hn : n < i.size) {p : ℕ}
    (hp : p < n) : t.fileByte ino i' p = (s.contents ino).getD p 0 := by
  rw [h.cut.below p hp (hp.trans hn), getD_contents hmem, if_pos (hp.trans hn)]

section Shrunk

variable (h : Shrunk s ino i n i' t) (hwritable : t.writable = true) (hmem : s.inodes.find? ino = some i)
  (hn : n < i.size) (huses : i'.usesCompression = false)

include h hwritable hmem hn huses

/-- Making the file longer by its size alone. -/
theorem Shrunk.truncate_iff (hm : n < m) (hrun : truncateData ino m t = .ok () u) :
    ZeroFilled s ino n m u ↔ ZeroTail s ino i n m := by
  have hsize := h.cut.size
  obtain ⟨j, hcut, hbytes⟩ := (truncateData_extends h.cut.edited.sound hwritable h.cut.find huses (by omega)
    (truncateData_size_le hwritable hrun)).of_ok hrun
  have hcontents : ∀ p, p < m → (u.contents ino).getD p 0 = t.fileByte ino i' p := by
    intro p hp
    rw [getD_contents hcut.find, hcut.size, if_pos hp, hbytes p]
  have hraw : RawFile ino u := (truncateData_keepsRaw ino m).of_ok hrun ⟨i', h.cut.find, huses⟩
  obtain ⟨j', hj', huses'⟩ := hraw
  constructor
  · intro hfilled p hlow hhigh
    obtain ⟨hpm, hkept⟩ := lt_min_iff.mp hhigh
    have hzero := hfilled.zeros p hlow hpm
    rwa [hcontents p hpm, h.bytes p, if_pos hkept] at hzero
  · intro htail
    refine ⟨hcut.length.ge, fun p hp ↦ ?_, fun p hlow hhigh ↦ ?_, fun off count ↦
      hcut.edited.sound.readGives hj' (Or.inl huses') off count⟩
    · rw [hcontents p (hp.trans hm), h.byte_below hmem hn hp]
    · rw [hcontents p hhigh, h.zero_of_tail htail hlow hhigh]

/-- Making the file longer by a write behind its end. -/
theorem Shrunk.write_filled (hoff : n ≤ off) (hne : buf ≠ []) (hstop : off + buf.length ≤ maxFileSize) {count : ℕ}
    (hrun : writeData ino off buf t = .ok count u) (htail : ZeroTail s ino i n off)
    (hspared : ∀ p, p < off → Spared i' off buf.length p) : ZeroFilled s ino n off u := by
  have hsize := h.cut.size
  obtain ⟨-, j, hwritten⟩ := (writeData_writes h.cut.edited.sound hwritable h.cut.find hne hstop).of_ok hrun
  have hraw : RawFile ino u := (writeData_keepsRaw ino off buf).of_ok hrun ⟨i', h.cut.find, huses⟩
  obtain ⟨j', hj', huses'⟩ := hraw
  have hlength := hwritten.length h.cut.find
  refine ⟨by omega, fun p hp ↦ ?_, fun p hlow hhigh ↦ ?_, fun off count ↦
    hwritten.edited.sound.readGives hj' (Or.inl huses') off count⟩
  · rw [hwritten.getD_outside h.cut.find (Or.inl (by omega)) (hspared p (by omega)) (by omega),
      getD_contents h.cut.find, if_pos (by omega), h.byte_below hmem hn hp]
  · have hblank := hwritten.blank p (Or.inl hhigh) (hspared p hhigh) (by omega)
      (h.blank (h.zero_of_tail htail hlow hhigh))
    rw [getD_contents hwritten.find, if_pos (by rw [hwritten.size]; omega), hblank.1]

end Shrunk

/-- A file that is cut to `n` bytes and then made longer shows zeros from `n` on exactly when the bytes that the cut
keeps behind `n` are zeros; for a write behind the end, when it also takes no block that it does not fill. -/
theorem shrink_then_extend (hs : s.Reached) (hmem : s.inodes.find? ino = some i) (huses : i.usesCompression = false)
    (hkind : i.dataKind ≠ .inline) (hn : n < i.size) (hcut : truncateData ino n s = .ok () t) :
    (∀ m u, n < m → truncateData ino m t = .ok () u → (ZeroFilled s ino n m u ↔ ZeroTail s ino i n m)) ∧
    ∀ off buf count u, n ≤ off → buf ≠ [] → off + buf.length ≤ maxFileSize → writeData ino off buf t = .ok count u →
      ZeroTail s ino i n off →
      (∀ j, t.inodes.find? ino = some j → ∀ p, p < off → Spared j off buf.length p) → ZeroFilled s ino n off u := by
  have hsound := hs.tidy.sound
  obtain ⟨i', hshrunk⟩ := (truncateData_shrinks hsound hmem hkind huses hs.tidy.writable hn).of_ok hcut
  have hwritable : t.writable = true := hshrunk.cut.edited.shell.writable.trans hs.tidy.writable
  have hraw : RawFile ino t := (truncateData_keepsRaw ino n).of_ok hcut ⟨i, hmem, huses⟩
  have huses' : i'.usesCompression = false := by
    obtain ⟨j, hj, hoff⟩ := hraw
    have hji : j = i' := Option.some.inj (hj.symm.trans hshrunk.cut.find)
    rw [← hji, hoff]
  constructor
  · intro m u hm hrun
    exact hshrunk.truncate_iff hwritable hmem hn huses' hm hrun
  · intro off buf count u hoff hne hstop hrun htail hspared
    exact hshrunk.write_filled hwritable hmem hn huses' hoff hne hstop hrun htail
      (hspared i' hshrunk.cut.find)

/-- The file has blocks, does not compress and is longer than 150 bytes, and cutting it to them returns. -/
def cutTest (s : Inner) (after : Inner → Bool) : Bool :=
  (s.inodes.find? 2).any (fun i ↦ !i.usesCompression && decide (i.dataKind ≠ .inline ∧ 150 < i.size)) &&
    (truncateData 2 150 s).okAnd fun _ t ↦ after t

theorem cutTest_runs {after : Inner → Bool} (h : (sampleCalls oneBlock).okAnd (fun calls s ↦
    (calls.all fun call ↦ call.2.regular call.1) && cutTest s after) = true) : ∃ first calls s i t,
    sampleImage = .ok () first ∧ Exec.Runs Operation.exec first calls s ∧ calls.map Prod.snd = oneBlock ∧
    s.Reached ∧ s.inodes.find? 2 = some i ∧ i.usesCompression = false ∧ i.dataKind ≠ .inline ∧ 150 < i.size ∧
    truncateData 2 150 s = .ok () t ∧ after t = true := by
  obtain ⟨first, calls, s, himage, hrun, hops, hs, htest⟩ := sampleCalls_reached h
  unfold cutTest at htest
  rw [Bool.and_eq_true] at htest
  obtain ⟨i, hi, hbefore⟩ := (Option.any_eq_true ..).mp htest.1
  rw [Bool.and_eq_true, Bool.not_eq_true'] at hbefore
  obtain ⟨hkind, hsize⟩ := of_decide_eq_true hbefore.2
  obtain ⟨_, t, hcut, hafter⟩ := Outcome.exists_of_okAnd htest.2
  exact ⟨first, calls, s, i, t, himage, hrun, hops, hs, hi, hbefore.1, hkind, hsize, hcut, hafter⟩

theorem shrink_then_extend_sample : ∃ s i t, s.Reached ∧ s.inodes.find? 2 = some i ∧
    truncateData 2 150 s = .ok () t ∧ ∀ m u, 150 < m → truncateData 2 m t = .ok () u →
      (ZeroFilled s 2 150 m u ↔ ZeroTail s 2 i 150 m) := by
  have hplay : (sampleCalls oneBlock).okAnd (fun calls s ↦ (calls.all fun call ↦ call.2.regular call.1) &&
      cutTest s fun _ ↦ true) = true := by
    decide +kernel
  obtain ⟨-, -, s, i, t, -, -, -, hs, hi, huses, hkind, hsize, hcut, -⟩ := cutTest_runs hplay
  exact ⟨s, i, t, hs, hi, hcut, (shrink_then_extend hs hi huses hkind hsize hcut).1⟩

/-- Two hundred bytes cut to 150 and made longer to 160: the bytes that were cut off are seen again. -/
theorem cut_bytes_come_back : ∃ first calls s i t u, sampleImage = .ok () first ∧
    Exec.Runs Operation.exec first calls s ∧ calls.map Prod.snd = oneBlock ∧ s.Reached ∧
    s.inodes.find? 2 = some i ∧ i.usesCompression = false ∧ i.dataKind ≠ .inline ∧ 150 < i.size ∧
    truncateData 2 150 s = .ok () t ∧ truncateData 2 160 t = .ok () u ∧ ¬ZeroFilled s 2 150 160 u := by
  have hplay : (sampleCalls oneBlock).okAnd (fun calls s ↦ (calls.all fun call ↦ call.2.regular call.1) &&
      cutTest s fun t ↦ (truncateData 2 160 t).okAnd fun _ u ↦
        (readData 2 155 1 u).okAnd fun data _ ↦ decide (data = [1])) = true := by
    decide +kernel
  obtain ⟨first, calls, s, i, t, himage, hrun, hops, hs, hi, huses, hkind, hsize, hcut, hafter⟩ := cutTest_runs hplay
  obtain ⟨_, u, hgrow, hread⟩ := Outcome.exists_of_okAnd hafter
  obtain ⟨data, v, hdata, hone⟩ := Outcome.exists_of_okAnd hread
  refine ⟨first, calls, s, i, t, u, himage, hrun, hops, hs, hi, huses, hkind, hsize, hcut, hgrow, fun hfilled ↦ ?_⟩
  have hlength := hfilled.length
  have hbyte : data = [0] := by
    rw [(hfilled.reads 155 1).2.of_ok hdata, read_one (by omega), hfilled.zeros 155 (by decide) (by decide)]
  rw [of_decide_eq_true hone] at hbyte
  exact absurd hbyte (by decide)

end LinuxFile.Inner
