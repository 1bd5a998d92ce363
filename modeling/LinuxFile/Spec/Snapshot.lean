import LinuxFile.Spec.Remount

/-!
# The stored allocator

`write_alloc_blocks` spreads the encoded allocator over the blocks it has taken, and `read_alloc_blocks` collects them
again. The length of the encoding is a 32-bit field, so what is read back is the allocator exactly when its encoding is
shorter than that.
-/

namespace LinuxFile

namespace Allocator

variable {a : Allocator} {start n : ℕ} {bytes : Bytes} {img : Image}

/-! ## The encoding -/

theorem flatMap_entries_length (entries : List (ℕ × ℕ)) :
    (entries.flatMap fun e ↦ leBytes 8 e.1 ++ leBytes 8 e.2).length = 16 * entries.length := by
  induction entries with
  | nil => rfl
  | cons e rest ih =>
    rw [List.flatMap_cons, List.length_append, ih]
    simp
    omega

theorem encode_length (a : Allocator) : a.encode.length = 24 + 16 * a.free.size := by
  unfold encode KeyMap.size
  rw [List.length_append, flatMap_entries_length]
  simp [stateMagic]

/-- Reading as many extents as were written, each in the range of its fields. -/
theorem decodeFree_entries (entries : List (ℕ × ℕ)) (rest : Bytes) (free : KeyMap ℕ)
    (hrange : ∀ e ∈ entries, e.1 < u64Limit ∧ 0 < e.2 ∧ e.2 < u64Limit) :
    decodeFree entries.length ((entries.flatMap fun e ↦ leBytes 8 e.1 ++ leBytes 8 e.2) ++ rest) free =
      .ok (entries.foldl (fun acc e ↦ acc.insert e.1 e.2) free) := by
  induction entries generalizing free with
  | nil => rfl
  | cons e tail ih =>
    have he := hrange e List.mem_cons_self
    set more := (tail.flatMap fun e ↦ leBytes 8 e.1 ++ leBytes 8 e.2) ++ rest with hmore
    have hsplit : ((e :: tail).flatMap fun e ↦ leBytes 8 e.1 ++ leBytes 8 e.2) ++ rest =
        leBytes 8 e.1 ++ (leBytes 8 e.2 ++ more) := by
      rw [hmore, List.flatMap_cons]
      simp only [List.append_assoc]
    have hstart : (leBytes 8 e.1 ++ (leBytes 8 e.2 ++ more)).take 8 = leBytes 8 e.1 := List.take_left' (by simp)
    have hdrop : (leBytes 8 e.1 ++ (leBytes 8 e.2 ++ more)).drop 8 = leBytes 8 e.2 ++ more := List.drop_left' (by simp)
    have hlen : (leBytes 8 e.2 ++ more).take 8 = leBytes 8 e.2 := List.take_left' (by simp)
    have hrest : (leBytes 8 e.1 ++ (leBytes 8 e.2 ++ more)).drop 16 = more := by
      rw [← List.append_assoc]
      exact List.drop_left' (by simp)
    have hfirst : e.1 % 2 ^ 64 = e.1 := Nat.mod_eq_of_lt he.1
    have hsecond : e.2 % 2 ^ 64 = e.2 := Nat.mod_eq_of_lt he.2.2
    rw [hsplit, List.length_cons, decodeFree, if_neg (by simp; omega)]
    dsimp only
    rw [hstart, hdrop, hlen, hrest, leNat_leBytes_eight, leNat_leBytes_eight, hfirst, hsecond, if_pos he.2.1,
      List.foldl_cons]
    exact ih _ fun e h ↦ hrange e (List.mem_cons_of_mem _ h)

/-- The numbers of an allocator fit their fields on disk. -/
structure InRange (a : Allocator) : Prop where
  first : a.firstData < u64Limit
  total : a.totalBlocks < u64Limit
  size : a.free.size < u32Limit
  free : ∀ e ∈ a.free.entries, e.1 < u64Limit ∧ 0 < e.2 ∧ e.2 < u64Limit

theorem Ok.inRange (h : a.Ok) (htotal : a.totalBlocks < u64Limit) (hsize : a.free.size < u32Limit) : a.InRange where
  first := h.first_le.trans_lt htotal
  total := htotal
  size := hsize
  free e he := by
    have hfind : a.free.find? e.1 = some e.2 := KeyMap.find?_eq_some_iff.mpr he
    have hpos := h.positive e.1 e.2 hfind
    have hwithin := h.within hfind
    exact ⟨by omega, hpos, by omega⟩

theorem decode_encode (h : a.InRange) : decode a.encode = .ok a := by
  set tail := a.free.entries.flatMap fun e ↦ leBytes 8 e.1 ++ leBytes 8 e.2 with htail
  have hsplit : a.encode =
      stateMagic ++ (leBytes 8 a.firstData ++ (leBytes 8 a.totalBlocks ++ (leBytes 4 a.free.size ++ tail))) := by
    unfold encode
    simp only [List.append_assoc, htail]
  have hmagic : a.encode.take 4 = stateMagic := by
    rw [hsplit]
    exact List.take_left' rfl
  have hdrop₄ : a.encode.drop 4 =
      leBytes 8 a.firstData ++ (leBytes 8 a.totalBlocks ++ (leBytes 4 a.free.size ++ tail)) := by
    rw [hsplit]
    exact List.drop_left' rfl
  have hdrop₁₂ : a.encode.drop 12 = leBytes 8 a.totalBlocks ++ (leBytes 4 a.free.size ++ tail) := by
    rw [show 12 = 4 + 8 from rfl, ← List.drop_drop, hdrop₄]
    exact List.drop_left' (by simp)
  have hdrop₂₀ : a.encode.drop 20 = leBytes 4 a.free.size ++ tail := by
    rw [show 20 = 12 + 8 from rfl, ← List.drop_drop, hdrop₁₂]
    exact List.drop_left' (by simp)
  have hdrop₂₄ : a.encode.drop 24 = tail := by
    rw [show 24 = 20 + 4 from rfl, ← List.drop_drop, hdrop₂₀]
    exact List.drop_left' (by simp)
  have hcount : leNat ((a.encode.drop 20).take 4) = a.free.entries.length := by
    rw [hdrop₂₀, List.take_left' (by simp), leNat_leBytes_four]
    exact Nat.mod_eq_of_lt h.size
  have hfirst : leNat ((a.encode.drop 4).take 8) = a.firstData := by
    rw [hdrop₄, List.take_left' (by simp), leNat_leBytes_eight]
    exact Nat.mod_eq_of_lt h.first
  have htotal : leNat ((a.encode.drop 12).take 8) = a.totalBlocks := by
    rw [hdrop₁₂, List.take_left' (by simp), leNat_leBytes_eight]
    exact Nat.mod_eq_of_lt h.total
  have hfree : decodeFree a.free.entries.length tail KeyMap.empty = .ok a.free := by
    have hread := decodeFree_entries a.free.entries [] KeyMap.empty h.free
    rwa [List.append_nil, KeyMap.foldl_insert_entries] at hread
  unfold decode
  rw [if_neg (by rw [encode_length, hmagic]; simp), hcount, hdrop₂₄, hfree, hfirst, htotal]

/-- Each extent that is read takes sixteen bytes. -/
theorem decodeFree_size {count : ℕ} {rest : Bytes} {free found : KeyMap ℕ} (h : decodeFree count rest free = .ok found) :
    16 * found.size ≤ 16 * free.size + rest.length := by
  induction count generalizing rest free with
  | zero =>
    cases h
    omega
  | succ count ih =>
    rw [decodeFree] at h
    split_ifs at h with hshort
    dsimp only at h
    have hnext := ih h
    have hlen : (rest.drop 16).length = rest.length - 16 := List.length_drop
    have hinsert := (free.size_insert (leNat (rest.take 8)) (leNat ((rest.drop 8).take 8))).2
    split_ifs at hnext <;> omega

theorem decode_length {buf : Bytes} (h : decode buf = .ok a) : a.encode.length ≤ buf.length := by
  unfold decode at h
  split_ifs at h with hbad
  split at h
  · cases h
  · rename_i free hfree
    cases h
    have hsize := decodeFree_size hfree
    have hdrop : (buf.drop 24).length = buf.length - 24 := List.length_drop
    have hempty : (KeyMap.empty : KeyMap ℕ).size = 0 := rfl
    rw [encode_length]
    dsimp only
    rw [not_or] at hbad
    omega

/-! ## The blocks -/

/-- The blocks from `start` on hold these bytes as a snapshot, inside the file. -/
structure SnapshotAt (start n : ℕ) (bytes : Bytes) (img : Image) : Prop where
  blocks : ∀ i, i < n → img.block (start + i) = snapshotBlock bytes n i
  inside : (start + n) * blockSize ≤ img.len
  room : bytes.length ≤ n * perBlock

/-- The fields at the start of the first block. -/
theorem snapshotBlock_header (bytes : Bytes) (n : ℕ) : (snapshotBlock bytes n 0).slice 0 4 = snapshotMagic ∧
    (snapshotBlock bytes n 0).getU32 8 = bytes.length % 2 ^ 32 := by
  set base := (((Buf.zero blockSize).put 0 snapshotMagic).putU32 4 n).putU32 8 bytes.length with hbase
  have hmagic : base.slice 0 4 = snapshotMagic := by
    rw [hbase, Buf.putU32, Buf.slice_put_of_disjoint _ (by simp), Buf.putU32, Buf.slice_put_of_disjoint _ (by simp)]
    exact Buf.slice_put _ ⟨rfl, by decide⟩
  have hlength : leNat (base.slice 8 4) = bytes.length % 2 ^ 32 := by
    rw [hbase, Buf.putU32, Buf.slice_put _ ⟨by simp, by decide⟩, leNat_leBytes_four]
  unfold snapshotBlock Buf.getU32
  dsimp only
  rw [if_pos rfl, if_pos rfl]
  split_ifs
  · rw [Buf.slice_put_of_disjoint _ (by omega), Buf.slice_put_of_disjoint _ (by omega)]
    exact ⟨hmagic, hlength⟩
  · exact ⟨hmagic, hlength⟩

/-- The part of the bytes that block `i` holds. -/
theorem snapshotBlock_payload {i : ℕ} (hi : i * perBlock < bytes.length) :
    (snapshotBlock bytes n i).slice (if i = 0 then 16 else 0) (min (bytes.length - i * perBlock) perBlock) =
      (bytes.drop (i * perBlock)).take (min (bytes.length - i * perBlock) perBlock) := by
  have hper : perBlock = 4080 := rfl
  have hblock : blockSize = 4096 := rfl
  have hlen : ((bytes.drop (i * perBlock)).take (min (bytes.length - i * perBlock) perBlock)).length =
      min (bytes.length - i * perBlock) perBlock := by
    rw [List.length_take, List.length_drop]
    omega
  unfold snapshotBlock
  dsimp only
  rw [if_pos hi]
  by_cases hzero : i = 0
  · rw [if_pos hzero, if_pos hzero, show min (min (bytes.length - i * perBlock) perBlock) (blockSize - 16) =
      min (bytes.length - i * perBlock) perBlock by omega]
    exact Buf.slice_put _ ⟨hlen, by omega⟩
  · rw [if_neg hzero, if_neg hzero, show min (min (bytes.length - i * perBlock) perBlock) (blockSize - 0) =
      min (bytes.length - i * perBlock) perBlock by omega]
    exact Buf.slice_put _ ⟨hlen, by omega⟩

/-- The blocks still to be read add what they hold to the bytes before them. -/
theorem readSnapshot_reads (h : SnapshotAt start n bytes img) (hfaults : img.faults = []) :
    ∀ count i : ℕ, i + count = n →
      readSnapshot start bytes.length count i (bytes.take (i * perBlock)) img = .ok (bytes.take (n * perBlock)) img
  | 0, i, hi => by
    rw [show n = i by omega]
    rfl
  | count + 1, i, hi => by
    have hlt : i < n := by omega
    have hin : (start + i) * blockSize + blockSize ≤ img.len := by
      calc (start + i) * blockSize + blockSize = (start + i + 1) * blockSize := by ring
        _ ≤ (start + n) * blockSize := Nat.mul_le_mul_right _ (by omega)
        _ ≤ img.len := h.inside
    rw [readSnapshot, Exec.bind_eq_of_ok (Image.readBlock_answers hfaults hin)]
    by_cases hdone : bytes.length ≤ i * perBlock
    · have hroom := h.room
      rw [if_pos hdone, List.take_of_length_le hdone, List.take_of_length_le hroom]
      rfl
    · have hnext : bytes.take (i * perBlock) ++ (img.block (start + i)).slice (if i = 0 then 16 else 0)
          (min (bytes.length - i * perBlock) perBlock) = bytes.take ((i + 1) * perBlock) := by
        rw [h.blocks i hlt, snapshotBlock_payload (by omega), Nat.add_mul, one_mul, List.take_add]
        congr 1
        rw [← List.length_drop, List.take_eq_take_iff]
        omega
      rw [if_neg hdone, hnext]
      exact readSnapshot_reads h hfaults count (i + 1) (by omega)

/-- A stored allocator is read back. -/
theorem readAllocBlocks_reads (h : SnapshotAt start n a.encode img) (hfaults : img.faults = []) (hstart : start ≠ 0)
    (hpos : 0 < n) (hcount : n < u32Limit) (hlength : a.encode.length < u32Limit) (hrange : a.InRange) :
    readAllocBlocks start img = .ok a img := by
  have hblock : img.block start = snapshotBlock a.encode n 0 := h.blocks 0 hpos
  have hin : start * blockSize + blockSize ≤ img.len := by
    calc start * blockSize + blockSize = (start + 1) * blockSize := by ring
      _ ≤ (start + n) * blockSize := Nat.mul_le_mul_right _ (by omega)
      _ ≤ img.len := h.inside
  obtain ⟨hmagic, hnbytes⟩ := snapshotBlock_header a.encode n
  have hcount' : (img.block start).getU32 4 = n := by
    rw [hblock, snapshotBlock_count]
    exact Nat.mod_eq_of_lt hcount
  have hnbytes' : (img.block start).getU32 8 = a.encode.length := by
    rw [hblock, hnbytes]
    exact Nat.mod_eq_of_lt hlength
  have hread : readSnapshot start a.encode.length n 0 [] img = .ok a.encode img := by
    have hroom := h.room
    have hall := readSnapshot_reads h hfaults n 0 (by omega)
    rwa [Nat.zero_mul, List.take_zero, List.take_of_length_le hroom] at hall
  unfold readAllocBlocks
  rw [if_neg hstart, Exec.bind_eq_of_ok (Image.readBlock_answers hfaults hin)]
  dsimp only
  rw [if_neg (by rw [hblock, hmagic]; simp), hcount', hnbytes', Exec.bind_eq_of_ok hread, Nat.sub_self,
    List.replicate_zero, List.append_nil, decode_encode hrange]
  rfl

theorem readSnapshot_length {nbytes count : ℕ} {out : Bytes} : ∀ {i : ℕ} {acc : Bytes} {img img' : Image},
    acc.length ≤ nbytes → acc.length ≤ i * perBlock →
      readSnapshot start nbytes count i acc img = .ok out img' → out.length ≤ nbytes := by
  induction count with
  | zero =>
    intro i acc img img' hacc _ h
    cases h
    exact hacc
  | succ count ih =>
    intro i acc img img' hacc hi h
    rw [readSnapshot] at h
    obtain ⟨blk, img₁, -, h⟩ := Exec.bind_ok_iff.mp h
    by_cases hdone : nbytes ≤ i * perBlock
    · rw [if_pos hdone] at h
      cases h
      exact hacc
    · rw [if_neg hdone] at h
      have hnext : (i + 1) * perBlock = i * perBlock + perBlock := by ring
      refine ih ?_ ?_ h
      · rw [List.length_append, Buf.slice_length]
        omega
      · rw [List.length_append, Buf.slice_length]
        omega

/-- Whatever is read has an encoding whose length fits the field. -/
theorem readAllocBlocks_length {img' : Image} (h : readAllocBlocks start img = .ok a img') :
    a.encode.length < u32Limit := by
  unfold readAllocBlocks at h
  split_ifs at h with hstart
  · cases h
  obtain ⟨hdr, img₁, -, h⟩ := Exec.bind_ok_iff.mp h
  dsimp only at h
  split_ifs at h with hmagic
  · cases h
  obtain ⟨out, img₂, hread, h⟩ := Exec.bind_ok_iff.mp h
  have hlen : out.length ≤ hdr.getU32 8 := readSnapshot_length (Nat.zero_le _) (Nat.zero_le _) hread
  cases hdecode : decode (out ++ List.replicate (hdr.getU32 8 - out.length) 0) with
  | error e =>
    rw [hdecode] at h
    cases h
  | ok found =>
    rw [hdecode] at h
    cases h
    have hle := decode_length hdecode
    have hlt := hdr.getU32_lt 8
    rw [List.length_append, List.length_replicate] at hle
    unfold u32Limit
    omega

/-! ## Storing -/

/-- Taking blocks changes the number of free extents by at most one. -/
theorem allocate_size (want : ℕ) (d : AllocImage) : (allocate want).Holds d
    (fun _ d' ↦ d'.alloc.free.size ≤ d.alloc.free.size + 1 ∧ d.alloc.free.size ≤ d'.alloc.free.size + 1)
    (fun _ _ ↦ True) := by
  unfold allocate
  split_ifs with hwant
  · exact trivial
  · rw [Exec.holds_bind, Exec.holds_read]
    cases hfit : bestFit want d.alloc.free.entries none with
    | some r =>
      dsimp only
      rw [Exec.holds_bind, modifyAlloc, Exec.holds_modify, Exec.holds_pure]
      have herase := d.alloc.free.size_erase r.1
      have hinsert := (d.alloc.free.erase r.1).size_insert (r.1 + want) (r.2 - want)
      unfold carve
      dsimp only
      split_ifs <;> omega
    | none =>
      dsimp only
      rw [Exec.holds_bind, onImage, Exec.holds_zoom]
      refine (Image.growTo_spec d.image _).mono (fun _ img _ ↦ ?_) (fun _ _ _ ↦ trivial)
      rw [Exec.holds_bind, Exec.holds_read, Exec.holds_bind, modifyAlloc, Exec.holds_modify, Exec.holds_pure]
      have hinsert := d.alloc.free.size_insert (d.alloc.totalBlocks + want)
        (img.len / blockSize - (d.alloc.totalBlocks + want))
      unfold extend
      dsimp only
      split_ifs <;> omega

/-- The new snapshot has room for the state it holds, and no block too many for its count field. -/
theorem writeAllocBlocks_stores (existing : ℕ) (d : AllocImage) : (writeAllocBlocks existing).Holds d
    (fun start d' ↦ ∃ n, 0 < n ∧ (∀ i, i < n → d'.image.block (start + i) = snapshotBlock d'.alloc.encode n i) ∧
      d'.alloc.encode.length ≤ n * perBlock ∧ n * perBlock ≤ d'.alloc.encode.length + 80 + perBlock)
    (fun _ _ ↦ True) := by
  unfold writeAllocBlocks
  refine (releaseSnapshot_spec existing d).bind (fun _ d₁ _ ↦ ?_) (fun _ _ _ ↦ trivial)
  rw [Exec.holds_bind, Exec.holds_read]
  dsimp only
  set n := max ((d₁.alloc.encode.length + 64 + perBlock - 1) / perBlock) 1 with hn
  refine (allocate_size n d₁).bind (fun start d₂ hsize ↦ ?_) (fun _ _ _ ↦ trivial)
  rw [Exec.holds_bind, Exec.holds_read]
  refine (writeBlocks_spec start n (snapshotBlock d₂.alloc.encode n) d₂).bind ?_ (fun _ _ _ ↦ trivial)
  rintro _ d₃ ⟨halloc, hreplaced⟩
  rw [Exec.holds_pure, halloc]
  have hper : perBlock = 4080 := rfl
  have hbefore := encode_length d₁.alloc
  have hafter := encode_length d₂.alloc
  rw [hper] at hn ⊢
  exact ⟨n, by omega, hreplaced.inside, by omega, by omega⟩

/-! ## Shrinking -/

/-- The last free extent ends the data area and is long enough to be given back. -/
def Truncates (a : Allocator) : Prop :=
  ∃ r ∈ a.free.last?, r.1 + r.2 = a.totalBlocks ∧ shrinkSlackBlocks < r.2 ∧
    max (r.1 + shrinkSlackBlocks) a.firstData < a.totalBlocks

instance (a : Allocator) : Decidable a.Truncates := by
  unfold Truncates
  infer_instance

theorem maybeShrink_keeps {d : AllocImage} (h : ¬d.alloc.Truncates) : maybeShrink d = .ok false d := by
  unfold maybeShrink
  rw [Exec.bind_eq_of_ok (Exec.read_apply _ _)]
  cases hlast : d.alloc.free.last? with
  | none => rfl
  | some r =>
    dsimp only
    by_cases hend : r.1 + r.2 ≠ d.alloc.totalBlocks
    · rw [if_pos hend]
      rfl
    · by_cases hslack : r.2 ≤ shrinkSlackBlocks
      · rw [if_neg hend, if_pos hslack]
        rfl
      · by_cases htotal : d.alloc.totalBlocks ≤ max (r.1 + shrinkSlackBlocks) d.alloc.firstData
        · rw [if_neg hend, if_neg hslack, if_pos htotal]
          rfl
        · exact absurd ⟨r, hlast, not_not.mp hend, not_le.mp hslack, not_le.mp htotal⟩ h

theorem maybeShrink_truncates {d : AllocImage} (h : d.alloc.Truncates) : maybeShrink.Holds d
    (fun _ d' ↦ d'.alloc.totalBlocks < d.alloc.totalBlocks) (fun _ _ ↦ True) := by
  obtain ⟨r, hlast, hend, hslack, htotal⟩ := h
  have hlast : d.alloc.free.last? = some r := hlast
  unfold maybeShrink
  rw [Exec.holds_bind, Exec.holds_read, hlast]
  dsimp only
  rw [if_neg (not_not.mpr hend), if_neg (not_le.mpr hslack), if_neg (not_le.mpr htotal), Exec.holds_bind, onImage,
    Exec.holds_zoom]
  refine (Image.shrinkTo_spec d.image _).mono (fun _ img _ ↦ ?_) (fun _ _ _ ↦ trivial)
  rw [Exec.holds_bind, modifyAlloc, Exec.holds_modify, Exec.holds_pure]
  exact htotal

end Allocator

end LinuxFile
