import LinuxFile.Spec.Persist
import LinuxFile.Spec.Reading

/-!
# Attributes and extents read back

What `store_xattrs` and `store_extent_tree` put on disk is what `load_xattrs` and `load_extent_tree` read, as
long as the counts fit their fields.
-/

namespace LinuxFile

open Ledger

/-! ## Attributes -/

/-- One attribute on disk. -/
def encodeXattr (a : Bytes × Bytes) : Bytes := leBytes 2 a.1.length ++ leBytes 4 a.2.length ++ a.1 ++ a.2

theorem encodeXattrs_eq (attrs : List (Bytes × Bytes)) :
    encodeXattrs attrs = xattrMagic ++ leBytes 4 attrs.length ++ attrs.flatMap encodeXattr := rfl

theorem encodeXattr_length (a : Bytes × Bytes) : (encodeXattr a).length = 6 + (a.1.length + a.2.length) := by
  unfold encodeXattr
  simp only [List.length_append, leBytes_length]
  omega

/-- The lengths of the attribute fit their fields. -/
def XattrFits (a : Bytes × Bytes) : Prop := a.1.length < 2 ^ 16 ∧ a.2.length < 2 ^ 32

section Attribute

variable {a : Bytes × Bytes} (h : XattrFits a) (rest : Bytes)

include h

theorem encodeXattr_nameLength : leNat ((encodeXattr a ++ rest).take 2) = a.1.length := by
  unfold encodeXattr
  simp only [List.append_assoc]
  rw [List.take_left' (leBytes_length 2 _), leNat_leBytes_two, Nat.mod_eq_of_lt h.1]

theorem encodeXattr_valueLength : leNat (((encodeXattr a ++ rest).drop 2).take 4) = a.2.length := by
  unfold encodeXattr
  simp only [List.append_assoc]
  rw [List.drop_left' (leBytes_length 2 _), List.take_left' (leBytes_length 4 _), leNat_leBytes_four,
    Nat.mod_eq_of_lt h.2]

omit h

theorem encodeXattr_body : (encodeXattr a ++ rest).drop 6 = a.1 ++ (a.2 ++ rest) := by
  have hsplit : encodeXattr a ++ rest =
      (leBytes 2 a.1.length ++ leBytes 4 a.2.length) ++ (a.1 ++ (a.2 ++ rest)) := by
    unfold encodeXattr
    simp only [List.append_assoc]
  rw [hsplit, List.drop_left' (by simp)]

end Attribute

theorem decodeXattrList_encode (rest : Bytes) : ∀ attrs : List (Bytes × Bytes), (∀ a ∈ attrs, XattrFits a) →
    decodeXattrList attrs.length (attrs.flatMap encodeXattr ++ rest) = attrs
  | [], _ => rfl
  | a :: attrs, h => by
    have ha := h a List.mem_cons_self
    have ih := decodeXattrList_encode rest attrs fun x hx ↦ h x (List.mem_cons_of_mem a hx)
    rw [List.flatMap_cons, List.append_assoc, List.length_cons]
    set tail := attrs.flatMap encodeXattr ++ rest with htail
    have hlen : (encodeXattr a ++ tail).length = 6 + (a.1.length + a.2.length) + tail.length := by
      rw [List.length_append, encodeXattr_length]
    have hbody : (a.1 ++ (a.2 ++ tail)).length = a.1.length + a.2.length + tail.length := by
      rw [List.length_append, List.length_append, Nat.add_assoc]
    have hdrop : (a.1 ++ (a.2 ++ tail)).drop (a.1.length + a.2.length) = tail := by
      rw [← List.append_assoc, List.drop_left' (by simp)]
    unfold decodeXattrList
    rw [if_neg (by omega)]
    dsimp only
    rw [encodeXattr_nameLength ha, encodeXattr_valueLength ha, encodeXattr_body, if_neg (by omega), hdrop, ih,
      List.take_left' rfl, List.drop_left' rfl, List.take_left' rfl]

theorem mem_le_flatMap_length {attrs : List (Bytes × Bytes)} {a : Bytes × Bytes} (h : a ∈ attrs) :
    (encodeXattr a).length ≤ (attrs.flatMap encodeXattr).length := by
  rw [List.length_flatMap]
  exact List.single_le_sum (fun _ _ ↦ Nat.zero_le _) _ (List.mem_map_of_mem h)

theorem length_le_flatMap_length (attrs : List (Bytes × Bytes)) :
    attrs.length ≤ (attrs.flatMap encodeXattr).length := by
  induction attrs with
  | nil => exact Nat.zero_le _
  | cons a attrs ih =>
    rw [List.flatMap_cons, List.length_append, List.length_cons, encodeXattr_length]
    omega

/-- A list that fits a block is read back from it, whatever follows it there. -/
theorem decodeXattrs_encodeXattrs {attrs : List (Bytes × Bytes)} (rest : Bytes)
    (h : (encodeXattrs attrs).length ≤ blockSize) : decodeXattrs (encodeXattrs attrs ++ rest) = attrs := by
  rw [encodeXattrs_eq] at h ⊢
  have hlist : (attrs.flatMap encodeXattr).length ≤ 4096 := by
    rw [List.length_append] at h
    exact (Nat.le_add_left _ _).trans h
  have hfits : ∀ a ∈ attrs, XattrFits a := by
    intro a ha
    have hle := (mem_le_flatMap_length ha).trans hlist
    rw [encodeXattr_length] at hle
    exact ⟨by omega, by omega⟩
  have hcount : attrs.length < 2 ^ 32 := by
    have := (length_le_flatMap_length attrs).trans hlist
    omega
  have hsplit : xattrMagic ++ leBytes 4 attrs.length ++ attrs.flatMap encodeXattr ++ rest =
      xattrMagic ++ (leBytes 4 attrs.length ++ (attrs.flatMap encodeXattr ++ rest)) := by
    simp only [List.append_assoc]
  rw [hsplit]
  have hlen : 8 ≤ (xattrMagic ++ (leBytes 4 attrs.length ++ (attrs.flatMap encodeXattr ++ rest))).length := by
    simp only [List.length_append, leBytes_length, xattrMagic, List.length_cons, List.length_nil]
    omega
  have hmagic : (xattrMagic ++ (leBytes 4 attrs.length ++ (attrs.flatMap encodeXattr ++ rest))).take 4 =
      xattrMagic := List.take_left' rfl
  have hnumber : ((xattrMagic ++ (leBytes 4 attrs.length ++ (attrs.flatMap encodeXattr ++ rest))).drop 4).take 4 =
      leBytes 4 attrs.length := by
    rw [List.drop_left' (show xattrMagic.length = 4 from rfl), List.take_left' (leBytes_length 4 _)]
  have hbody : (xattrMagic ++ (leBytes 4 attrs.length ++ (attrs.flatMap encodeXattr ++ rest))).drop 8 =
      attrs.flatMap encodeXattr ++ rest := by
    rw [← List.append_assoc, List.drop_left' (by simp [xattrMagic])]
  unfold decodeXattrs
  rw [if_neg (by rw [hmagic]; simp only [not_or, not_lt, ne_eq, not_true, not_false_iff, and_true]; exact hlen),
    hnumber, leNat_leBytes_four, Nat.mod_eq_of_lt hcount, hbody, decodeXattrList_encode rest attrs hfits]

theorem slice_ofBytes {n : ℕ} {data : Bytes} (h : data.length ≤ n) :
    ∃ rest, (Buf.ofBytes n data).slice 0 n = data ++ rest := by
  refine ⟨(Buf.ofBytes n data).slice data.length (n - data.length), ?_⟩
  have hhead : (Buf.ofBytes n data).slice 0 data.length = data := Buf.slice_put_self _ 0 data (by omega)
  have hrange : List.range' 0 n = List.range' 0 data.length ++ List.range' data.length (n - data.length) := by
    have happend := List.range'_append_1 (s := 0) (m := data.length) (n := n - data.length)
    rw [Nat.zero_add, Nat.add_sub_cancel' h] at happend
    exact happend.symm
  calc (Buf.ofBytes n data).slice 0 n
      = (Buf.ofBytes n data).slice 0 data.length ++ (Buf.ofBytes n data).slice data.length (n - data.length) := by
        unfold Buf.slice
        rw [hrange, List.map_append]
    _ = data ++ (Buf.ofBytes n data).slice data.length (n - data.length) := by rw [hhead]

/-- The inode with other extents. -/
def Inode.Relisted (j k : Inode) : Prop :=
  k = { j with extents := k.extents, extentTreeBlocks := k.extentTreeBlocks }

namespace Inner

variable {s : Inner} {i j : Inode}

theorem loadXattrs_reads (hok : s.image.Ok) (h : s.XattrStored i) (hblock : j.xattrBlock = i.xattrBlock)
    (hnone : j.xattr = []) :
    (loadXattrs j).Holds s (fun k t ↦ k = { j with xattr := i.xattr } ∧ Looked s t) (fun e _ ↦ e.IsHost) := by
  unfold loadXattrs
  rcases h with ⟨hempty, hzero⟩ | ⟨-, hblock', hsize, hcopies⟩
  · rw [if_pos (hblock.trans hzero), hempty, ← hnone]
    exact ⟨rfl, Looked.refl s⟩
  · rw [if_neg (by rw [hblock]; exact hblock')]
    refine (get_looked j.xattrBlock hok).bind ?_ (fun _ _ he ↦ he)
    rintro block t ⟨rfl, hlook⟩
    refine ⟨?_, hlook⟩
    obtain ⟨rest, hrest⟩ := slice_ofBytes hsize
    rw [hblock, hcopies.view, hrest, decodeXattrs_encodeXattrs rest hsize]

/-! ## Blocks of an extent tree -/

theorem treePer_zero : treePer 0 = 204 := by decide

theorem slice_treeBlock_head (extents part : List Extent) (nblocks : ℕ) {off len : ℕ} (h : off + len ≤ 16) :
    (treeBlock extents part nblocks 0).slice off len =
      ((((Buf.zero blockSize).putU32 0 extents.length).putU32 4 nblocks).put 8 treeMagic).slice off len := by
  unfold treeBlock
  exact slice_putExtents _ (Or.inl h)

theorem treeBlock_count (extents part : List Extent) (nblocks : ℕ) :
    (treeBlock extents part nblocks 0).getU32 0 = extents.length % 2 ^ 32 := by
  unfold Buf.getU32
  rw [slice_treeBlock_head _ _ _ (by omega), Buf.slice_put_of_disjoint _ (by simp), Buf.putU32, Buf.putU32,
    Buf.slice_put_of_disjoint _ (by simp), Buf.slice_put _ ⟨by simp, by decide⟩, leNat_leBytes_four]

theorem treeBlock_size (extents part : List Extent) (nblocks : ℕ) :
    (treeBlock extents part nblocks 0).getU32 4 = nblocks % 2 ^ 32 := by
  unfold Buf.getU32
  rw [slice_treeBlock_head _ _ _ (by omega), Buf.slice_put_of_disjoint _ (by simp), Buf.putU32, Buf.putU32,
    Buf.slice_put _ ⟨by simp, by decide⟩, leNat_leBytes_four]

theorem treeBlock_magic (extents part : List Extent) (nblocks : ℕ) :
    (treeBlock extents part nblocks 0).slice 8 4 = treeMagic := by
  rw [slice_treeBlock_head _ _ _ (by omega), Buf.slice_put _ ⟨by rfl, by decide⟩]

theorem getExtents_treeBlock (extents : List Extent) {part : List Extent} (nblocks b : ℕ)
    (h : part.length ≤ treePer 0) :
    getExtents (treeBlock extents part nblocks b) (treeStart b) part.length = part.map Extent.stored := by
  unfold treeBlock
  apply getExtents_putExtents
  have hstart : treeStart b ≤ 16 := by
    unfold treeStart
    split_ifs <;> omega
  rw [treePer_zero] at h
  change _ ≤ 4096
  omega

/-- The blocks of the tree of `extents` are on disk from `tree` on. -/
def TreeAt (s : Inner) (extents : List Extent) (tree : ℕ) : Prop :=
  ∀ b, b < treeSize extents.length → s.disk.Copies
    (· = treeBlock extents ((extents.drop (b * treePer 0)).take (treePer 0)) (treeSize extents.length) b) (tree + b)

theorem TreeAt.looked {t : Inner} {extents : List Extent} {tree : ℕ} (h : s.TreeAt extents tree) (ht : Looked s t) :
    t.TreeAt extents tree := by
  obtain ⟨d, rfl, hd⟩ := ht
  exact fun b hb ↦ hd.copies _ (fun hf ↦ hf) _ (h b hb)

theorem loadTreeBlocks_succ (tree : ℕ) (first : Block) (count b remaining : ℕ) :
    loadTreeBlocks tree first (count + 1) b remaining =
      ((if b = 0 then pure first else onCache (BlockCache.get (tree + b)) : Fs Block) >>= fun block ↦
        loadTreeBlocks tree first count (b + 1) (remaining - min remaining (treePer b)) >>= fun rest ↦
          pure (getExtents block (treeStart b) (min remaining (treePer b)) ++ rest)) := by
  rw [loadTreeBlocks]
  split_ifs <;> rfl

theorem loadTreeBlocks_reads {extents : List Extent} {tree : ℕ} {first : Block}
    (hfirst : first = treeBlock extents (extents.take (treePer 0)) (treeSize extents.length) 0) (count : ℕ) :
    ∀ (s : Inner) (b : ℕ), s.image.Ok → s.TreeAt extents tree → b + count ≤ treeSize extents.length →
      extents.length ≤ (b + count) * treePer 0 →
      (loadTreeBlocks tree first count b (extents.length - b * treePer 0)).Holds s
        (fun found t ↦ found = (extents.drop (b * treePer 0)).map Extent.stored ∧ Looked s t)
        (fun e _ ↦ e.IsHost) := by
  induction count with
  | zero =>
    intro s b _ _ _ hall
    rw [List.drop_eq_nil_of_le (by simpa using hall)]
    exact ⟨rfl, Looked.refl s⟩
  | succ count ih =>
    intro s b hok htree hsize hall
    rw [loadTreeBlocks_succ]
    set part := (extents.drop (b * treePer 0)).take (treePer 0) with hpart
    have hlen : part.length = min (extents.length - b * treePer 0) (treePer b) := by
      rw [hpart, List.length_take, List.length_drop, treePer_eq b, Nat.min_comm]
    have hblock : (if b = 0 then pure first else onCache (BlockCache.get (tree + b)) : Fs Block).Holds s
        (fun block t ↦ block = treeBlock extents part (treeSize extents.length) b ∧ Looked s t)
        (fun e _ ↦ e.IsHost) := by
      by_cases hzero : b = 0
      · rw [if_pos hzero, hpart, hzero, Nat.zero_mul, List.drop_zero]
        exact ⟨hfirst, Looked.refl s⟩
      · rw [if_neg hzero]
        refine (get_looked (tree + b) hok).mono ?_ (fun _ _ he ↦ he)
        rintro block t ⟨rfl, hlook⟩
        exact ⟨(htree b (by omega)).view, hlook⟩
    refine hblock.bind ?_ (fun _ _ he ↦ he)
    rintro block t ⟨rfl, hlook⟩
    have hnext : extents.length - b * treePer 0 - min (extents.length - b * treePer 0) (treePer b) =
        extents.length - (b + 1) * treePer 0 := by
      rw [treePer_eq b, Nat.add_mul, Nat.one_mul]
      omega
    rw [hnext]
    refine (ih t (b + 1) (hlook.ok hok) (htree.looked hlook) (by omega) ?_).bind ?_ (fun _ _ he ↦ he)
    · rwa [Nat.add_assoc, Nat.add_comm 1 count]
    · rintro rest u ⟨rfl, hlook'⟩
      refine ⟨?_, hlook.trans hlook'⟩
      rw [← hlen, getExtents_treeBlock extents _ b (by rw [hpart]; exact List.length_take_le _ _), ← List.map_append,
        hpart, Nat.add_mul, Nat.one_mul, ← List.drop_drop, List.take_append_drop]

theorem le_treeSize_mul (n : ℕ) : n ≤ treeSize n * treePer 0 := by
  unfold treeSize
  rw [treePer_zero]
  omega

theorem treeSize_lt {n : ℕ} (h : n < 2 ^ 32) : treeSize n < 2 ^ 32 := by
  unfold treeSize
  rw [treePer_zero]
  omega

/-- A stored tree loads back. -/
theorem loadExtentTree_reads (hok : s.image.Ok) (h : s.TreeAt i.extents i.extentTree)
    (hcount : i.extents.length < 2 ^ 32) (htree : j.extentTree = i.extentTree) (hne : i.extentTree ≠ 0) :
    (loadExtentTree j).Holds s
      (fun k t ↦ k = { j with
          extents := i.extents.map Extent.stored
          extentTreeBlocks := treeSize i.extents.length } ∧ Looked s t)
      (fun e _ ↦ e.IsHost) := by
  unfold loadExtentTree
  rw [if_neg (by rw [htree]; exact hne), htree]
  refine (get_looked i.extentTree hok).bind ?_ (fun _ _ he ↦ he)
  rintro first t ⟨hfirst, hlook⟩
  have hview := (h 0 (treeSize_pos _)).view
  rw [Nat.zero_mul, List.drop_zero, Nat.add_zero, ← hfirst] at hview
  have hsize := treeSize_lt hcount
  dsimp only
  rw [hview, if_pos (treeBlock_magic _ _ _), treeBlock_count, treeBlock_size, Nat.mod_eq_of_lt hcount,
    Nat.mod_eq_of_lt hsize, max_eq_left (treeSize_pos _)]
  have hload := loadTreeBlocks_reads rfl (treeSize i.extents.length) t 0
    (hlook.ok hok) (h.looked hlook) (by omega) (by rw [Nat.zero_add]; exact le_treeSize_mul _)
  rw [Nat.zero_mul, Nat.sub_zero, List.drop_zero] at hload
  refine hload.bind ?_ (fun _ _ he ↦ he)
  rintro found u ⟨rfl, hlook'⟩
  exact ⟨rfl, hlook.trans hlook'⟩

/-! ## A whole inode -/

theorem loadTreeBlocks_looked (tree : ℕ) (first : Block) (count : ℕ) : ∀ (s : Inner) (b remaining : ℕ), s.image.Ok →
    (loadTreeBlocks tree first count b remaining).Holds s (fun _ t ↦ Looked s t) (fun e _ ↦ e.IsHost) := by
  induction count with
  | zero => exact fun s b remaining hok ↦ Looked.refl s
  | succ count ih =>
    intro s b remaining hok
    rw [loadTreeBlocks_succ]
    have hblock : (if b = 0 then pure first else onCache (BlockCache.get (tree + b)) : Fs Block).Holds s
        (fun _ t ↦ Looked s t) (fun e _ ↦ e.IsHost) := by
      split_ifs
      · exact Looked.refl s
      · exact (get_looked (tree + b) hok).mono (fun _ _ h ↦ h.2) (fun _ _ he ↦ he)
    refine hblock.bind (fun block t ht ↦ ?_) (fun _ _ he ↦ he)
    refine (ih t (b + 1) _ (ht.ok hok)).bind (fun rest u hu ↦ ?_) (fun _ _ he ↦ he)
    exact ht.trans hu

theorem loadExtentTree_looked (hok : s.image.Ok) (j : Inode) :
    (loadExtentTree j).Holds s (fun k t ↦ Inode.Relisted j k ∧ Looked s t) (fun e _ ↦ e.IsHost) := by
  unfold loadExtentTree
  split_ifs
  · exact ⟨rfl, Looked.refl s⟩
  · refine (get_looked j.extentTree hok).bind ?_ (fun _ _ he ↦ he)
    rintro first t ⟨-, ht⟩
    dsimp only
    split_ifs
    · refine (loadTreeBlocks_looked j.extentTree first _ t 0 _ (ht.ok hok)).bind ?_ (fun _ _ he ↦ he)
      intro extents u hu
      exact ⟨rfl, ht.trans hu⟩
    · exact ⟨rfl, ht⟩

theorem resolveExtents_looked : ∀ (extents : List Extent) (s : Inner), s.image.Ok →
    (resolveExtents extents).Holds s (fun _ t ↦ Looked s t) (fun e _ ↦ e.IsHost)
  | [], s, _ => Looked.refl s
  | ext :: rest, s, hok => by
    unfold resolveExtents
    have hext : (resolveExtent ext).Holds s (fun _ t ↦ Looked s t) (fun e _ ↦ e.IsHost) := by
      unfold resolveExtent
      split_ifs
      · exact Looked.refl s
      · refine (get_looked ext.physical hok).bind ?_ (fun _ _ he ↦ he)
        rintro block t ⟨-, ht⟩
        split
        · exact ht
        · exact ht
    refine hext.bind (fun found t ht ↦ ?_) (fun _ _ he ↦ he)
    refine (resolveExtents_looked rest t (ht.ok hok)).bind (fun found u hu ↦ ?_) (fun _ _ he ↦ he)
    exact ht.trans hu

/-- The attributes of the inode that is read are those that were stored; the rest of the slot is as it was
decoded, up to the extents. -/
theorem completeInode_reads (hok : s.image.Ok) (h : s.XattrStored i) (hblock : j.xattrBlock = i.xattrBlock)
    (hnone : j.xattr = []) :
    (completeInode j).Holds s (fun k t ↦ Inode.Relisted { j with xattr := i.xattr } k ∧ Looked s t)
      (fun e _ ↦ e.IsHost) := by
  unfold completeInode
  refine (loadXattrs_reads hok h hblock hnone).bind ?_ (fun _ _ he ↦ he)
  rintro _ t ⟨rfl, ht⟩
  have htree : (if ({ j with xattr := i.xattr } : Inode).dataKind = .extentTree then
      loadExtentTree { j with xattr := i.xattr } else pure { j with xattr := i.xattr } : Fs Inode).Holds t
      (fun k u ↦ Inode.Relisted { j with xattr := i.xattr } k ∧ Looked t u) (fun e _ ↦ e.IsHost) := by
    split_ifs
    · exact loadExtentTree_looked (ht.ok hok) _
    · exact ⟨rfl, Looked.refl t⟩
  have hresolve : ∀ (k : Inode) (u : Inner), Inode.Relisted { j with xattr := i.xattr } k → Looked s u →
      (if k.usesCompression then resolveAllExtents k else pure k : Fs Inode).Holds u
        (fun k v ↦ Inode.Relisted { j with xattr := i.xattr } k ∧ Looked s v) (fun e _ ↦ e.IsHost) := by
    intro k u hk hu
    split_ifs
    · unfold resolveAllExtents
      refine (resolveExtents_looked k.extents u (hu.ok hok)).bind ?_ (fun _ _ he ↦ he)
      intro extents v hv
      refine ⟨?_, hu.trans hv⟩
      unfold Inode.Relisted at hk ⊢
      rw [hk]
    · exact ⟨hk, hu⟩
  have hboth := htree.bind (fun k u hk ↦ hresolve k u hk.1 (ht.trans hk.2)) (fun _ _ he ↦ he)
  dsimp only at hboth ⊢
  split_ifs at hboth ⊢
  · exact hboth
  · exact hboth

theorem Inv.block_lt {live : KeyMap Inode} {ino : ℕ} (h : s.Inv live []) (hmem : live.find? ino = some i) {b : ℕ}
    (hb : 0 < cover i.ranges b) : b < 2 ^ 64 := by
  have hload : 0 < s.load live b + cover [] b := by
    rw [cover_nil, Nat.add_zero]
    exact hb.trans_le (cover_le_load hmem b)
  exact (h.lt_total hload).2.trans h.geometry.total

theorem Inv.xattrBlock_lt {live : KeyMap Inode} {ino : ℕ} (h : s.Inv live []) (hmem : live.find? ino = some i) :
    i.xattrBlock < 2 ^ 64 := by
  by_cases hzero : i.xattrBlock = 0
  · rw [hzero]
    norm_num
  · apply h.block_lt hmem
    rw [cover_ranges]
    unfold Inode.xattrRanges
    rw [if_neg hzero, cover_cons, span_eq_one ⟨le_rfl, Nat.lt_succ_self _⟩]
    omega

theorem Inv.lt_capacity {live : KeyMap Inode} {ino : ℕ} (h : s.Inv live []) (hmem : live.find? ino = some i) :
    ¬(ino = 0 ∨ inodeTableCapacity s.sb ≤ ino) := by
  have hkey := h.numbered.keys ino i hmem
  have hnext := h.geometry.next.2
  omega

theorem getU16_of_zeros {raw : Buf inodeSize} (h : (raw.slice 0 inodeSize).all (· == 0) = true) :
    raw.getU16 0 = 0 := by
  have hbyte : ∀ k, k < inodeSize → raw.byte k = 0 := by
    intro k hk
    apply beq_iff_eq.mp
    apply List.all_eq_true.mp h
    exact List.mem_map.mpr ⟨k, List.mem_range'_1.mpr ⟨Nat.zero_le k, by omega⟩, rfl⟩
  unfold Buf.getU16 Buf.slice
  simp only [List.range'_succ, List.range'_zero, List.map_cons, List.map_nil]
  rw [hbyte 0 (by decide), hbyte 1 (by decide)]
  rfl

/-- What a slot that holds the encoding of an inode is read as. -/
theorem readInodeRaw_stored {ino : ℕ} (hok : s.image.Ok) (hino : i.ino = ino)
    (hbound : ¬(ino = 0 ∨ inodeTableCapacity s.sb ≤ ino)) (hslot : s.SlotIs ino i.encode) (hxattr : s.XattrStored i)
    (hblock : i.xattrBlock < 2 ^ 64) :
    (readInodeRaw ino).Holds s
      (fun found t ↦ (i.mode = 0 ∧ found = none ∨ i.mode ≠ 0 ∧
        ∃ k, found = some k ∧ Inode.Relisted { i.stored with xattr := i.xattr } k) ∧ Looked s t)
      (fun e _ ↦ e.IsHost) := by
  obtain ⟨phys, off, hmap, hcopies⟩ := hslot
  unfold readInodeRaw
  rw [Exec.holds_bind, Exec.holds_read, if_neg hbound, hmap]
  refine (get_looked phys hok).bind ?_ (fun _ _ he ↦ he)
  rintro block t ⟨rfl, ht⟩
  have hraw := hcopies.view
  dsimp only at hraw ⊢
  rw [hraw]
  have hmode16 : i.encode.getU16 0 = i.mode.toNat := i.encode_mode
  by_cases hmode : i.mode = 0
  · rw [if_pos (Or.inr (by rw [hmode16, hmode]; rfl))]
    exact ⟨Or.inl ⟨hmode, rfl⟩, ht⟩
  · have hne : i.encode.getU16 0 ≠ 0 := by
      rw [hmode16]
      exact fun hzero ↦ hmode (UInt16.toNat_inj.mp hzero)
    rw [if_neg ?_, ← hino, Inode.decode_encode hmode]
    · refine (completeInode_reads (ht.ok hok) (hxattr.keep (ht.keeps _)) (Nat.mod_eq_of_lt hblock) rfl).bind ?_
        (fun _ _ he ↦ he)
      rintro k u ⟨hk, hu⟩
      exact ⟨Or.inr ⟨hmode, k, rfl, hk⟩, ht.trans hu⟩
    · rintro (hzero | hzero)
      · exact hne (getU16_of_zeros hzero)
      · exact hne hzero

end Inner

end LinuxFile
