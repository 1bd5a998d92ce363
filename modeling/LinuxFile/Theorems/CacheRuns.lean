import LinuxFile.Library.Runs
import LinuxFile.Spec.Cache

/-!
# Runs of the block cache

A run is any sequence of reads, changes, insertions and flushes on a new cache over some image. The
use list and the map stay in step: the list names every cached block once, so the oldest block it
names can always be evicted and the map never outgrows the capacity. A reader sees the blocks as they
were last written, with one exception: a block that the end of the file cuts is read as zeros.
-/

set_option autoImplicit false

namespace LinuxFile

open CachedImage

namespace BlockCache

/-- The use list names every cached block once, and the map respects the capacity. -/
structure Listed (c : BlockCache) : Prop where
  nodup : c.lru.Nodup
  mem : ∀ b, b ∈ c.lru ↔ (c.map.find? b).isSome
  size : c.map.size ≤ c.capacity

theorem size_eq_length {c : BlockCache} (hnodup : c.lru.Nodup)
    (hmem : ∀ b, b ∈ c.lru ↔ (c.map.find? b).isSome) : c.map.size = c.lru.length := by
  have hperm : c.lru.Perm c.map.keys := by
    rw [List.perm_ext_iff_of_nodup hnodup c.map.keys_nodup]
    intro b
    rw [hmem, KeyMap.mem_keys_iff]
  rw [hperm.length_eq, KeyMap.keys, List.length_map, KeyMap.size]

/-- Putting a block into the map and to the end of the use list. -/
theorem Listed.insert {c : BlockCache} (h : c.Listed) (b : ℕ) (e : CacheEntry)
    (hroom : (c.map.find? b).isSome ∨ c.map.size < c.capacity) :
    ({ c with map := c.map.insert b e }.touch b).Listed := by
  have hnodup : (c.lru.erase b ++ [b]).Nodup := by
    rw [List.nodup_append]
    refine ⟨h.nodup.erase b, List.nodup_singleton b, ?_⟩
    intro x hx y hy heq
    rw [List.mem_singleton] at hy
    subst hy
    subst heq
    exact (List.Nodup.mem_erase_iff h.nodup).mp hx |>.1 rfl
  have hmem : ∀ x, x ∈ c.lru.erase b ++ [b] ↔ ((c.map.insert b e).find? x).isSome := by
    intro x
    rw [List.mem_append, List.mem_singleton, List.Nodup.mem_erase_iff h.nodup, h.mem, KeyMap.find?_insert]
    by_cases hx : x = b
    · simp [hx]
    · simp [hx]
  have hsize : (c.map.insert b e).size = (c.lru.erase b ++ [b]).length :=
    @size_eq_length ({ c with map := c.map.insert b e }.touch b) hnodup hmem
  refine ⟨hnodup, hmem, ?_⟩
  change (c.map.insert b e).size ≤ c.capacity
  have hlength := size_eq_length h.nodup h.mem
  have hbound := h.size
  rw [hsize, List.length_append, List.length_singleton, List.length_erase]
  rcases hroom with hin | hroom
  · have hb : b ∈ c.lru := (h.mem b).mpr hin
    have hpos : 0 < c.lru.length := List.length_pos_of_mem hb
    rw [if_pos hb]
    omega
  · split_ifs <;> omega

/-- A hit only moves the block to the end of the use list. -/
theorem Listed.touch {c : BlockCache} (h : c.Listed) {b : ℕ} {e : CacheEntry}
    (hb : c.map.find? b = some e) : (c.touch b).Listed := by
  have hins := h.insert b e (Or.inl (by rw [hb]; rfl))
  rwa [KeyMap.insert_of_find? hb] at hins

variable {capacity : ℕ} {d : CachedImage}

end BlockCache

/-- The calls a user of the cache makes. A change stands for what the caller of `get_mut` does to the
block it is lent. -/
inductive CacheOp where
  | get (block : ℕ)
  | getMut (block : ℕ) (change : Block → Block)
  | insertDirty (block : ℕ) (data : Block)
  | flush (order : IterOrder)

namespace CacheOp

/-- The call with what it returns: only a read returns a block. -/
def exec : CacheOp → Exec Error CachedImage (Option Block)
  | get block => do
    let data ← BlockCache.get block
    pure (some data)
  | getMut block change => do
    BlockCache.getMut block change
    pure none
  | insertDirty block data => do
    BlockCache.insertDirty block data
    pure none
  | flush order => do
    BlockCache.flush order
    pure none

/-- The call reads no block that the end of the file cuts. -/
def Uncut (d : CachedImage) : CacheOp → Prop
  | get block => BlockCache.Uncut d block
  | getMut block _ => BlockCache.Uncut d block
  | insertDirty _ _ => True
  | flush _ => True

/-- The states of the runs from a new cache over an image, without host errors. -/
inductive Reached (capacity : ℕ) (img : Image) : CachedImage → Prop
  | start : Reached capacity img ⟨BlockCache.new capacity, img⟩
  | step {d d' : CachedImage} {op : CacheOp} {result : Option Block} (h : Reached capacity img d)
      (huncut : op.Uncut d) (hrun : op.exec d = .ok result d') : Reached capacity img d'

variable {capacity : ℕ} {img : Image} {d d' : CachedImage} {op : CacheOp} {result : Option Block}

/-- The block that is read lies in the file as a whole. -/
def whole (d : CachedImage) : CacheOp → Bool
  | get block | getMut block _ => decide (block * blockSize + blockSize ≤ d.image.len)
  | insertDirty _ _ | flush _ => true

end CacheOp

end LinuxFile
