import LinuxFile.Library.KeyMap
import LinuxFile.Store

/-!
# Write-back block cache
-/

namespace LinuxFile

/-- The order in which a hash table hands out its keys: any rearrangement of them. -/
structure IterOrder where
  arrange : List ℕ → List ℕ
  perm : ∀ keys, (arrange keys).Perm keys

namespace IterOrder

/-- Increasing key order. -/
def inOrder : IterOrder := ⟨id, fun _ ↦ List.Perm.refl _⟩

theorem mem_arrange (order : IterOrder) {keys : List ℕ} {k : ℕ} :
    k ∈ order.arrange keys ↔ k ∈ keys := (order.perm keys).mem_iff

end IterOrder

structure CacheEntry where
  data : Block
  dirty : Bool

structure BlockCache where
  map : KeyMap CacheEntry
  lru : List ℕ
  capacity : ℕ

/-- The cache with the image behind it. -/
structure CachedImage where
  cache : BlockCache
  image : Image

namespace BlockCache

def new (capacity : ℕ) : BlockCache := ⟨KeyMap.empty, [], max capacity 16⟩

def touch (c : BlockCache) (block : ℕ) : BlockCache := { c with lru := c.lru.erase block ++ [block] }

def onImage {α : Type} (x : Exec Error Image α) : Exec Error CachedImage α :=
  Exec.zoom (·.image) (fun img d ↦ { d with image := img }) x

def modifyCache (f : BlockCache → BlockCache) : Exec Error CachedImage Unit :=
  Exec.modify (fun d ↦ { d with cache := f d.cache })

/-- `evict_one` on the blocks still in the list. The entry leaves the cache before it is
written back. -/
def evictFrom : List ℕ → Exec Error CachedImage Unit
  | [] => modifyCache (fun c ↦ { c with lru := [] })
  | old :: rest => do
    let entry ← Exec.read (fun d ↦ d.cache.map.find? old)
    match entry with
    | none => evictFrom rest
    | some entry => do
      modifyCache (fun c ↦ { c with lru := rest, map := c.map.erase old })
      if entry.dirty then onImage (Image.writeBlock old entry.data) else pure ()

def evictOne : Exec Error CachedImage Unit := do
  let lru ← Exec.read (fun d ↦ d.cache.lru)
  evictFrom lru

/-- Make room for one more block when the cache is full. -/
def makeRoom : Exec Error CachedImage Unit := do
  let c ← Exec.read (·.cache)
  if c.capacity ≤ c.map.size then evictOne else pure ()

/-- The contents of a block that is not cached; a block past the end of the image extends it. -/
def fetch (block : ℕ) : Exec Error CachedImage Block := do
  let len ← Exec.read (fun d ↦ d.image.len)
  if block * blockSize + blockSize ≤ len then onImage (Image.readBlock block)
  else do
    onImage (Image.growTo (block * blockSize + blockSize))
    pure (Buf.zero blockSize)

def get (block : ℕ) : Exec Error CachedImage Block := do
  let hit ← Exec.read (fun d ↦ d.cache.map.find? block)
  match hit with
  | some entry => do
    modifyCache (fun c ↦ c.touch block)
    pure entry.data
  | none => do
    makeRoom
    let data ← fetch block
    modifyCache (fun c ↦ { c with map := c.map.insert block ⟨data, false⟩ }.touch block)
    pure data

/-- `get_mut` followed by the caller's change to the block. -/
def getMut (block : ℕ) (change : Block → Block) : Exec Error CachedImage Unit := do
  let data ← get block
  modifyCache (fun c ↦ { c with map := c.map.insert block ⟨change data, true⟩ })

def insertDirty (block : ℕ) (data : Block) : Exec Error CachedImage Unit := do
  let hit ← Exec.read (fun d ↦ d.cache.map.contains block)
  Exec.when (hit = false) makeRoom
  modifyCache (fun c ↦ { c with map := c.map.insert block ⟨data, true⟩ }.touch block)

/-- Write back one cached block if it is dirty. -/
def flushBlock (block : ℕ) : Exec Error CachedImage Unit := do
  let entry ← Exec.read (fun d ↦ d.cache.map.find? block)
  match entry with
  | none => pure ()
  | some entry =>
    if entry.dirty then do
      onImage (Image.writeBlock block entry.data)
      modifyCache (fun c ↦ { c with map := c.map.insert block ⟨entry.data, false⟩ })
    else pure ()

def flush (order : IterOrder) : Exec Error CachedImage Unit := do
  let c ← Exec.read (·.cache)
  Exec.forEach flushBlock (order.arrange c.map.keys)

def dropFrom (c : BlockCache) (minBlock : ℕ) : BlockCache :=
  { c with
    map := c.map.filterKeys (fun b ↦ decide (b < minBlock))
    lru := c.lru.filter (fun b ↦ decide (b < minBlock)) }

end BlockCache

end LinuxFile
