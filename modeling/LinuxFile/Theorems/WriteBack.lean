import LinuxFile.Inner.Data
import LinuxFile.Spec.Frame
import LinuxFile.Spec.Reach
import LinuxFile.Theorems.Sample

/-!
# Write-back under host errors

A cached block that has to make room leaves the cache before it is written to the image, and the held record
leaves its slot before it is stored. When the host refuses the write, the block and the record are gone.
-/

namespace LinuxFile

open CachedImage

namespace BlockCache

/-- The block `evict_one` takes out of the cache: the oldest one that the map still holds. -/
def victimIn (map : KeyMap CacheEntry) : List ℕ → Option (ℕ × CacheEntry)
  | [] => none
  | old :: rest =>
    match map.find? old with
    | some entry => some (old, entry)
    | none => victimIn map rest

def victim (c : BlockCache) : Option (ℕ × CacheEntry) := victimIn c.map c.lru

theorem find?_of_victimIn {map : KeyMap CacheEntry} {blocks : List ℕ} {v : ℕ} {entry : CacheEntry}
    (h : victimIn map blocks = some (v, entry)) : map.find? v = some entry := by
  induction blocks with
  | nil => cases h
  | cons old rest ih =>
    unfold victimIn at h
    cases hold : map.find? old with
    | none =>
      rw [hold] at h
      exact ih h
    | some found =>
      rw [hold] at h
      cases h
      exact hold

/-- The host refuses to write the block. -/
def Refused (v : ℕ) (data : Block) (img : Image) : Prop :=
  ∃ e img', Image.writeBlock v data img = .err e img'

/-- The cache after `taken` has left it: an entry taken out was clean, or it is in the image now. -/
structure Evicted (taken : Option (ℕ × CacheEntry)) (d d' : CachedImage) : Prop where
  view : ∀ b, (∀ entry, taken = some (b, entry) → entry.dirty = true) → d'.view b = d.view b
  clean : ∀ v entry, taken = some (v, entry) → entry.dirty = false → d'.view v = d.image.block v
  written : ∀ v entry, taken = some (v, entry) → entry.dirty = true → ¬Refused v entry.data d.image

/-- The cache after the host refused to write the entry taken out. -/
structure EvictionFailed (taken : Option (ℕ × CacheEntry)) (v : ℕ) (entry : CacheEntry) (d d' : CachedImage) :
    Prop where
  taken : taken = some (v, entry)
  dirty : entry.dirty = true
  refused : Refused v entry.data d.image
  view : ∀ b, b ≠ v → d'.view b = d.view b
  lost : d'.view v = d.image.block v

/-- Blocks read the same when their entries do, and the image where there is none. -/
theorem view_congr {d d' : CachedImage} {b : ℕ} (hmap : d'.cache.map.find? b = d.cache.map.find? b)
    (himg : d.cache.map.find? b = none → d'.image.block b = d.image.block b) : d'.view b = d.view b := by
  cases hb : d.cache.map.find? b with
  | none => rw [view_of_none hb, view_of_none (hmap.trans hb), himg hb]
  | some e => rw [view_of_some hb, view_of_some (hmap.trans hb)]

theorem evicted_none (d : CachedImage) {d' : CachedImage} (h : ∀ b, d'.view b = d.view b) : Evicted none d d' where
  view b _ := h b
  clean _ _ hnone := by cases hnone
  written _ _ hnone := by cases hnone

theorem evictFrom_outcome (blocks : List ℕ) (d : CachedImage) :
    (evictFrom blocks).Holds d (fun _ d' ↦ Evicted (victimIn d.cache.map blocks) d d')
      (fun _ d' ↦ ∃ v entry, EvictionFailed (victimIn d.cache.map blocks) v entry d d') := by
  induction blocks with
  | nil => exact evicted_none d fun _ ↦ rfl
  | cons old rest ih =>
    unfold evictFrom victimIn
    rw [Exec.holds_bind, Exec.holds_read]
    cases hold : d.cache.map.find? old with
    | none => exact ih
    | some entry =>
      dsimp only
      rw [Exec.holds_bind, modifyCache, Exec.holds_modify]
      have hother : ∀ b, b ≠ old → (d.cache.map.erase old).find? b = d.cache.map.find? b :=
        fun b hb ↦ KeyMap.find?_erase_of_ne hb
      have hself : (d.cache.map.erase old).find? old = none := KeyMap.find?_erase_self _ _
      by_cases hdirty : entry.dirty = true
      · rw [if_pos hdirty, onImage, Exec.holds_zoom]
        refine Exec.holds_of_forall (fun _ img hrun ↦ ?_) (fun e img hrun ↦ ?_)
        · obtain ⟨-, hblock, hblocks⟩ := (Image.writeBlock_spec d.image old entry.data).of_ok hrun
          refine ⟨fun b hb ↦ ?_, fun v e he hclean ↦ ?_, fun v e he _ ↦ ?_⟩
          · by_cases hne : b = old
            · rw [hne, view_of_none hself, view_of_some hold]
              exact hblock
            · exact view_congr (hother b hne) (fun _ ↦ hblocks b hne)
          · cases he
            rw [hdirty] at hclean
            cases hclean
          · cases he
            rintro ⟨e, img', hfail⟩
            rw [hrun] at hfail
            cases hfail
        · have hgrown := ((Image.writeBlock_spec d.image old entry.data).of_err hrun).2
          refine ⟨old, entry, rfl, hdirty, ⟨e, img, hrun⟩, fun b hb ↦ ?_, ?_⟩
          · exact view_congr (hother b hb) (fun _ ↦ hgrown.block b)
          · rw [view_of_none hself]
            exact hgrown.block old
      · rw [if_neg hdirty]
        rw [Bool.not_eq_true] at hdirty
        refine ⟨fun b hb ↦ ?_, fun v e he _ ↦ ?_, fun v e he hd ↦ ?_⟩
        · have hne : b ≠ old := by
            rintro rfl
            have htrue := hb entry rfl
            rw [hdirty] at htrue
            cases htrue
          exact view_congr (hother b hne) (fun _ ↦ rfl)
        · cases he
          exact view_of_none hself
        · cases he
          rw [hdirty] at hd
          cases hd

/-- What `make_room` takes out. -/
def oldest (d : CachedImage) : Option (ℕ × CacheEntry) :=
  if d.cache.capacity ≤ d.cache.map.size then victim d.cache else none

theorem find?_of_oldest {d : CachedImage} {v : ℕ} {entry : CacheEntry} (h : oldest d = some (v, entry)) :
    d.cache.map.find? v = some entry := by
  unfold oldest at h
  split_ifs at h
  exact find?_of_victimIn h

theorem makeRoom_outcome (d : CachedImage) :
    makeRoom.Holds d (fun _ d' ↦ Evicted (oldest d) d d')
      (fun _ d' ↦ ∃ v entry, EvictionFailed (oldest d) v entry d d') := by
  unfold makeRoom evictOne oldest
  rw [Exec.holds_bind, Exec.holds_read]
  split_ifs
  · rw [Exec.holds_bind, Exec.holds_read]
    exact evictFrom_outcome d.cache.lru d
  · exact evicted_none d fun _ ↦ rfl

/-- The entry taken out to make room differs from its block in the image, and is not written there. -/
def LosesOldest (d : CachedImage) : Prop :=
  ∃ v entry, oldest d = some (v, entry) ∧ entry.data ≠ d.image.block v ∧
    (entry.dirty = true → Refused v entry.data d.image)

theorem EvictionFailed.view_iff {d d' : CachedImage} {v : ℕ} {entry : CacheEntry}
    (h : EvictionFailed (oldest d) v entry d d') : (∀ b, d'.view b = d.view b) ↔ ¬LosesOldest d := by
  have hview : d.view v = entry.data := view_of_some (find?_of_oldest h.taken)
  constructor
  · rintro hsame ⟨w, e, htaken, hne, -⟩
    rw [h.taken] at htaken
    cases htaken
    exact hne (hview.symm.trans ((hsame v).symm.trans h.lost))
  · intro hkept b
    by_cases hb : b = v
    · rw [hb, h.lost, hview]
      by_contra hne
      exact hkept ⟨v, entry, h.taken, fun heq ↦ hne heq.symm, fun _ ↦ h.refused⟩
    · exact h.view b hb

theorem Evicted.view_iff {d d' : CachedImage} (h : Evicted (oldest d) d d') :
    (∀ b, d'.view b = d.view b) ↔ ¬LosesOldest d := by
  constructor
  · rintro hsame ⟨v, entry, htaken, hne, hrefused⟩
    cases hdirty : entry.dirty with
    | true => exact h.written v entry htaken hdirty (hrefused hdirty)
    | false =>
      have hview : d.view v = entry.data := view_of_some (find?_of_oldest htaken)
      exact hne (hview.symm.trans ((hsame v).symm.trans (h.clean v entry htaken hdirty)))
  · intro hkept b
    by_cases hb : ∃ entry, oldest d = some (b, entry) ∧ entry.dirty = false
    · obtain ⟨entry, htaken, hclean⟩ := hb
      rw [h.clean b entry htaken hclean, view_of_some (find?_of_oldest htaken)]
      by_contra hne
      refine hkept ⟨b, entry, htaken, fun heq ↦ hne heq.symm, fun hdirty ↦ ?_⟩
      rw [hclean] at hdirty
      cases hdirty
    · apply h.view b
      intro entry htaken
      by_contra hclean
      exact hb ⟨entry, htaken, Bool.not_eq_true _ ▸ hclean⟩

theorem fetch_failed (b : ℕ) (d : CachedImage) :
    (fetch b).Holds d (fun _ _ ↦ True) (fun _ d' ↦ ∀ c, d'.view c = d.view c) := by
  unfold fetch
  rw [Exec.holds_bind, Exec.holds_read]
  split_ifs with hlen
  · rw [onImage, Exec.holds_zoom]
    refine (Image.readBlock_spec d.image b hlen).mono (fun _ _ _ ↦ trivial) ?_
    intro _ img hfail c
    exact view_congr rfl (fun _ ↦ hfail.2.block c)
  · rw [Exec.holds_bind, onImage, Exec.holds_zoom]
    refine (Image.growTo_spec d.image _).mono (fun _ _ _ ↦ trivial) ?_
    intro _ img hfail c
    exact view_congr rfl (fun _ ↦ hfail.2.block c)

/-- A read that fails has lost the oldest block or nothing. -/
theorem get_failed (b : ℕ) (d : CachedImage) :
    (get b).Holds d (fun _ _ ↦ True)
      (fun _ d' ↦ d.cache.map.find? b = none ∧ ((∀ c, d'.view c = d.view c) ↔ ¬LosesOldest d)) := by
  unfold get
  rw [Exec.holds_bind, Exec.holds_read]
  cases hb : d.cache.map.find? b with
  | some entry => exact trivial
  | none =>
    dsimp only
    refine (makeRoom_outcome d).bind ?_ ?_
    · intro _ d₁ hevicted
      refine (fetch_failed b d₁).bind (fun _ _ _ ↦ trivial) ?_
      intro _ d₂ hsame
      refine ⟨rfl, ?_⟩
      rw [← hevicted.view_iff]
      constructor
      · intro hview c
        rw [← hsame c]
        exact hview c
      · intro hview c
        rw [hsame c]
        exact hview c
    · rintro _ d' ⟨v, entry, hfail⟩
      exact ⟨rfl, hfail.view_iff⟩

theorem insertDirty_failed (b : ℕ) (data : Block) (d : CachedImage) :
    (insertDirty b data).Holds d (fun _ _ ↦ True)
      (fun _ d' ↦ d.cache.map.find? b = none ∧ ((∀ c, d'.view c = d.view c) ↔ ¬LosesOldest d)) := by
  unfold insertDirty
  rw [Exec.holds_bind, Exec.holds_read, Exec.holds_bind, Exec.holds_when]
  refine ⟨fun hmiss ↦ ?_, fun _ ↦ trivial⟩
  have hnone : d.cache.map.find? b = none := by
    unfold KeyMap.contains at hmiss
    exact Option.isSome_eq_false_iff.mp hmiss |> Option.isNone_iff_eq_none.mp
  refine (makeRoom_outcome d).mono (fun _ _ _ ↦ trivial) ?_
  rintro _ d' ⟨v, entry, hfail⟩
  exact ⟨hnone, hfail.view_iff⟩

theorem flushBlock_view (b : ℕ) (d : CachedImage) :
    (flushBlock b).Holds d (fun _ d' ↦ ∀ c, d'.view c = d.view c) (fun _ d' ↦ ∀ c, d'.view c = d.view c) := by
  unfold flushBlock
  rw [Exec.holds_bind, Exec.holds_read]
  cases hb : d.cache.map.find? b with
  | none => exact fun _ ↦ rfl
  | some entry =>
    dsimp only
    by_cases hdirty : entry.dirty = true
    · rw [if_pos hdirty, Exec.holds_bind, onImage, Exec.holds_zoom]
      refine (Image.writeBlock_spec d.image b entry.data).mono ?_ ?_
      · rintro _ img ⟨-, -, hother⟩
        rw [modifyCache, Exec.holds_modify]
        intro c
        by_cases hc : c = b
        · rw [hc, view_of_some (KeyMap.find?_insert_self _ _ _), view_of_some hb]
        · exact view_congr (KeyMap.find?_insert_of_ne hc) (fun _ ↦ hother c hc)
      · intro _ img hfail c
        exact view_congr rfl (fun _ ↦ hfail.2.block c)
    · rw [if_neg hdirty]
      exact fun _ ↦ rfl

theorem flush_view (order : IterOrder) (d : CachedImage) :
    (flush order).Holds d (fun _ d' ↦ ∀ c, d'.view c = d.view c) (fun _ d' ↦ ∀ c, d'.view c = d.view c) := by
  unfold flush
  rw [Exec.holds_bind, Exec.holds_read]
  refine Exec.holds_forEach (fun _ (d' : CachedImage) ↦ ∀ c, d'.view c = d.view c) ?_ _ (fun _ ↦ rfl)
  intro b rest d₁ hsame
  refine (flushBlock_view b d₁).mono ?_ ?_
  · intro _ d₂ hview c
    rw [hview c, hsame c]
  · intro _ d₂ hview c
    rw [hview c, hsame c]

end BlockCache

/-- The calls that write cached data back. -/
inductive WriteBackCall where
  | get (block : ℕ)
  | getMut (block : ℕ) (change : Block → Block)
  | insertDirty (block : ℕ) (data : Block)
  | flush (order : IterOrder)
  | flushRecordCache

namespace WriteBackCall

open LinuxFile.Inner

def exec : WriteBackCall → Fs Unit
  | get block => do
    let _ ← onCache (BlockCache.get block)
    pure ()
  | getMut block change => onCache (BlockCache.getMut block change)
  | insertDirty block data => onCache (BlockCache.insertDirty block data)
  | flush order => onCache (BlockCache.flush order)
  | flushRecordCache => Inner.flushRecordCache

/-- The record in memory: its file, its number and its bytes. -/
def heldRecord (s : Inner) : Option (ℕ × ℕ × Bytes) := s.recordCache.map (fun c ↦ (c.ino, c.record, c.data))

/-- The blocks as a reader sees them and the record in memory are what they were. -/
def Kept (s t : Inner) : Prop := (∀ b, t.disk.view b = s.disk.view b) ∧ heldRecord t = heldRecord s

/-- The call drops data that is nowhere else. -/
def Loses (s : Inner) : WriteBackCall → Prop
  | get block => s.disk.cache.map.find? block = none ∧ BlockCache.LosesOldest s.disk
  | getMut block _ => s.disk.cache.map.find? block = none ∧ BlockCache.LosesOldest s.disk
  | insertDirty block _ => s.disk.cache.map.find? block = none ∧ BlockCache.LosesOldest s.disk
  | flush _ => False
  | flushRecordCache => True

variable {s t : Inner} {e : Error}

theorem kept_withDisk_iff {d : CachedImage} : Kept s (s.withDisk d) ↔ ∀ b, d.view b = s.disk.view b :=
  ⟨fun h ↦ h.1, fun h ↦ ⟨h, rfl⟩⟩

/-- A call of the block cache that failed. -/
theorem onCache_failed {α : Type} {x : Exec Error CachedImage α} {E : Error → CachedImage → Prop}
    (h : x.Holds s.disk (fun _ _ ↦ True) E) :
    (onCache x).Holds s (fun _ _ ↦ True) (fun e t ↦ ∃ d, t = s.withDisk d ∧ E e d) := by
  rw [holds_onCache]
  exact h.mono (fun _ _ _ ↦ trivial) (fun _ d he ↦ ⟨d, rfl, he⟩)

theorem miss_kept_iff {b : ℕ} {d : CachedImage} (hmiss : s.disk.cache.map.find? b = none)
    (hiff : (∀ c, d.view c = s.disk.view c) ↔ ¬BlockCache.LosesOldest s.disk) :
    Kept s (s.withDisk d) ↔ ¬(s.disk.cache.map.find? b = none ∧ BlockCache.LosesOldest s.disk) := by
  rw [kept_withDisk_iff, hiff, not_and]
  exact ⟨fun h _ ↦ h, fun h ↦ h hmiss⟩

/-- The held record has left its slot when storing it fails. -/
theorem flushRecordCache_failed (s : Inner) :
    Inner.flushRecordCache.Holds s (fun _ _ ↦ True) (fun _ t ↦ heldRecord t ≠ heldRecord s) := by
  unfold Inner.flushRecordCache
  rw [Exec.holds_bind, Exec.holds_read]
  cases hc : s.recordCache with
  | none => exact trivial
  | some c =>
    dsimp only
    rw [Exec.holds_bind, Exec.holds_modify]
    split_ifs
    · refine (storeRecord_noNewRecord c.ino c.record c.data _).mono (fun _ _ _ ↦ trivial) ?_
      intro _ t hnew
      have hnone : t.recordCache = none := hnew.none rfl
      unfold heldRecord
      rw [hnone, hc]
      simp
    · exact trivial

/-- When a call fails, cached data is still there exactly if the call did not drop it. -/
theorem kept_on_error_iff (call : WriteBackCall) (herr : call.exec s = .err e t) :
    Kept s t ↔ ¬call.Loses s := by
  cases call with
  | get block =>
    have hspec : (exec (get block)).Holds s (fun _ _ ↦ True) (fun _ t ↦ Kept s t ↔ ¬(get block).Loses s) := by
      refine (onCache_failed (BlockCache.get_failed block s.disk)).bind (fun _ _ _ ↦ trivial) ?_
      rintro _ t ⟨d, rfl, hmiss, hiff⟩
      exact miss_kept_iff hmiss hiff
    exact hspec.of_err herr
  | getMut block change =>
    have hget : (BlockCache.getMut block change).Holds s.disk (fun _ _ ↦ True)
        (fun _ d ↦ s.disk.cache.map.find? block = none ∧
          ((∀ c, d.view c = s.disk.view c) ↔ ¬BlockCache.LosesOldest s.disk)) := by
      unfold BlockCache.getMut
      exact (BlockCache.get_failed block s.disk).bind (fun _ _ _ ↦ trivial) (fun _ _ he ↦ he)
    obtain ⟨d, rfl, hmiss, hiff⟩ := (onCache_failed hget).of_err herr
    exact miss_kept_iff hmiss hiff
  | insertDirty block data =>
    obtain ⟨d, rfl, hmiss, hiff⟩ := (onCache_failed (BlockCache.insertDirty_failed block data s.disk)).of_err herr
    exact miss_kept_iff hmiss hiff
  | flush order =>
    have hflush := (BlockCache.flush_view order s.disk).mono (fun _ _ _ ↦ trivial) (fun _ _ he ↦ he)
    obtain ⟨d, rfl, hview⟩ := (onCache_failed hflush).of_err herr
    rw [kept_withDisk_iff]
    exact ⟨fun _ ↦ id, fun _ ↦ hview⟩
  | flushRecordCache =>
    have hheld := (flushRecordCache_failed s).of_err herr
    exact ⟨fun hkept ↦ absurd hkept.2 hheld, fun hnot ↦ absurd trivial hnot⟩

/-- A full cache of changed blocks over an image that cannot grow. -/
def fullCache : Inner :=
  { blank sampleOptions sampleEnv (Buf.zero 16) [] with
    image := Image.fresh [some .storageFull]
    cache := {
      map := (List.range 16).foldl (fun m b ↦ m.insert b ⟨Buf.ofBytes blockSize [1], true⟩) KeyMap.empty
      lru := List.range 16
      capacity := 16 } }

/-- Reading a seventeenth block fails, and a changed block reads as zeros afterwards. -/
theorem changed_block_lost :
    ∃ e t, (get 16).exec fullCache = .err e t ∧ ¬Kept fullCache t := by
  have hlost : ((get 16).exec fullCache).errAnd (fun t ↦ (t.disk.view 0).byte 0 == 0) = true := by
    decide +kernel
  obtain ⟨e, t, hrun, htest⟩ := Outcome.exists_of_errAnd hlost
  refine ⟨e, t, hrun, fun hkept ↦ ?_⟩
  rw [hkept.1 0] at htest
  exact absurd htest (by decide +kernel)

/-- A flush that the host refuses leaves the changed blocks as they were, and the next one writes them. -/
theorem kept_on_error_refused : ∃ e t u, (flush IterOrder.inOrder).exec fullCache = .err e t ∧ Kept fullCache t ∧
    (t.disk.view 0).byte 0 = 1 ∧ (t.image.block 0).byte 0 = 0 ∧
    (flush IterOrder.inOrder).exec t = .ok () u ∧ (u.image.block 0).byte 0 = 1 := by
  have hfails : ((flush IterOrder.inOrder).exec fullCache).errAnd (fun t ↦ (t.disk.view 0).byte 0 == 1 &&
      (t.image.block 0).byte 0 == 0 &&
      ((flush IterOrder.inOrder).exec t).okAnd fun _ u ↦ (u.image.block 0).byte 0 == 1) = true := by
    decide +kernel
  obtain ⟨e, t, hrun, htest⟩ := Outcome.exists_of_errAnd hfails
  rw [Bool.and_eq_true, Bool.and_eq_true, beq_iff_eq, beq_iff_eq] at htest
  obtain ⟨⟨hheld, hstored⟩, hagain⟩ := htest
  obtain ⟨_, u, hretry, hwritten⟩ := Outcome.exists_of_okAnd hagain
  exact ⟨e, t, u, hrun, (kept_on_error_iff (flush IterOrder.inOrder) hrun).mpr id, hheld, hstored, hretry,
    beq_iff_eq.mp hwritten⟩

end WriteBackCall

end LinuxFile
