import LinuxFile.Library.Settled
import LinuxFile.Spec.Returns

/-!
# The inodes that wait

`flush_all` persists the dirty inodes. Storing the held record comes first, and it adds the owner of the record to them.
-/

namespace LinuxFile

namespace Inner

variable {s t : Inner} {i : Inode} {ino : ℕ}

/-- The inodes of the next transaction: the dirty ones and the owner of a dirty record. -/
def pending (s : Inner) : KeyMap Unit :=
  (s.recordCache.filter (·.dirty)).elim s.dirtyInodes fun c ↦ s.dirtyInodes.insert c.ino ()

theorem pending_of_none (h : s.recordCache = none) : s.pending = s.dirtyInodes := by
  unfold pending
  rw [h]
  rfl

/-- Inode `ino` is in memory, and it has been added to the dirty inodes. -/
structure Marked (ino : ℕ) (dirty : KeyMap Unit) (s : Inner) : Prop where
  mem : ∃ i, s.inodes.find? ino = some i
  marked : s.dirtyInodes = dirty.insert ino ()

theorem getInodeMut_marked (ino : ℕ) (dirty : KeyMap Unit) (change : Inode → Inode) :
    (getInodeMut ino change).Respects (Exec.Preserves (Marked ino dirty)) := by
  intro s
  apply Exec.holds_of_forall
  · rintro _ t hok ⟨⟨i, hi⟩, hmarked⟩
    rw [getInodeMut_mem hi] at hok
    cases hok
    refine ⟨⟨change i, KeyMap.find?_insert_self _ _ _⟩, ?_⟩
    dsimp only
    rw [hmarked, KeyMap.insert_insert]
  · rintro e t herr ⟨⟨i, hi⟩, -⟩
    rw [getInodeMut_mem hi] at herr
    cases herr

theorem addExtent_marked (ino : ℕ) (dirty : KeyMap Unit) (ext : Extent) :
    (addExtent ino ext).Respects (Exec.Preserves (Marked ino dirty)) := by
  have hget : (getInode ino).Respects (Exec.Preserves (Marked ino dirty)) := by
    intro s
    apply Exec.holds_of_forall
    · rintro i t hok ⟨⟨j, hj⟩, hmarked⟩
      rw [getInode_mem hj] at hok
      cases hok
      exact ⟨⟨_, hj⟩, hmarked⟩
    · rintro e t herr ⟨⟨j, hj⟩, -⟩
      rw [getInode_mem hj] at herr
      cases herr
  exact .bind hget fun i ↦ .bind (appendExtent_respects _ _) fun _ ↦ getInodeMut_marked _ _ _

theorem storeRecord_marks (hmem : s.inodes.find? ino = some i) (hpos : 0 < s.recordBlocks) (record : ℕ)
    (data : Bytes) : (storeRecord ino record data).Holds s
      (fun _ t ↦ t.dirtyInodes = s.dirtyInodes.insert ino ()) (fun _ _ ↦ True) := by
  have hlt : record * s.recordBlocks < record * s.recordBlocks + s.recordBlocks := by omega
  have finish : ∀ {x : Fs Unit} {t : Inner}, x.Respects (Exec.Preserves (Marked ino s.dirtyInodes)) →
      Marked ino s.dirtyInodes t →
      x.Holds t (fun _ u ↦ u.dirtyInodes = s.dirtyInodes.insert ino ()) (fun _ _ ↦ True) :=
    fun hx ht ↦ (hx _).mono (fun _ _ hu ↦ (hu ht).marked) (fun _ _ _ ↦ trivial)
  unfold storeRecord
  rw [Exec.holds_bind, Exec.holds_read]
  by_cases hzero : data.all (· == 0) = true
  · rw [if_pos hzero, Exec.holds_iff_of_ok (punch_eq hmem hlt)]
  · rw [if_neg hzero, Exec.holds_bind_of_ok (getInode_mem hmem), Exec.holds_bind, Exec.holds_read]
    dsimp only
    split_ifs
    · rw [replaceRange_eq]
      apply (replaceRange_reaches hmem hlt _ _).bind _ (fun _ _ he ↦ he)
      rintro phys t ⟨-, ht, hmarked⟩
      exact finish (.bind (addExtent_marked _ _ _) fun _ ↦ getInodeMut_marked _ _ _) ⟨⟨_, ht⟩, hmarked⟩
    · rw [replaceRange_eq]
      apply (replaceRange_reaches hmem hlt _ _).bind _ (fun _ _ he ↦ he)
      rintro phys t ⟨-, ht, hmarked⟩
      exact finish (.bind (addExtent_marked _ _ _) fun _ ↦ .bind (getInodeMut_marked _ _ _) fun _ ↦
        getInodeMut_marked _ _ _) ⟨⟨_, ht⟩, hmarked⟩

theorem flushRecordCache_pending (h : s.Sound) :
    flushRecordCache.Holds s (fun _ t ↦ t.dirtyInodes = s.pending) (fun _ _ ↦ True) := by
  unfold flushRecordCache pending
  rw [Exec.holds_bind, Exec.holds_read]
  cases hc : s.recordCache with
  | none => exact rfl
  | some c =>
    dsimp only
    rw [Exec.holds_bind, Exec.holds_modify]
    by_cases hdirty : c.dirty = true
    · obtain ⟨i, hi, -⟩ := (h.held c hc).owner
      rw [if_pos hdirty, Option.filter_some, if_pos hdirty]
      exact storeRecord_marks (s := { s with recordCache := none }) hi h.inv.geometry.records.1 c.record c.data
    · rw [if_neg hdirty, Option.filter_some, if_neg hdirty]
      exact rfl

end Inner

end LinuxFile
