import LinuxFile.Spec.Lifetime
import LinuxFile.Spec.Mount

/-!
# The files over a flush

Writing everything back changes no file, with one exception: an inode that holds its data inline but still
has the extent tree of an earlier, larger version of itself becomes a file of holes.
-/

namespace LinuxFile.Inner

variable {s t u : Inner} {live live' : KeyMap Inode} {i i' : Inode} {ino k : ℕ}

/-- Inline data beside a stale extent tree. -/
def Stranded (i : Inode) : Prop := i.dataKind = .inline ∧ i.extentTree ≠ 0

/-- The files after a flush, complete or not. -/
structure Syncs (s t : Inner) : Prop where
  sound : t.Sound
  none : ∀ k, s.inodes.find? k = none → t.inodes.find? k = none
  some : ∀ k i, s.inodes.find? k = some i → ∃ bytes, t.node k = some (i.toNode bytes) ∧
    (bytes = s.contents k ∨ Stranded i ∧ bytes = List.replicate i.size 0)
  sb : SbFlushed s.sb t.sb
  inRange : s.sb.InRange → t.sb.InRange
  same : t = { s with
    image := t.image
    cache := t.cache
    alloc := t.alloc
    journal := t.journal
    inodes := t.inodes
    dirtyInodes := t.dirtyInodes
    recordCache := t.recordCache
    sb := t.sb }

theorem Persisted.toNode (h : Persisted i i') (bytes : Bytes) : i'.toNode bytes = i.toNode bytes := by
  rw [h.same]
  rfl

theorem Persisted.size (h : Persisted i i') : i'.size = i.size := by rw [h.same]

/-- Every inode in memory has been persisted or left alone. -/
structure Rests (s : Inner) (t : Inner) : Prop where
  inv : t.Inv t.inodes []
  persisted : AllPersisted s.inodes t.inodes
  data : KeepsData s.inodes s t
  env : t.env = s.env
  recordBlocks : t.recordBlocks = s.recordBlocks
  record : t.recordCache = none

theorem Rests.sound (h : Rests s t) (hs : s.Sound) : t.Sound := by
  have hback : ∀ k i', t.inodes.find? k = some i' → ∃ i, s.inodes.find? k = some i ∧ Persisted i i' := by
    intro k i' hi'
    cases hi : s.inodes.find? k with
    | none =>
      rw [h.persisted.none k hi] at hi'
      cases hi'
    | some i =>
      obtain ⟨x, hx, hp⟩ := h.persisted.some k i hi
      rw [hx] at hi'
      cases hi'
      exact ⟨i, rfl, hp⟩
  refine ⟨h.inv, fun k i' hi' ↦ ?_, fun k i' hi' hkind ↦ ?_, fun c hc ↦ nomatch h.record.symm.trans hc⟩
  · obtain ⟨i, hi, hp⟩ := hback k i' hi'
    have hlaid := (hs.laid k i hi).keep (hs.wf hi) (h.data k i hi) h.env h.recordBlocks
    have hext := hp.extents
    refine ⟨?_, ?_, ?_, ?_, ?_⟩
    · rw [hext]; exact hlaid.stable
    · rw [hext]; exact hlaid.packed
    · rw [hext]; exact hlaid.start
    · rw [hext]; exact hlaid.length
    · rw [hext]; exact hlaid.alone
  · obtain ⟨i, hi, hp⟩ := hback k i' hi'
    have hkind' : i.dataKind = .inline := by
      rcases hp.kind with ⟨hk, -⟩ | ⟨-, hk⟩ | ⟨-, -, hk⟩
      · rw [← hk, hkind]
      · rw [hkind] at hk; cases hk
      · rw [hkind] at hk; cases hk
    have hdata : i'.inlineData = i.inlineData := by rw [hp.same]
    rw [hdata, hp.size]
    exact hs.inline k i hi hkind'

/-- The bytes of a file whose inode has been persisted. -/
theorem Rests.contents (h : Rests s t) (hs : s.Sound) (hnone : s.recordCache = none)
    (hi : s.inodes.find? k = some i) (hi' : t.inodes.find? k = some i') (hp : Persisted i i') :
    t.contents k = s.contents k ∨ Stranded i ∧ t.contents k = List.replicate i.size 0 := by
  have hwf := hs.wf hi
  have hstored : ∀ p, t.storedByte i' p = s.storedByte i p := fun p ↦
    (storedByte_extents hp.extents p).trans ((hs.laid k i hi).storedByte_eq hwf (h.data k i hi) h.env p)
  rw [contents_of_mem hi, contents_of_mem hi', hp.size]
  have hdata : i'.inlineData = i.inlineData := by rw [hp.same]
  by_cases hkind : i.dataKind = .inline
  · by_cases hkind' : i'.dataKind = .inline
    · refine Or.inl (List.map_congr_left fun p _ ↦ ?_)
      rw [fileByte_inline hkind, fileByte_inline hkind', hdata]
    · have hstranded : Stranded i := by
        refine ⟨hkind, ?_⟩
        rcases hp.kind with ⟨hk, -⟩ | ⟨hlong, -⟩ | ⟨-, hne, -⟩
        · exact absurd (hk.trans hkind) hkind'
        · rw [hwf.inline hkind] at hlong
          exact absurd hlong (by simp)
        · exact hne
      refine Or.inr ⟨hstranded, ?_⟩
      rw [List.eq_replicate_iff]
      refine ⟨by rw [List.length_map, List.length_range], fun b hb ↦ ?_⟩
      obtain ⟨p, -, rfl⟩ := List.mem_map.mp hb
      rw [fileByte_none h.record hkind', hstored, storedByte_inline hwf hkind]
  · refine Or.inl (List.map_congr_left fun p _ ↦ ?_)
    rw [fileByte_none hnone hkind, fileByte_none h.record (hp.kind_ne hkind), hstored]

/-- First the held record is stored, then the inodes are persisted. -/
theorem Rests.syncs (h : Rests t u) (hst : Emptied s t) (hsb : SbFlushed t.sb u.sb)
    (hrange : t.sb.InRange → u.sb.InRange)
    (hsame : u = { t with
      image := u.image
      cache := u.cache
      alloc := u.alloc
      journal := u.journal
      inodes := u.inodes
      dirtyInodes := u.dirtyInodes
      recordCache := u.recordCache
      sb := u.sb }) : Syncs s u where
  sound := h.sound hst.sound
  none k hk := h.persisted.none k (hst.same.none k hk)
  some k i hi := by
    obtain ⟨i₁, hi₁, hdata⟩ := hst.same.some k i hi
    obtain ⟨i₂, hi₂, hp⟩ := h.persisted.some k i₁ hi₁
    have hstranded : Stranded i₁ → Stranded i := by
      rintro ⟨hkind, htree⟩
      refine ⟨hdata.inline_iff.mp hkind, ?_⟩
      rcases hdata.stowed with rfl | ⟨hstowed, -, -⟩
      · exact htree
      · rw [hstowed.same] at htree
        exact htree
    refine ⟨u.contents k, ?_, ?_⟩
    · rw [node_of_mem hi₂, hp.toNode, hdata.toNode]
    · rcases h.contents hst.sound hst.none hi₁ hi₂ hp with hc | ⟨hs, hc⟩
      · exact Or.inl (hc.trans (hst.same.contents k))
      · exact Or.inr ⟨hstranded hs, by rw [hc, hdata.size]⟩
  sb := by
    rw [hst.same.shell.sb] at hsb
    exact hsb
  inRange := by
    rw [hst.same.shell.sb] at hrange
    exact hrange
  same := by rw [hsame, hst.same.shell]

/-- A persisted state knows exactly the inodes that are in memory. -/
theorem inodes_of_persisted (hinv : u.Inv live' []) (hp : AllPersisted t.inodes live')
    (hmem : ∀ k, u.inodes.find? k = none ↔ t.inodes.find? k = none) : u.inodes = live' := by
  apply KeyMap.eq_of_find?_eq
  intro k
  cases hu : u.inodes.find? k with
  | some i => rw [hinv.numbered.memory k i hu]
  | none => rw [hp.none k ((hmem k).mp hu)]

theorem journalDirty_rests (h : s.Sound) (hnone : s.recordCache = none) (dirty : List ℕ) :
    (journalDirty dirty).Holds s
      (fun _ t ↦ Rests s t ∧ SameButJournal s.sb t.sb ∧ (s.sb.InRange → t.sb.InRange) ∧
        t = { s with journal := t.journal, image := t.image, sb := t.sb })
      (fun e t ↦ e.IsHost ∨ Rests s t ∧ ∃ journal, t = { s with journal := journal }) := by
  refine (journalDirty_spec h.inv dirty).mono ?_ ?_
  · rintro _ t ⟨hinv, hkeep, -, -, -, hsb, hrange, hsame⟩
    have hinodes : t.inodes = s.inodes := by rw [hsame]
    refine ⟨⟨by rw [hinodes]; exact hinv, by rw [hinodes]; exact AllPersisted.refl _, hkeep, ?_, ?_, ?_⟩, hsb, hrange,
      hsame⟩
    · rw [hsame]
    · rw [hsame]
    · rw [hsame]
      exact hnone
  · rintro e t (he | ⟨hinv, journal, rfl⟩)
    · exact Or.inl he
    · exact Or.inr ⟨⟨hinv, AllPersisted.refl _, KeepsData.refl _ _, rfl, rfl, hnone⟩, journal, rfl⟩

/-- The state between the two halves of a flush: the held record is stored, the journal written, and `items` are
the inodes to persist. -/
structure Commits (s : Inner) (items : List ℕ) (t u : Inner) : Prop where
  emptied : Emptied s t
  rests : Rests t u
  sb : SameButJournal t.sb u.sb
  inRange : t.sb.InRange → u.sb.InRange
  same : u = { t with journal := u.journal, image := u.image, sb := u.sb }
  nodup : items.Nodup
  dirty : ∀ k, u.dirtyInodes.contains k = true ↔ k ∈ items

theorem commitDirty_commits (h : s.Sound) (order : FlushOrder) :
    (commitDirty order).Holds s (fun items u ↦ ∃ t, Commits s items t u) (fun e t ↦ e.IsHost ∨ Syncs s t) := by
  unfold commitDirty
  refine (flushRecordCache_flushes h).bind ?_ (fun _ _ he ↦ Or.inl he)
  intro _ t ht
  rw [Exec.holds_bind, Exec.holds_read]
  refine (journalDirty_rests ht.sound ht.none _).bind ?_ ?_
  · rintro _ u ⟨hrests, hsb, hrange, hsame⟩
    rw [Exec.holds_pure]
    have hdirty : u.dirtyInodes = t.dirtyInodes := by rw [hsame]
    have hitems : ∀ k, u.dirtyInodes.contains k = true ↔ k ∈ order.inodes.arrange t.dirtyInodes.keys := fun k ↦ by
      rw [hdirty, IterOrder.mem_arrange, KeyMap.mem_keys_iff]
      rfl
    have hnodup : (order.inodes.arrange t.dirtyInodes.keys).Nodup :=
      ((order.inodes.perm _).nodup_iff).mpr (KeyMap.keys_nodup _)
    exact ⟨t, ht, hrests, hsb, hrange, hsame, hnodup, hitems⟩
  · rintro e u (he | ⟨hrests, journal, rfl⟩)
    · exact Or.inl he
    · exact Or.inr (hrests.syncs ht rfl id rfl)

theorem Commits.rest {items : List ℕ} {v : Inner} (h : Commits s items t u) (hinv : v.Inv v.inodes [])
    (hp : AllPersisted u.inodes v.inodes) (hdata : KeepsData u.inodes u v) (henv : v.env = u.env)
    (hrecords : v.recordBlocks = u.recordBlocks) (hcache : v.recordCache = u.recordCache) : Rests t v := by
  have hinodes : u.inodes = t.inodes := by rw [h.same]
  rw [hinodes] at hp hdata
  exact ⟨hinv, hp, h.rests.data.trans hdata, henv.trans h.rests.env, hrecords.trans h.rests.recordBlocks,
    hcache.trans h.rests.record⟩

/-- Attributes that fit their block before the flush fit it between the two halves. -/
theorem Commits.xattrs_fit {items : List ℕ} (h : Commits s items t u)
    (hfits : ∀ k n, s.node k = some n → (encodeXattrs n.xattr).length ≤ blockSize) : ¬XattrTooLarge u.inodes := by
  rintro ⟨k, i, hi, hlarge⟩
  have hsame : u.inodes = t.inodes := by rw [h.same]
  rw [hsame] at hi
  have hnode := node_of_mem hi
  rw [h.emptied.same.node] at hnode
  exact absurd hlarge (not_lt.mpr (hfits k _ hnode))

/-- The second half of a flush fails only when the host does, or when attributes do not fit their block. -/
theorem writeBack_syncs {items : List ℕ} (h : Commits s items t u) (order : FlushOrder) :
    (writeBack order items).Holds u
      (fun _ v ↦ (Syncs s v ∧ v.dirtyInodes = KeyMap.empty ∧ v.recordCache = none ∧ ∀ b, ¬v.disk.DirtyAt b) ∧ Rests t v)
      (fun e v ↦ e.IsHost ∨ XattrTooLarge u.inodes ∧ Syncs s v) := by
  refine (writeBack_spec h.rests.inv order _ h.nodup h.dirty).mono ?_ ?_
  · rintro _ v ⟨live', hf⟩
    have hlive := inodes_of_persisted hf.inv hf.persisted hf.memory
    have hr := h.rest (hlive ▸ hf.inv) (hlive ▸ hf.persisted) hf.data (by rw [hf.same]) (by rw [hf.same])
      (by rw [hf.same])
    refine ⟨⟨hr.syncs h.emptied ?_ (fun hrange ↦ ?_) ?_, hf.clean, hr.record, hf.settled⟩, hr⟩
    · unfold SbFlushed
      rw [hf.sb, h.sb]
    · have htotal := hf.inv.geometry.total
      have halloc := hf.inv.allocBlock_lt
      rw [hf.sb]
      exact { h.inRange hrange with totalBlocks := htotal, allocBlock := halloc }
    · rw [hf.same, h.same]
  · rintro e v (he | ⟨hlarge, live', hinv, hp, hbut, hdata, hmem⟩)
    · exact Or.inl he
    · have hlive := inodes_of_persisted hinv hp hmem
      have hr := h.rest (hlive ▸ hinv) (hlive ▸ hp) hdata (by rw [hbut]) (by rw [hbut]) (by rw [hbut])
      have hvsb : v.sb = u.sb := by rw [hbut]
      refine Or.inr ⟨hlarge, hr.syncs h.emptied ?_ ?_ ?_⟩
      · unfold SbFlushed
        rw [hvsb, h.sb]
      · rw [hvsb]
        exact h.inRange
      · rw [hbut, h.same]

theorem flushAll_eq (hwritable : s.writable = true) (order : FlushOrder) :
    flushAll order s = (commitDirty order >>= writeBack order) s := by
  unfold flushAll
  rw [Exec.bind_apply, Exec.read_apply]
  dsimp only
  rw [hwritable, if_neg (by decide)]

theorem flushAll_syncs (h : s.Sound) (hwritable : s.writable = true) (order : FlushOrder) :
    (flushAll order).Holds s
      (fun _ t ↦ Syncs s t ∧ t.dirtyInodes = KeyMap.empty ∧ t.recordCache = none ∧ ∀ b, ¬t.disk.DirtyAt b)
      (fun e t ↦ e.IsHost ∨ Syncs s t) := by
  unfold Exec.Holds
  rw [flushAll_eq hwritable]
  refine (commitDirty_commits h order).bind ?_ (fun _ _ he ↦ he)
  rintro items u ⟨t, hcommits⟩
  exact (writeBack_syncs hcommits order).mono (fun _ _ hv ↦ hv.1) fun _ _ he ↦ he.imp_right fun hv ↦ hv.2

/-- The inodes after a completed flush are those before it, persisted. -/
theorem flushAll_rests (h : s.Sound) (hwritable : s.writable = true) (order : FlushOrder) :
    (flushAll order).Holds s (fun _ v ↦ ∃ t, Emptied s t ∧ Rests t v) (fun _ _ ↦ True) := by
  unfold Exec.Holds
  rw [flushAll_eq hwritable]
  refine (commitDirty_commits h order).bind ?_ (fun _ _ _ ↦ trivial)
  rintro items u ⟨t, hcommits⟩
  exact (writeBack_syncs hcommits order).mono (fun _ _ hv ↦ ⟨t, hcommits.emptied, hv.2⟩) (fun _ _ _ ↦ trivial)

/-- A completed flush leaves the superblock on disk. -/
theorem flushAll_records (h : s.Sound) (hwritable : s.writable = true) (order : FlushOrder) :
    (flushAll order).Holds s (fun _ t ↦ t.SbRecorded) (fun _ _ ↦ True) := by
  unfold Exec.Holds
  rw [flushAll_eq hwritable]
  refine (commitDirty_commits h order).bind ?_ (fun _ _ _ ↦ trivial)
  rintro items u ⟨t, hcommits⟩
  refine (writeBack_spec hcommits.rests.inv order _ hcommits.nodup hcommits.dirty).mono ?_ (fun _ _ _ ↦ trivial)
  rintro _ v ⟨live', hflushed⟩
  exact hflushed.recorded

end LinuxFile.Inner
