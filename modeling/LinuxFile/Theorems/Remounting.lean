import LinuxFile.Spec.Remounted
import LinuxFile.Theorems.FilesByPath
import LinuxFile.Theorems.FlushContents
import LinuxFile.Theorems.Orphans

/-!
# The same files after a remount

A filesystem is flushed, and its image is opened again. Every run of calls that only look is answered by the new mount
as it was by the filesystem before the flush: paths lead to the same inodes, with the same attributes, bytes, entries
and targets. What the flush loses has to be left out: inline data beside a stale extent tree, inodes that do not fit
where they are stored, and a table of inodes with more extents than the superblock has room for.
-/

namespace LinuxFile

namespace Inner

variable {s t m : Inner} {img rest : Image} {writable : Bool} {cacheBlocks : ℕ} {sync : SyncMode} {env : Env}

/-- A flush stores everything. -/
structure Keepable (s : Inner) : Prop where
  savable : s.Savable
  settled : ∀ k i, s.inodes.find? k = some i → ¬Stranded i

theorem Visitor.agrees {f : Nodes} {V : Option ℕ → Inner → Prop} {perm : Bool} {limit : ℕ}
    (h : Visitor True f V perm limit) (hs : V none s) (depth : ℕ) (queries : List Query) :
    (Query.runAll depth queries).Holds s
      (fun answers _ ↦ (∃ e, Except.error e ∈ answers ∧ e.IsHost) ∨
        answers.map Except.toOption = queries.map (Query.answer depth f)) (fun _ _ ↦ False) :=
  (h.runAll queries s hs (Or.inl trivial)).holds.mono (fun _ _ ha ↦ ha.imp_left And.right) fun _ _ hf ↦ hf

theorem Visitor.returns {f : Nodes} {V : Option ℕ → Inner → Prop} {perm : Bool} {limit : ℕ}
    (h : Visitor False f V perm limit) (hs : V none s) {depth : ℕ} {queries : List Query}
    (henough : ∀ q ∈ queries, q.Enough depth f) :
    (Query.runAll depth queries).Meets s
      (fun answers _ ↦ answers.map Except.toOption = queries.map (Query.answer depth f)) (fun _ _ ↦ False)
      (∃ q ∈ queries, q.answer depth f = none) :=
  Exec.Meets.mono (h.runAll queries s hs (Or.inr henough)) (fun _ _ ha ↦ ha.resolve_left fun hf ↦ hf.1) (fun _ _ hf ↦ hf)
    fun hp ↦ hp.resolve_left id

theorem node_of_syncs (h : Syncs s t) (hsettled : ∀ k i, s.inodes.find? k = some i → ¬Stranded i) : t.node = s.node := by
  funext k
  cases hi : s.inodes.find? k with
  | none => rw [node_eq_none.mpr hi, node_eq_none.mpr (h.none k hi)]
  | some i =>
    obtain ⟨bytes, hnode, rfl | ⟨hstranded, -⟩⟩ := h.some k i hi
    · rw [hnode, node_of_mem hi]
    · exact absurd hstranded (hsettled k i hi)

theorem Persisted.savable {i j : Inode} (h : Persisted i j) (hi : i.Savable) : j.Savable where
  mode := by
    rw [h.same]
    exact hi.mode
  raw := h.usesCompression.trans hi.raw
  nlink := by
    rw [h.same]
    exact hi.nlink
  inline hkind := by
    have hdata : j.inlineData = i.inlineData := by rw [h.same]
    rw [hdata]
    apply hi.inline
    rcases h.kind with ⟨hsame, -⟩ | ⟨-, hother⟩ | ⟨-, -, hother⟩
    · exact hsame.symm.trans hkind
    · rw [hkind] at hother
      cases hother
    · rw [hkind] at hother
      cases hother
  count := by
    rw [h.extents]
    exact hi.count

/-- What could be stored is stored as it was. -/
theorem Keepable.flushed (hs : s.Rooted) (h : s.Keepable) {order : FlushOrder} (hflush : flushAll order s = .ok () t) :
    t.node = s.node ∧ t.Rooted ∧ t.Savable := by
  obtain ⟨hsync, -⟩ := (flushAll_syncs hs.tidy.sound hs.tidy.writable order).of_ok hflush
  have hnode := node_of_syncs hsync h.settled
  have htidy := ((flushAll_stays hs.tidy order).of_ok hflush).1
  refine ⟨hnode, hs.kept htidy hnode, fun k j hj ↦ ?_⟩
  cases hi : s.inodes.find? k with
  | none =>
    rw [hsync.none k hi] at hj
    cases hj
  | some i =>
    have hi' := h.savable k i hi
    obtain ⟨j', hj'⟩ := flushAll_settles hs.tidy.sound hs.tidy.writable hi hi'.raw hflush
    rw [hj'.mem] at hj
    cases hj
    exact hj'.persisted.savable hi'

/-- A decidable form of `Keepable`. -/
def keepable (s : Inner) : Bool :=
  s.inodes.entries.all fun e ↦ e.2.mode != 0 && !e.2.usesCompression && decide (e.2.nlink < 2 ^ 32) &&
    decide (e.2.inlineData.length ≤ inlineMax) && decide (e.2.extents.length < 2 ^ 32) && e.2.extentTree == 0

theorem Keepable.of_test (h : s.keepable = true) : s.Keepable := by
  have hall : ∀ k i, s.inodes.find? k = some i → i.Savable ∧ i.extentTree = 0 := by
    intro k i hi
    have htest := List.all_eq_true.mp h (k, i) (KeyMap.find?_eq_some_iff.mp hi)
    simp only [Bool.and_eq_true, bne_iff_ne, Bool.not_eq_true', decide_eq_true_eq, beq_iff_eq] at htest
    obtain ⟨⟨⟨⟨⟨hmode, hraw⟩, hlinks⟩, hinline⟩, hcount⟩, htree⟩ := htest
    exact ⟨⟨hmode, hraw, hlinks, fun _ ↦ hinline, hcount⟩, htree⟩
  exact ⟨fun k i hi ↦ (hall k i hi).1, fun k i hi hstranded ↦ hstranded.2 (hall k i hi).2⟩

/-- The host of a mount of the sample image refuses nothing. -/
theorem Reopens.quiet {base : Inner} (hs : s.Tidy) (h : Reopens s t base m) : m.image.faults = [] := by
  have hflat := hs.flat h.flush h.journal
  obtain ⟨img, hload⟩ := h.load
  obtain ⟨rest, hopen⟩ := h.opens
  obtain ⟨base', img', hload', hscan⟩ := openImage_ok hopen
  rw [hload] at hload'
  cases hload'
  obtain ⟨total, htotal, hprimary, -⟩ := hflat.recorded
  have hrange : ({ t.sb with totalBlocks := total } : Superblock).InRange :=
    { hflat.tidy.inRange with totalBlocks := htotal }
  obtain ⟨-, hsame, hbase⟩ := (loadMount_reads hprimary hrange h.journal).of_ok hload
  have hpristine : base.disk.Pristine := by
    rw [hbase]
    exact mounted_pristine (hsame.ok hflat.tidy.sound.inv.geometry.image) _ _
  obtain ⟨found, u, rfl, ⟨-, hunwritten⟩, -⟩ := (rebuildFreeInodes_reads base).of_ok hscan
  have hspends : u.image.faults <:+ base.image.faults := (hunwritten hpristine).2.2
  rw [h.faults] at hspends
  exact List.suffix_nil.mp hspends

end Inner

end LinuxFile
