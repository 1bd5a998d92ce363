import LinuxFile.Spec.Files
import LinuxFile.Spec.Rereading
import LinuxFile.Spec.TidyRuns
import LinuxFile.Theorems.DropInode

/-!
# What a flush does to the bytes of a file

Persisting an inode keeps its bytes, before and after it is read back from its slot, with one exception. An inode that
holds its data inline while it still has the extent tree of a larger version of itself is taken for a file with
extents; it has none, and so its bytes become zeros.
-/

namespace LinuxFile

namespace Inner

variable {s t u : Inner} {i j : Inode} {k : ℕ}

/-- `read_data` over the whole file. -/
def ReadsAs (s : Inner) (k size : ℕ) (bytes : Bytes) : Prop := ∃ t, readData k 0 size s = .ok bytes t

/-- The file reads the same before the flush, after it, and when its inode has been read back. -/
def ContentKept (s t : Inner) (k size : ℕ) : Prop :=
  ∃ bytes, s.ReadsAs k size bytes ∧ t.ReadsAs k size bytes ∧ (t.forget k).ReadsAs k size bytes

/-! ## What is read -/

/-- A read that the host does not fail gives what reads give. -/
theorem reads_of_holds {size : ℕ} {bytes : Bytes} (hpanic : readData k 0 size s ≠ .panic)
    (hhost : ∀ e u, readData k 0 size s = .err e u → ¬e.IsHost)
    (h : (readData k 0 size).Holds s (fun data _ ↦ data = bytes) (fun e _ ↦ e.IsHost)) (other : Bytes) :
    s.ReadsAs k size other ↔ other = bytes := by
  constructor
  · rintro ⟨u, hread⟩
    exact h.of_ok hread
  · rintro rfl
    cases hread : readData k 0 size s with
    | ok data u => exact ⟨u, by rw [hread, h.of_ok hread]⟩
    | err e u => exact absurd (h.of_err hread) (hhost e u hread)
    | panic => exact absurd hread hpanic

theorem Sound.reads_iff (h : s.Sound) (hi : s.inodes.find? k = some i) (hraw : i.usesCompression = false)
    (hhost : ∀ e u, readData k 0 i.size s = .err e u → ¬e.IsHost) (bytes : Bytes) :
    s.ReadsAs k i.size bytes ↔ bytes = s.contents k := by
  refine reads_of_holds (readData_returns h hi (Or.inl hraw) 0 _) hhost
    ((h.readAll hi).mono (fun _ _ hdata ↦ hdata.1) fun _ _ he ↦ he) bytes

/-- The inode of a file without compression after a completed flush. -/
structure Settles (s t : Inner) (k : ℕ) (i j : Inode) : Prop where
  sound : t.Sound
  mem : t.inodes.find? k = some j
  clean : t.dirtyInodes.contains k = false
  persisted : Persisted i j
  stranded : Stranded i → t.contents k = List.replicate i.size 0
  kept : ¬Stranded i → t.contents k = s.contents k

/-- What a completed flush does to a file without compression. -/
theorem flushAll_settles {order : FlushOrder} (h : s.Sound) (hwritable : s.writable = true)
    (hi : s.inodes.find? k = some i) (hraw : i.usesCompression = false) (hflush : flushAll order s = .ok () t) :
    ∃ j, Settles s t k i j := by
  obtain ⟨u, hempty, hrests⟩ := (flushAll_rests h hwritable order).of_ok hflush
  obtain ⟨hsync, hclean, -⟩ := (flushAll_syncs h hwritable order).of_ok hflush
  -- the held record belongs to another file
  obtain ⟨i', hi', hdata⟩ := hempty.same.some k i hi
  have hsame : i' = i := by
    rcases hdata.stowed with hsame | ⟨-, huses, -⟩
    · exact hsame
    · rw [hraw] at huses
      cases huses
  rw [hsame] at hi'
  obtain ⟨j, hj, hpersisted⟩ := hrests.persisted.some k i hi'
  have hnot : t.dirtyInodes.contains k = false := by
    rw [hclean]
    rfl
  refine ⟨j, hsync.sound, hj, hnot, hpersisted, fun hstranded ↦ ?_, fun hstranded ↦ ?_⟩
  · have hfew : j.extents = [] := by
      rw [hpersisted.extents]
      exact (h.wf hi).inline hstranded.1
    have htree : j.extentTree = 0 := by
      rcases (hsync.sound.inv.onDisk.stored k j hj hnot).tree with ⟨-, hzero⟩ | ⟨hlong, -⟩
      · exact hzero
      · rw [hfew] at hlong
        exact absurd hlong (by decide)
    have hkind : j.dataKind ≠ .inline := by
      rcases hpersisted.kind with ⟨-, hkept⟩ | ⟨-, hk⟩ | ⟨-, -, hk⟩
      · exact absurd (hkept.symm.trans htree) hstranded.2
      · rw [hk]
        decide
      · rw [hk]
        decide
    rw [contents_of_mem hj, hpersisted.size, List.eq_replicate_iff, List.length_map, List.length_range]
    refine ⟨rfl, fun b hb ↦ ?_⟩
    obtain ⟨p, -, rfl⟩ := List.mem_map.mp hb
    rw [fileByte_none hrests.record hkind]
    unfold storedByte
    rw [hfew]
    rfl
  · rcases hrests.contents hempty.sound hempty.none hi' hj hpersisted with hkept | ⟨hstrands, -⟩
    · exact hkept.trans (hempty.same.contents k)
    · exact absurd hstrands hstranded

/-- A file without compression reads the same before and after a flush, and after its inode has been read back,
exactly if it does not hold data inline beside an extent tree, or only zeros. -/
theorem flush_keeps_content_iff {order : FlushOrder} (hs : s.Reached) (hi : s.inodes.find? k = some i)
    (hmode : i.mode ≠ 0) (hraw : i.usesCompression = false)
    (hinline : i.dataKind = .inline → i.inlineData.length ≤ inlineMax) (hcount : i.extents.length < 2 ^ 32)
    (hflush : flushAll order s = .ok () t) (hhost : ∀ u, u = s ∨ u = t ∨ u = t.forget k →
      ∀ e v, readData k 0 i.size u = .err e v → ¬e.IsHost) :
    ContentKept s t k i.size ↔ (Stranded i → s.contents k = List.replicate i.size 0) := by
  have hsound := hs.tidy.sound
  obtain ⟨j, hj⟩ := flushAll_settles hsound hs.tidy.writable hi hraw hflush
  have hsize := hj.persisted.size
  have huses : j.usesCompression = false := hj.persisted.usesCompression.trans hraw
  have hmode' : j.mode ≠ 0 := by
    rw [hj.persisted.same]
    exact hmode
  have hinline' : j.dataKind = .inline → j.inlineData.length ≤ inlineMax := by
    intro hkind
    rw [hj.persisted.same]
    apply hinline
    by_contra hne
    exact hj.persisted.kind_ne hne hkind
  have hcount' : j.extents.length < 2 ^ 32 := by
    rw [hj.persisted.extents]
    exact hcount
  have hbefore := hsound.reads_iff hi hraw (hhost s (Or.inl rfl))
  have hafter : ∀ bytes, t.ReadsAs k i.size bytes ↔ bytes = t.contents k := by
    rw [← hsize]
    refine hj.sound.reads_iff hj.mem huses ?_
    rw [hsize]
    exact hhost t (Or.inr (Or.inl rfl))
  have hagain : ∀ bytes, (t.forget k).ReadsAs k i.size bytes ↔ bytes = t.contents k := by
    intro bytes
    rw [← hsize]
    have hpacked : j.usesCompression = true → t.FirstStable (j.extents.map Extent.stored) := by
      intro hpacked
      rw [huses] at hpacked
      cases hpacked
    refine reads_of_holds (readData_ne_panic (E := fun e _ ↦ e.IsHost) ?_ 0 _) ?_
      (readData_rereads hj.sound hj.mem hj.clean hmode' hcount' huses hinline') bytes
    · refine (getInode_rereads hj.sound hj.mem hj.clean hmode' hcount' hpacked).mono ?_ (fun _ _ he ↦ he)
      rintro x u ⟨hlisted, -, hmem, -⟩
      refine ⟨hmem, Or.inl (by rw [hlisted]; exact huses), fun hkind ↦ ?_⟩
      have hin : j.dataKind = .inline := by
        rw [hlisted] at hkind
        exact hkind
      rw [relisted_size (hj.sound.wf hj.mem) hlisted, relisted_inlineData hin (hinline' hin) hlisted]
      exact hj.sound.inline k j hj.mem hin
    · rw [hsize]
      exact hhost (t.forget k) (Or.inr (Or.inr rfl))
  have hkept : ContentKept s t k i.size ↔ t.contents k = s.contents k := by
    constructor
    · rintro ⟨bytes, hread, hread', -⟩
      rw [← (hbefore bytes).mp hread, ← (hafter bytes).mp hread']
    · intro hsame
      exact ⟨s.contents k, (hbefore _).mpr rfl, (hafter _).mpr hsame.symm, (hagain _).mpr hsame.symm⟩
  rw [hkept]
  by_cases hstranded : Stranded i
  · rw [hj.stranded hstranded]
    exact ⟨fun h _ ↦ h.symm, fun h ↦ (h hstranded).symm⟩
  · exact ⟨fun _ h ↦ absurd h hstranded, fun _ ↦ hj.kept hstranded⟩

/-! ## Concrete runs -/

/-- A file without compression whose flush completes; no read of it is failed by the host. -/
structure FlushedFile (s : Inner) (k : ℕ) (i : Inode) (t : Inner) : Prop where
  mem : s.inodes.find? k = some i
  mode : i.mode ≠ 0
  raw : i.usesCompression = false
  inline : i.dataKind = .inline → i.inlineData.length ≤ inlineMax
  count : i.extents.length < 2 ^ 32
  flush : flushAll FlushOrder.inOrder s = .ok () t
  host : ∀ u, u = s ∨ u = t ∨ u = t.forget k → ∀ e v, readData k 0 i.size u = .err e v → ¬e.IsHost

def keepTest (k : ℕ) (test : Inner → Inode → Inner → Bool) (s : Inner) : Bool :=
  (s.inodes.find? k).any fun i ↦ decide (i.mode ≠ 0) && decide (i.usesCompression = false) &&
    decide (i.inlineData.length ≤ inlineMax) && decide (i.extents.length < 2 ^ 32) &&
      (flushAll FlushOrder.inOrder s).okAnd fun _ t ↦
        answered (readData k 0 i.size s) && answered (readData k 0 i.size t) &&
          answered (readData k 0 i.size (t.forget k)) && test s i t

theorem not_host_of_answered {α : Type} {x : Fs α} (h : answered (x s) = true) (e : Error) (v : Inner)
    (herr : x s = .err e v) : ¬e.IsHost := by
  rcases Answers.of_test h with ⟨_, u, hok⟩ | ⟨e', u, herr', hnot⟩
  · rw [hok] at herr
    cases herr
  · rw [herr'] at herr
    cases herr
    exact hnot

theorem keepTest_runs {test : Inner → Inode → Inner → Bool} (h : keepTest k test s = true) :
    ∃ i t, FlushedFile s k i t ∧ test s i t = true := by
  obtain ⟨i, hi, hall⟩ := (Option.any_eq_true ..).mp h
  rw [Bool.and_eq_true, Bool.and_eq_true, Bool.and_eq_true, Bool.and_eq_true, decide_eq_true_eq, decide_eq_true_eq,
    decide_eq_true_eq, decide_eq_true_eq] at hall
  obtain ⟨⟨⟨⟨hmode, hraw⟩, hinline⟩, hcount⟩, hflush⟩ := hall
  obtain ⟨_, t, hflush, hreads⟩ := Outcome.exists_of_okAnd hflush
  rw [Bool.and_eq_true, Bool.and_eq_true, Bool.and_eq_true] at hreads
  obtain ⟨⟨⟨hs, ht⟩, hforget⟩, htest⟩ := hreads
  refine ⟨i, t, ⟨hi, hmode, hraw, fun _ ↦ hinline, hcount, hflush, ?_⟩, htest⟩
  rintro u (rfl | rfl | rfl)
  · exact not_host_of_answered hs
  · exact not_host_of_answered ht
  · exact not_host_of_answered hforget

def writeInlineFile : List Operation :=
  [.createChild rootIno [0x61] (sIfreg ||| 0o644) 0 0 0 Creds.root, .writeData 2 0 [1, 2, 3]]

/-- A small file that was written only once keeps its bytes. -/
theorem flush_keeps_content_written : ∃ s i t, s.Reached ∧ FlushedFile s 2 i t ∧ i.dataKind = .inline ∧
    ContentKept s t 2 i.size := by
  have hplay : (sampleCalls writeInlineFile).okAnd (fun calls s ↦ (calls.all fun call ↦ call.2.regular call.1) &&
      keepTest 2 (fun _ i _ ↦ decide (i.dataKind = .inline) && decide (i.extentTree = 0)) s) = true := by
    decide +kernel
  obtain ⟨-, -, s, -, -, -, hs, htest⟩ := sampleCalls_reached hplay
  obtain ⟨i, t, hfile, htest⟩ := keepTest_runs htest
  rw [Bool.and_eq_true, decide_eq_true_eq, decide_eq_true_eq] at htest
  refine ⟨s, i, t, hs, hfile, htest.1, (flush_keeps_content_iff hs hfile.mem hfile.mode hfile.raw hfile.inline
    hfile.count hfile.flush hfile.host).mpr fun hstranded ↦ ?_⟩
  exact absurd htest.2 hstranded.2

/-- A file whose extents were stored in a tree; then it is emptied and gets a few bytes. -/
def refilled : List Operation := shortenedTree ++ [.writeData 2 0 [1, 2, 3]]

/-- The calls of `refilled`, with what is read before and after the flush. -/
def refilledRun : {ops : List Operation // (sampleCalls ops).okAnd (fun calls s ↦
    (calls.all fun call ↦ call.2.regular call.1) &&
      keepTest 2 (fun s i t ↦ (readData 2 0 i.size s).okAnd (fun data _ ↦ decide (data = [1, 2, 3])) &&
        (readData 2 0 i.size t).okAnd (fun data _ ↦ decide (data = [0, 0, 0]))) s) = true} :=
  ⟨refilled, by decide +kernel⟩

/-- The bytes are zeros after the flush. -/
theorem refilled_file_is_zeroed : ∃ first calls s i t, sampleImage = .ok () first ∧
    Exec.Runs Operation.exec first calls s ∧ calls.map Prod.snd = refilled ∧ s.Reached ∧ FlushedFile s 2 i t ∧
    s.ReadsAs 2 i.size [1, 2, 3] ∧ t.ReadsAs 2 i.size [0, 0, 0] ∧ ¬ContentKept s t 2 i.size := by
  obtain ⟨first, calls, s, himage, hrun, hops, hs, htest⟩ := sampleCalls_reached refilledRun.2
  obtain ⟨i, t, hfile, htest⟩ := keepTest_runs htest
  rw [Bool.and_eq_true] at htest
  obtain ⟨data, u, hbefore, hdata⟩ := Outcome.exists_of_okAnd htest.1
  obtain ⟨data', v, hafter, hdata'⟩ := Outcome.exists_of_okAnd htest.2
  rw [of_decide_eq_true hdata] at hbefore
  rw [of_decide_eq_true hdata'] at hafter
  refine ⟨first, calls, s, i, t, himage, hrun, hops, hs, hfile, ⟨u, hbefore⟩, ⟨v, hafter⟩, ?_⟩
  rintro ⟨bytes, ⟨_, hread⟩, ⟨_, hread'⟩, -⟩
  rw [hbefore] at hread
  rw [hafter] at hread'
  cases hread
  cases hread'

end Inner

end LinuxFile
