import LinuxFile.Spec.Streams
import LinuxFile.Theorems.Orphans

/-!
# Open files that share their inodes

Any number of open files, some on the same inode, are used in any order. Reads, writes, seeks and changes of the size
answer and act as if every inode were an array of bytes. What is written to files opened to append all stays, one
buffer behind the other.
-/

namespace LinuxFile

namespace Shelf

/-- What a call leaves. -/
def next (v : Shelf) (turn : Turn) : Shelf :=
  match turn.call.act (v.files turn.file) (v.bytes (v.files turn.file).ino) with
  | .ok (_, f, data) => ⟨Function.update v.bytes (v.files turn.file).ino data, Function.update v.files turn.file f⟩
  | .error _ => v

/-- No call leaves a gap in a file that does not compress. -/
def Gapless (packed : ℕ → Bool) : List Turn → Shelf → Prop
  | [], _ => True
  | turn :: rest, v =>
    (packed (v.files turn.file).ino = true ∨
      turn.call.Gapless (v.files turn.file) (v.bytes (v.files turn.file).ino)) ∧ Gapless packed rest (v.next turn)

end Shelf

instance (f : File) (data : Bytes) (call : FileCall) : Decidable (call.Gapless f data) := by
  cases call <;> unfold FileCall.Gapless <;> infer_instance

instance Shelf.decidableGapless (packed : ℕ → Bool) : ∀ (log : List Turn) (v : Shelf), Decidable (v.Gapless packed log)
  | [], _ => isTrue trivial
  | turn :: rest, v =>
    haveI := decidableGapless packed rest (v.next turn)
    inferInstanceAs (Decidable ((packed (v.files turn.file).ino = true ∨
      turn.call.Gapless (v.files turn.file) (v.bytes (v.files turn.file).ino)) ∧ Gapless packed rest (v.next turn)))

theorem turns_of_play : ∀ {acts : List (ℕ × FileCall)} {files files' : ℕ → File} {s t : Inner} {log : List Turn},
    Turn.play acts files s = .ok (log, files') t → Turns s files log t files'
  | [], files, files', s, t, log, h => by
    cases h
    exact .nil s files
  | (k, call) :: rest, files, files', s, t, log, h => by
    unfold Turn.play at h
    obtain ⟨r, u, hcall, h⟩ := Exec.bind_ok_iff.mp h
    obtain ⟨later, v, hlater, h⟩ := Exec.bind_ok_iff.mp h
    cases h
    exact .done hcall (turns_of_play hlater)

theorem of_map_ok {ε α β : Type} {x : Except ε α} {g : α → β} {b : β} (h : x.map g = .ok b) :
    ∃ a, x = .ok a ∧ g a = b := by
  cases x with
  | error e => cases h
  | ok a =>
    cases h
    exact ⟨a, rfl, rfl⟩

/-- A call leaves the file on its inode, with its flags. -/
theorem FileCall.act_ino {call : FileCall} {f f' : File} {data data' : Bytes} {answer : FileAnswer}
    (h : call.act f data = .ok (answer, f', data')) : f'.ino = f.ino ∧ f'.flags = f.flags := by
  cases call with
  | read count | readAt count offset =>
    simp only [act] at h
    by_cases hreads : f.readable = true
    · rw [if_pos hreads] at h
      cases h
      exact ⟨rfl, rfl⟩
    · rw [if_neg hreads] at h
      cases h
  | seek target =>
    simp only [act] at h
    by_cases hneg : target.sum f.pos data.length < 0
    · rw [if_pos hneg] at h
      cases h
    · rw [if_neg hneg] at h
      cases h
      exact ⟨rfl, rfl⟩
  | write buf | writeAt buf offset =>
    simp only [act] at h
    by_cases hwrites : f.writable = true
    · rw [if_pos hwrites] at h
      obtain ⟨new, -, hnew⟩ := of_map_ok h
      cases hnew
      exact ⟨rfl, rfl⟩
    · rw [if_neg hwrites] at h
      cases h
  | setLen size =>
    simp only [act] at h
    by_cases hwrites : f.writable = true
    · rw [if_pos hwrites] at h
      by_cases hlarge : maxFileSize < size
      · rw [if_pos hlarge] at h
        cases h
      · rw [if_neg hlarge] at h
        cases h
        exact ⟨rfl, rfl⟩
    · rw [if_neg hwrites] at h
      cases h

namespace Inner

variable {s t : Inner} {files files' : ℕ → File} {packed : ℕ → Bool} {log : List Turn} {i : Inode} {k ino : ℕ}

/-- What the open files show. -/
def shelf (s : Inner) (files : ℕ → File) : Shelf := ⟨s.contents, files⟩

/-- A file that has just been made is an array. -/
theorem arrayLike_of_empty (h : s.Sound) (hmem : s.inodes.find? k = some i) (hsize : i.size = 0)
    (hkind : i.dataKind = .inline) (huses : i.usesCompression = true → i.compression ≠ 0)
    (hpacked : packed k = i.usesCompression) : s.ArrayLike packed k := by
  refine ⟨i, hmem, ?_⟩
  rw [hpacked]
  by_cases hcomp : i.usesCompression = true
  · rw [if_pos hcomp]
    refine ⟨huses hcomp, fun p hp ↦ ⟨?_, storedByte_inline (h.wf hmem) hkind p⟩⟩
    rw [fileByte_inline hkind]
    apply List.getD_eq_default
    rw [h.inline k i hmem hkind]
    exact hp
  · rw [if_neg hcomp]
    rw [Bool.not_eq_true] at hcomp
    refine ⟨hcomp, fun _ ↦ by rw [hsize]; exact Nat.zero_le _, fun hne ↦ absurd hkind hne⟩

/-- Each call is made on an array, and leaves one. -/
theorem turns_play (hrun : Turns s files log t files') : s.Sound → s.writable = true →
    (∀ turn ∈ log, s.ArrayLike packed (files turn.file).ino) → Shelf.Gapless packed log (s.shelf files) →
    (s.shelf files).Plays log (t.shelf files') ∧ t.Sound ∧
      ∀ k, s.ArrayLike packed k → t.ArrayLike packed k := by
  induction hrun with
  | nil s files => exact fun h _ _ _ ↦ ⟨.nil _, h, fun _ hk ↦ hk⟩
  | @done s t u files files' k call answer f rest h hrest ih =>
    intro hs hwritable hlike hgap
    have hacts := FileCall.exec_acts hs hwritable (hlike _ List.mem_cons_self) call hgap.1
    obtain ⟨data, hact, hshown⟩ := hacts.of_ok h
    have hino := (FileCall.act_ino hact).1
    have hnext : (s.shelf files).next ⟨k, call, .ok answer⟩ = t.shelf (Function.update files k f) := by
      unfold Shelf.next shelf
      dsimp only
      rw [hact, hshown.contents]
    have hfiles : ∀ j, (Function.update files k f j).ino = (files j).ino := by
      intro j
      by_cases hj : j = k
      · rw [hj, Function.update_self, hino]
      · rw [Function.update_of_ne hj]
    have hgap' := hgap.2
    rw [hnext] at hgap'
    obtain ⟨hplays, hu, harrays⟩ := ih hshown.sound (by rw [hshown.shell.writable, hwritable])
      (fun turn hturn ↦ by
        rw [hfiles]
        exact hshown.arrays _ (hlike turn (List.mem_cons_of_mem _ hturn))) hgap'
    refine ⟨.done hact ?_, hu, fun j hj ↦ harrays j (hshown.arrays j hj)⟩
    rw [shelf, hshown.contents] at hplays
    exact hplays
  | @failed s t u files files' k call e rest h hhost hrest ih =>
    intro hs hwritable hlike hgap
    have hacts := FileCall.exec_acts hs hwritable (hlike _ List.mem_cons_self) call hgap.1
    obtain ⟨hact, hshown⟩ := (hacts.of_err h).resolve_left hhost
    have hcontents : t.contents = s.contents := by rw [hshown.contents, Function.update_eq_self]
    have hnext : (s.shelf files).next ⟨k, call, .error e⟩ = t.shelf files := by
      unfold Shelf.next shelf
      dsimp only
      rw [hact, hcontents]
    have hgap' := hgap.2
    rw [hnext] at hgap'
    obtain ⟨hplays, hu, harrays⟩ := ih hshown.sound (by rw [hshown.shell.writable, hwritable])
      (fun turn hturn ↦ hshown.arrays _ (hlike turn (List.mem_cons_of_mem _ hturn))) hgap'
    refine ⟨.failed hact ?_, hu, fun j hj ↦ harrays j (hshown.arrays j hj)⟩
    rw [shelf, hcontents] at hplays
    exact hplays

/-- One file opened to read and write, all others to append to the same inode. -/
def sharedFiles (k : ℕ) : File := if k = 0 then ⟨2, oRdwr, 0⟩ else ⟨2, oWronly ||| oAppend, 0⟩

/-- The inode is empty, and the calls all return. -/
def sharedTest (acts : List (ℕ × FileCall)) (s : Inner) (test : List Turn → Bool) : Bool :=
  (s.inodes.find? 2).any (fun i ↦ decide (i.size = 0 ∧ i.dataKind = .inline) && !i.usesCompression) &&
    (Turn.play acts sharedFiles s).okAnd fun r _ ↦ test r.1

theorem sharedTest_runs {acts : List (ℕ × FileCall)} {test : List Turn → Bool} (hs : s.Reached)
    (h : sharedTest acts s test = true) : s.ArrayLike (fun _ ↦ false) 2 ∧
      ∃ log t files', Turns s sharedFiles log t files' ∧ test log = true := by
  unfold sharedTest at h
  rw [Bool.and_eq_true] at h
  obtain ⟨i, hi, hempty⟩ := (Option.any_eq_true ..).mp h.1
  rw [Bool.and_eq_true, Bool.not_eq_true'] at hempty
  obtain ⟨hsize, hkind⟩ := of_decide_eq_true hempty.1
  obtain ⟨r, t, hplay, htest⟩ := Outcome.exists_of_okAnd h.2
  refine ⟨arrayLike_of_empty hs.tidy.sound hi hsize hkind ?_ hempty.2.symm, r.1, t, r.2, turns_of_play hplay, htest⟩
  intro huses
  rw [hempty.2] at huses
  cases huses

/-- A new file. -/
def oneFile : List Operation := [.createChild rootIno [0x61] (sIfreg ||| 0o644) 0 0 0 Creds.root]

end Inner

/-! ## Appending -/

theorem File.target_of_append {f : File} (h : f.flags &&& oAppend ≠ 0) (data : Bytes) : f.target data = data.length :=
  if_pos h

namespace FileCall

variable {call : FileCall} {f f' : File} {data data' : Bytes} {answer : FileAnswer}

/-- The call appends to its file or leaves the bytes alone. -/
def Appends (f : File) : FileCall → Prop
  | write _ => f.flags &&& oAppend ≠ 0
  | writeAt _ _ | setLen _ => False
  | _ => True

instance (f : File) (call : FileCall) : Decidable (call.Appends f) := by
  cases call <;> unfold Appends <;> infer_instance

/-- The bytes the call is given. -/
def buffer : FileCall → Bytes
  | write buf | writeAt buf _ => buf
  | _ => []

theorem Appends.congr (h : call.Appends f) (hflags : f'.flags = f.flags) : call.Appends f' := by
  cases call with
  | write buf =>
    unfold Appends at h ⊢
    rwa [hflags]
  | writeAt buf offset => exact h
  | setLen size => exact h
  | read count => exact trivial
  | seek target => exact trivial
  | readAt count offset => exact trivial

theorem Appends.gapless (h : call.Appends f) (data : Bytes) : call.Gapless f data := by
  cases call with
  | write buf =>
    change f.target data ≤ data.length
    rw [File.target_of_append h]
  | writeAt buf offset => exact h.elim
  | setLen size => exact h.elim
  | read count => exact trivial
  | seek target => exact trivial
  | readAt count offset => exact trivial

theorem write_end (data buf : Bytes) : PlainFile.write 0 data data.length buf = data ++ buf := by
  unfold PlainFile.write
  rw [Nat.sub_self, List.replicate_zero, List.append_nil, List.take_length, List.drop_eq_nil_of_le (by omega),
    List.append_nil]

/-- The bytes come behind those that are there. -/
theorem Appends.act_eq (h : call.Appends f) (hact : call.act f data = .ok (answer, f', data')) :
    data' = data ++ call.buffer := by
  cases call with
  | write buf =>
    simp only [act] at hact
    by_cases hwrites : f.writable = true
    · rw [if_pos hwrites] at hact
      obtain ⟨new, hnew, heq⟩ := of_map_ok hact
      cases heq
      rw [File.target_of_append h] at hnew
      change data' = data ++ buf
      unfold stored at hnew
      split_ifs at hnew with hnil hlarge
      · cases hnew
        rw [hnil, List.append_nil]
      · cases hnew
        exact write_end data buf
    · rw [if_neg hwrites] at hact
      cases hact
  | writeAt buf offset => exact h.elim
  | setLen size => exact h.elim
  | read count | readAt count offset =>
    simp only [act] at hact
    change data' = data ++ []
    rw [List.append_nil]
    by_cases hreads : f.readable = true
    · rw [if_pos hreads] at hact
      cases hact
      rfl
    · rw [if_neg hreads] at hact
      cases hact
  | seek target =>
    simp only [act] at hact
    change data' = data ++ []
    rw [List.append_nil]
    by_cases hneg : target.sum f.pos data.length < 0
    · rw [if_pos hneg] at hact
      cases hact
    · rw [if_neg hneg] at hact
      cases hact
      rfl

end FileCall

/-- The bytes the call has added. -/
def Turn.added (turn : Turn) : Bytes :=
  match turn.answer with
  | .ok _ => turn.call.buffer
  | .error _ => []

namespace Shelf

variable {v w : Shelf} {log : List Turn} {ino : ℕ}

theorem next_file (v : Shelf) (turn : Turn) (k : ℕ) :
    ((v.next turn).files k).ino = (v.files k).ino ∧ ((v.next turn).files k).flags = (v.files k).flags := by
  unfold next
  cases hact : turn.call.act (v.files turn.file) (v.bytes (v.files turn.file).ino) with
  | error e => exact ⟨rfl, rfl⟩
  | ok r =>
    have hkeeps := FileCall.act_ino hact
    dsimp only
    by_cases hk : k = turn.file
    · rw [hk, Function.update_self]
      exact hkeeps
    · rw [Function.update_of_ne hk]
      exact ⟨rfl, rfl⟩

theorem gapless_of_appends (packed : ℕ → Bool) : ∀ (log : List Turn) (v : Shelf),
    (∀ turn ∈ log, turn.call.Appends (v.files turn.file)) → Gapless packed log v
  | [], _, _ => trivial
  | turn :: rest, v, h => by
    refine ⟨Or.inr ((h turn List.mem_cons_self).gapless _), gapless_of_appends packed rest (v.next turn) ?_⟩
    intro later hlater
    exact (h later (List.mem_cons_of_mem _ hlater)).congr (next_file v turn later.file).2

/-- The buffers of the calls stand behind each other, in the order of the calls. -/
theorem Plays.appends (hplays : v.Plays log w) :
    (∀ turn ∈ log, (v.files turn.file).ino = ino ∧ turn.call.Appends (v.files turn.file)) →
    w.bytes ino = v.bytes ino ++ (log.map Turn.added).flatten := by
  induction hplays with
  | nil v => exact fun _ ↦ (List.append_nil _).symm
  | @done v w k call answer f data rest hact hrest ih =>
    intro hlog
    obtain ⟨hino, happends⟩ := hlog _ List.mem_cons_self
    dsimp only at hino happends
    have hkeeps := FileCall.act_ino hact
    have hrest' := ih fun turn hturn ↦ by
      obtain ⟨hturnIno, hturnAppends⟩ := hlog turn (List.mem_cons_of_mem _ hturn)
      dsimp only
      by_cases hk : turn.file = k
      · rw [hk, Function.update_self]
        rw [hk] at hturnIno hturnAppends
        exact ⟨hkeeps.1.trans hturnIno, hturnAppends.congr hkeeps.2⟩
      · rw [Function.update_of_ne hk]
        exact ⟨hturnIno, hturnAppends⟩
    rw [hrest', hino]
    dsimp only
    rw [Function.update_self, happends.act_eq hact, hino, List.map_cons, List.flatten_cons, List.append_assoc]
    rfl
  | @failed v w k call e rest hact hrest ih =>
    intro hlog
    rw [ih fun turn hturn ↦ hlog turn (List.mem_cons_of_mem _ hturn)]
    rfl

/-- A write that returns has written its whole buffer. -/
theorem Plays.counts (hplays : v.Plays log w) : ∀ turn ∈ log, ∀ buf answer, turn.call = .write buf →
    turn.answer = .ok answer → answer = .count buf.length := by
  induction hplays with
  | nil v => exact fun turn hturn ↦ absurd hturn List.not_mem_nil
  | @done v w k call told f data rest hact hrest ih =>
    intro turn hturn buf answer hcall hanswer
    rcases List.mem_cons.mp hturn with heq | hturn
    · rw [heq] at hcall hanswer
      cases hanswer
      dsimp only at hcall
      rw [hcall] at hact
      simp only [FileCall.act] at hact
      by_cases hwrites : (v.files k).writable = true
      · rw [if_pos hwrites] at hact
        obtain ⟨new, -, hnew⟩ := of_map_ok hact
        cases hnew
        rfl
      · rw [if_neg hwrites] at hact
        cases hact
    · exact ih turn hturn buf answer hcall hanswer
  | @failed v w k call e rest hact hrest ih =>
    intro turn hturn buf answer hcall hanswer
    rcases List.mem_cons.mp hturn with heq | hturn
    · rw [heq] at hanswer
      cases hanswer
    · exact ih turn hturn buf answer hcall hanswer

end Shelf

namespace Inner

variable {s t : Inner} {files files' : ℕ → File} {packed : ℕ → Bool} {log : List Turn} {ino : ℕ}

/-- However many open files append to an inode, and in whatever order: each buffer stands in the file as a whole,
behind those of the calls before it, and nothing that was there is lost. -/
theorem appends_all_stay (hs : s.Reached) (hlike : s.ArrayLike packed ino)
    (hlog : ∀ turn ∈ log, (files turn.file).ino = ino ∧ turn.call.Appends (files turn.file))
    (hrun : Turns s files log t files') :
    t.contents ino = s.contents ino ++ (log.map Turn.added).flatten ∧
      ∀ turn ∈ log, ∀ buf answer, turn.call = .write buf → turn.answer = .ok answer → answer = .count buf.length := by
  have hgap : Shelf.Gapless packed log (s.shelf files) :=
    Shelf.gapless_of_appends packed log (s.shelf files) fun turn hturn ↦ (hlog turn hturn).2
  have hplays := (turns_play hrun hs.tidy.sound hs.tidy.writable (fun turn hturn ↦ by
    rw [(hlog turn hturn).1]
    exact hlike) hgap).1
  exact ⟨hplays.appends hlog, hplays.counts⟩

/-- Two open files append in turn; one of them has been moved back to the start in between. -/
def appendCalls : List (ℕ × FileCall) :=
  [(1, .write [1, 2]), (2, .write [3]), (1, .seek (.start 0)), (1, .write [4])]

theorem appends_all_stay_shared : ∃ s log t files', s.Reached ∧ Turns s sharedFiles log t files' ∧
    t.contents 2 = s.contents 2 ++ (log.map Turn.added).flatten ∧ (log.map Turn.added).flatten = [1, 2, 3, 4] := by
  have hplay : (sampleCalls oneFile).okAnd (fun calls s ↦ (calls.all fun call ↦ call.2.regular call.1) &&
      sharedTest appendCalls s fun log ↦ decide ((log.map Turn.added).flatten = [1, 2, 3, 4]) &&
        log.all fun turn ↦ decide ((sharedFiles turn.file).ino = 2 ∧ turn.call.Appends (sharedFiles turn.file))) =
        true := by
    decide +kernel
  obtain ⟨-, -, s, -, -, -, hs, htest⟩ := sampleCalls_reached hplay
  obtain ⟨hlike, log, t, files', hrun, hlog⟩ := sharedTest_runs hs htest
  rw [Bool.and_eq_true] at hlog
  have happends := fun turn hturn ↦ of_decide_eq_true (List.all_eq_true.mp hlog.2 turn hturn)
  exact ⟨s, log, t, files', hs, hrun, (appends_all_stay hs hlike happends hrun).1, of_decide_eq_true hlog.1⟩

end Inner

end LinuxFile
