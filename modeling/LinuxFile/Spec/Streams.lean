import LinuxFile.Spec.RawFiles
import LinuxFile.Spec.Solid
import LinuxFile.Streams

/-!
# Open files as arrays with positions

To its users a file is an array of bytes, and an open file is a position in it. A read gives the bytes at the
position, a write changes them and fills with zeros what lies between the end and the position, a file opened to append
is written at its end.
-/

namespace LinuxFile

/-- The bytes of each inode, and the open files. -/
structure Shelf where
  bytes : ℕ → Bytes
  files : ℕ → File

/-- Write into an array, which can only grow to the size of the largest file. -/
def stored (data : Bytes) (off : ℕ) (buf : Bytes) : Except Error Bytes :=
  if buf = [] then .ok data
  else if maxFileSize < off + buf.length then .error (Error.fromErrno Error.EFBIG)
  else .ok (PlainFile.write 0 data off buf)

/-- Where a write through the file goes. -/
def File.target (f : File) (data : Bytes) : ℕ := if f.flags &&& oAppend ≠ 0 then data.length else f.pos

namespace FileCall

/-- The call on an array: its answer, the file behind it, and the array behind it. -/
def act (f : File) (data : Bytes) : FileCall → Except Error (FileAnswer × File × Bytes)
  | read count =>
    if f.readable = true then
      .ok (.bytes (PlainFile.read data f.pos count),
        { f with pos := f.pos + (PlainFile.read data f.pos count).length }, data)
    else .error Error.ebadf
  | write buf =>
    if f.writable = true then
      (stored data (f.target data) buf).map fun data' ↦
        (.count buf.length, { f with pos := f.target data + buf.length }, data')
    else .error Error.ebadf
  | seek target =>
    if target.sum f.pos data.length < 0 then .error (Error.einval "negative seek")
    else .ok (.count ((target.sum f.pos data.length).toNat % 2 ^ 64),
      { f with pos := (target.sum f.pos data.length).toNat % 2 ^ 64 }, data)
  | readAt count offset =>
    if f.readable = true then .ok (.bytes (PlainFile.read data offset count), f, data) else .error Error.ebadf
  | writeAt buf offset =>
    if f.writable = true then (stored data offset buf).map fun data' ↦ (.count buf.length, f, data')
    else .error Error.ebadf
  | setLen size =>
    if f.writable = true then
      if maxFileSize < size then .error (Error.fromErrno Error.EFBIG)
      else .ok (.done, f, PlainFile.truncate 0 data size)
    else .error Error.ebadf

/-- The call leaves no gap behind the end of the array. -/
def Gapless (f : File) (data : Bytes) : FileCall → Prop
  | write _ => f.target data ≤ data.length
  | writeAt _ offset => offset ≤ data.length
  | setLen size => size ≤ data.length
  | _ => True

end FileCall

namespace Shelf

/-- Calls on the arrays one after another, with their answers. -/
inductive Plays : Shelf → List Turn → Shelf → Prop
  | nil (v : Shelf) : Plays v [] v
  | done {v w : Shelf} {k : ℕ} {call : FileCall} {answer : FileAnswer} {f : File} {data : Bytes} {rest : List Turn}
      (h : call.act (v.files k) (v.bytes (v.files k).ino) = .ok (answer, f, data))
      (hrest : Plays ⟨Function.update v.bytes (v.files k).ino data, Function.update v.files k f⟩ rest w) :
      Plays v (⟨k, call, .ok answer⟩ :: rest) w
  | failed {v w : Shelf} {k : ℕ} {call : FileCall} {e : Error} {rest : List Turn}
      (h : call.act (v.files k) (v.bytes (v.files k).ino) = .error e) (hrest : Plays v rest w) :
      Plays v (⟨k, call, .error e⟩ :: rest) w

end Shelf

namespace Inner

variable {s t : Inner} {i i' : Inode} {ino k off n : ℕ} {buf : Bytes} {packed : ℕ → Bool}

/-- The bytes of the file are an array: either it compresses, and what is stored behind its end is blank, or it does
not, and each of its bytes has a place. -/
def ArrayLike (s : Inner) (packed : ℕ → Bool) (k : ℕ) : Prop :=
  ∃ i, s.inodes.find? k = some i ∧ if packed k = true then i.compression ≠ 0 ∧ s.BlankEnd k i else i.Solid

/-- The inode has the given bytes, and what was an array is one. -/
structure Shown (s : Inner) (packed : ℕ → Bool) (ino : ℕ) (data : Bytes) (t : Inner) : Prop where
  sound : t.Sound
  shell : SameShell s t
  contents : t.contents = Function.update s.contents ino data
  arrays : ∀ k, s.ArrayLike packed k → t.ArrayLike packed k

theorem SameData.compression (h : SameData s k i t i') : i'.compression = i.compression := by
  rcases h.stowed with heq | ⟨hstowed, -⟩
  · rw [heq]
  · rw [hstowed.same]

/-- A file that has kept its bytes is an array as before. -/
theorem SameData.arrayLike (h : SameData s k i t i') (hmem : s.inodes.find? k = some i)
    (hmem' : t.inodes.find? k = some i') (hlike : s.ArrayLike packed k) : t.ArrayLike packed k := by
  obtain ⟨j, hj, hlike⟩ := hlike
  rw [hmem] at hj
  cases hj
  refine ⟨i', hmem', ?_⟩
  by_cases hpacked : packed k = true
  · rw [if_pos hpacked] at hlike ⊢
    exact ⟨by rw [h.compression]; exact hlike.1, h.blankEnd hlike.2⟩
  · rw [if_neg hpacked] at hlike ⊢
    have hsame : i' = i := h.stowed.resolve_right fun hst ↦ by
      rw [hlike.raw] at hst
      cases hst.2.1
    rw [hsame]
    exact hlike

theorem SameFiles.shown (h : SameFiles s t) (ht : t.Sound) (packed : ℕ → Bool) (ino : ℕ) :
    s.Shown packed ino (s.contents ino) t where
  sound := ht
  shell := h.shell
  contents := by
    rw [Function.update_eq_self]
    funext k
    exact h.contents k
  arrays k hlike := by
    obtain ⟨i, hi, -⟩ := id hlike
    obtain ⟨i', hi', hdata⟩ := h.some k i hi
    exact hdata.arrayLike hi hi' hlike

theorem Sound.shown (h : s.Sound) (packed : ℕ → Bool) (ino : ℕ) : s.Shown packed ino (s.contents ino) s :=
  (SameFiles.refl s).shown h packed ino

/-- Only one inode has been changed, and it is an array still. -/
theorem Edited.shown (h : Edited s ino t) (hlike : t.ArrayLike packed ino) : s.Shown packed ino (t.contents ino) t where
  sound := h.sound
  shell := h.shell
  contents := by
    funext k
    by_cases hk : k = ino
    · rw [hk, Function.update_self]
    · rw [Function.update_of_ne hk]
      exact h.contents hk
  arrays k hold := by
    by_cases hk : k = ino
    · rw [hk]
      exact hlike
    · obtain ⟨i, hi, -⟩ := id hold
      obtain ⟨i', hi', hdata⟩ := h.others k i hk hi
      exact hdata.arrayLike hi hi' hold

theorem usesCompression_of_ne (h : i.compression ≠ 0) : i.usesCompression = true := by
  unfold Inode.usesCompression
  rw [Bool.or_eq_true, bne_iff_ne]
  exact Or.inl h

theorem Calm.compression (h : Calm s t) (hmem : s.inodes.find? ino = some i) (hmem' : t.inodes.find? ino = some i') :
    i'.compression = i.compression := by
  obtain ⟨j, hj, hsame⟩ := h.inodes ino i hmem
  rw [hmem'] at hj
  cases hj
  exact hsame.compression

/-! ## Calls on an inode -/

theorem readData_shown (h : s.Sound) (hlike : s.ArrayLike packed ino) (off count : ℕ) :
    (readData ino off count).Holds s
      (fun data t ↦ data = PlainFile.read (s.contents ino) off count ∧ s.Shown packed ino (s.contents ino) t)
      (fun e _ ↦ e.IsHost) := by
  obtain ⟨i, hmem, -⟩ := hlike
  refine (readData_contents h hmem off count).mono ?_ (fun _ _ he ↦ he)
  intro data t ht
  exact ⟨ht.1, ht.2.2.shown ht.2.1 packed ino⟩

/-- A write that leaves no gap, or that is to a file that compresses, changes the array as it should. -/
theorem writeData_shown (h : s.Sound) (hwritable : s.writable = true) (hlike : s.ArrayLike packed ino)
    (hgap : packed ino = true ∨ off ≤ (s.contents ino).length) (buf : Bytes) :
    (writeData ino off buf).Holds s
      (fun w t ↦ ∃ data, stored (s.contents ino) off buf = .ok data ∧ w = buf.length ∧ s.Shown packed ino data t)
      (fun e t ↦ e.IsHost ∨ stored (s.contents ino) off buf = .error e ∧ t = s) := by
  obtain ⟨i, hmem, hi⟩ := id hlike
  unfold stored
  by_cases hne : buf = []
  · unfold writeData
    rw [Exec.holds_bind_of_ok (requireWrite_ok hwritable), if_pos hne, if_pos hne]
    exact ⟨_, rfl, by rw [hne]; rfl, h.shown packed ino⟩
  rw [if_neg hne]
  by_cases hlarge : maxFileSize < off + buf.length
  · unfold writeData
    rw [Exec.holds_bind_of_ok (requireWrite_ok hwritable), if_neg hne, if_pos hlarge, if_pos hlarge]
    exact Or.inr ⟨rfl, rfl⟩
  rw [if_neg hlarge]
  have hstop : off + buf.length ≤ maxFileSize := Nat.not_lt.mp hlarge
  rw [length_contents hmem] at hgap
  by_cases hpacked : packed ino = true
  · rw [if_pos hpacked] at hi
    have hspared : ∀ p, Spared i off buf.length p := by
      intro p
      unfold Spared
      have huses := usesCompression_of_ne hi.1
      split_ifs
      · exact Or.inr (Or.inl huses)
      · exact Or.inl huses
    refine ((writeData_writes h hwritable hmem hne hstop).and
      (writeData_calm ino off buf s)).mono ?_ (fun _ _ he ↦ Or.inl he.1)
    intro w t ht
    obtain ⟨⟨hw, i', hwritten⟩, hcalm⟩ := ht
    have hlike' : t.ArrayLike packed ino := by
      refine ⟨i', hwritten.find, ?_⟩
      rw [if_pos hpacked, hcalm.compression hmem hwritten.find]
      exact ⟨hi.1, hwritten.blankEnd hi.2 fun p _ ↦ hspared p⟩
    have hshown := hwritten.edited.shown hlike'
    rw [hwritten.contents_eq hmem hi.2 fun p _ ↦ hspared p] at hshown
    exact ⟨_, rfl, hw, hshown⟩
  · rw [if_neg hpacked] at hi
    have hoff := hgap.resolve_left hpacked
    refine ((writeData_writes h hwritable hmem hne hstop).and
      (writeData_solid h hwritable hmem hi hne hstop hoff)).mono ?_ (fun _ _ he ↦ Or.inl he.1)
    intro w t ht
    obtain ⟨⟨hw, i', hwritten⟩, j, hj, hsolid⟩ := ht
    have hlike' : t.ArrayLike packed ino := ⟨j, hj, by rwa [if_neg hpacked]⟩
    have hshown := hwritten.edited.shown hlike'
    rw [hwritten.write_eq hmem hoff fun p hp ↦ h.spared hmem hi off buf.length hp] at hshown
    exact ⟨_, rfl, hw, hshown⟩

/-- A truncation changes the array as it should, if it does not make a file longer that does not compress. -/
theorem truncateData_shown (h : s.Sound) (hwritable : s.writable = true) (hlike : s.ArrayLike packed ino)
    (hgap : packed ino = true ∨ n ≤ (s.contents ino).length) :
    (truncateData ino n).Holds s
      (fun _ t ↦ n ≤ maxFileSize ∧ s.Shown packed ino (PlainFile.truncate 0 (s.contents ino) n) t)
      (fun e t ↦ e.IsHost ∨ maxFileSize < n ∧ e = Error.fromErrno Error.EFBIG ∧ t = s) := by
  obtain ⟨i, hmem, hi⟩ := id hlike
  by_cases hlarge : maxFileSize < n
  · unfold truncateData
    rw [Exec.holds_bind_of_ok (requireWrite_ok hwritable), if_pos hlarge]
    exact Or.inr ⟨hlarge, rfl, rfl⟩
  have hn : n ≤ maxFileSize := Nat.not_lt.mp hlarge
  rw [length_contents hmem] at hgap
  by_cases hpacked : packed ino = true
  · rw [if_pos hpacked] at hi
    refine ((truncateData_cuts h hwritable hmem hn).and (truncateData_calm ino n s)).mono ?_
      (fun _ _ he ↦ Or.inl he.1)
    intro _ t ht
    obtain ⟨⟨i', hcut⟩, hcalm⟩ := ht
    have hlike' : t.ArrayLike packed ino := by
      refine ⟨i', hcut.find, ?_⟩
      rw [if_pos hpacked, hcalm.compression hmem hcut.find]
      exact ⟨hi.1, hcut.blankEnd hi.2 fun _ _ _ ↦ Or.inl (usesCompression_of_ne hi.1)⟩
    have hshown := hcut.edited.shown hlike'
    rw [hcut.contents_eq hmem hi.2] at hshown
    exact ⟨hn, hshown⟩
  · rw [if_neg hpacked] at hi
    have hle := hgap.resolve_left hpacked
    refine (((truncateData_cuts h hwritable hmem hn).and (truncateData_solid h hwritable hmem hi hle)).and
      (truncateData_keepsRaw (k := ino) ino n s)).mono ?_ (fun _ _ he ↦ Or.inl he.1.1)
    intro _ t ht
    obtain ⟨⟨⟨i', hcut⟩, hsolid⟩, hkeeps⟩ := ht
    obtain ⟨j, hj, hraw⟩ := hkeeps ⟨i, hmem, hi.raw⟩
    rw [hcut.find] at hj
    cases hj
    have hlike' : t.ArrayLike packed ino := by
      refine ⟨i', hcut.find, ?_⟩
      rw [if_neg hpacked]
      exact hsolid i' hcut.find hcut.size hraw
    have hshown := hcut.edited.shown hlike'
    rw [hcut.truncate_eq hmem hle] at hshown
    exact ⟨hn, hshown⟩

end Inner

/-! ## Calls on an open file -/

namespace FileCall

open LinuxFile.Inner

variable {s t : Inner} {packed : ℕ → Bool} {f f' : File} {data data' : Bytes} {answer : FileAnswer}

/-- A call does to the array of its file what it should, or it fails and leaves it. -/
def Acts (call : FileCall) (f : File) (packed : ℕ → Bool) (s : Inner) : Prop :=
  (call.exec f).Holds s
    (fun r t ↦ ∃ data, call.act f (s.contents f.ino) = .ok (r.1, r.2, data) ∧ s.Shown packed f.ino data t)
    (fun e t ↦ e.IsHost ∨ call.act f (s.contents f.ino) = .error e ∧ s.Shown packed f.ino (s.contents f.ino) t)

section Calls

variable (h : s.Sound) (hwritable : s.writable = true) (hlike : s.ArrayLike packed f.ino)

include h hlike

theorem read_acts (count : ℕ) : (read count).Acts f packed s := by
  unfold Acts exec act File.read File.requireRead
  by_cases hreads : f.readable = true
  · simp only [if_pos hreads]
    rw [Exec.holds_bind, Exec.holds_bind, Exec.holds_pure, Exec.holds_bind]
    refine (readData_shown h hlike f.pos count).mono ?_ (fun _ _ he ↦ Or.inl he)
    intro part t ht
    rw [Exec.holds_bind]
    refine holds_addU64 fun _ ↦ ?_
    rw [ht.1]
    exact ⟨_, rfl, ht.2⟩
  · simp only [if_neg hreads]
    exact Or.inr ⟨rfl, h.shown packed f.ino⟩

theorem readAt_acts (count offset : ℕ) : (readAt count offset).Acts f packed s := by
  unfold Acts exec act File.readAt File.requireRead
  by_cases hreads : f.readable = true
  · simp only [if_pos hreads]
    rw [Exec.holds_bind, Exec.holds_bind, Exec.holds_pure]
    refine (readData_shown h hlike offset count).mono ?_ (fun _ _ he ↦ Or.inl he)
    intro part t ht
    rw [ht.1]
    exact ⟨_, rfl, ht.2⟩
  · simp only [if_neg hreads]
    exact Or.inr ⟨rfl, h.shown packed f.ino⟩

theorem seek_acts (target : SeekFrom) : (seek target).Acts f packed s := by
  obtain ⟨i, hmem, -⟩ := id hlike
  unfold Acts exec act File.seek
  rw [length_contents hmem, Exec.holds_bind, Exec.holds_bind_of_ok (getInode_mem hmem)]
  dsimp only
  by_cases hneg : target.sum f.pos i.size < 0
  · simp only [if_pos hneg]
    exact Or.inr ⟨rfl, h.shown packed f.ino⟩
  · simp only [if_neg hneg]
    exact ⟨_, rfl, h.shown packed f.ino⟩

include hwritable

theorem writeAt_acts (buf : Bytes) (offset : ℕ)
    (hgap : packed f.ino = true ∨ (writeAt buf offset).Gapless f (s.contents f.ino)) :
    (writeAt buf offset).Acts f packed s := by
  unfold Acts exec act File.writeAt File.requireWrite
  by_cases hwrites : f.writable = true
  · simp only [if_pos hwrites]
    rw [Exec.holds_bind, Exec.holds_bind, Exec.holds_pure]
    refine (writeData_shown h hwritable hlike hgap buf).mono ?_ ?_
    · intro w t ht
      obtain ⟨data, hdata, hw, hshown⟩ := ht
      rw [hdata, hw]
      exact ⟨data, rfl, hshown⟩
    · intro e t he
      refine he.imp_right fun hfail ↦ ?_
      rw [hfail.1, hfail.2]
      exact ⟨rfl, h.shown packed f.ino⟩
  · simp only [if_neg hwrites]
    exact Or.inr ⟨rfl, h.shown packed f.ino⟩

theorem writeFrom_acts (off : ℕ) (buf : Bytes) (hgap : packed f.ino = true ∨ off ≤ (s.contents f.ino).length) :
    (do
      let w ← writeData f.ino off buf
      let pos ← addU64 off w
      pure (w, { f with pos := pos }) : Fs (ℕ × File)).Holds s
      (fun r t ↦ ∃ data, stored (s.contents f.ino) off buf = .ok data ∧
        r = (buf.length, { f with pos := off + buf.length }) ∧ s.Shown packed f.ino data t)
      (fun e t ↦ e.IsHost ∨ stored (s.contents f.ino) off buf = .error e ∧ t = s) := by
  refine (writeData_shown h hwritable hlike hgap buf).bind ?_ (fun _ _ he ↦ he)
  intro w t ht
  obtain ⟨data, hdata, hw, hshown⟩ := ht
  rw [Exec.holds_bind]
  refine holds_addU64 fun _ ↦ ?_
  rw [hw]
  exact ⟨data, hdata, rfl, hshown⟩

/-- The size of a file opened to append is read under the lock that the write is made under. -/
theorem write_acts (buf : Bytes) (hgap : packed f.ino = true ∨ (write buf).Gapless f (s.contents f.ino)) :
    (write buf).Acts f packed s := by
  obtain ⟨i, hmem, -⟩ := id hlike
  by_cases hwrites : f.writable = true
  · have hfrom := writeFrom_acts h hwritable hlike (f.target (s.contents f.ino)) buf hgap
    have hwrite : (f.write buf).Holds s
        (fun r t ↦ ∃ data, stored (s.contents f.ino) (f.target (s.contents f.ino)) buf = .ok data ∧
          r = (buf.length, { f with pos := f.target (s.contents f.ino) + buf.length }) ∧ s.Shown packed f.ino data t)
        (fun e t ↦ e.IsHost ∨ stored (s.contents f.ino) (f.target (s.contents f.ino)) buf = .error e ∧ t = s) := by
      have htarget : f.target (s.contents f.ino) = if f.flags &&& oAppend ≠ 0 then i.size else f.pos := by
        unfold File.target
        rw [length_contents hmem]
      unfold File.write File.requireWrite
      rw [if_pos hwrites, Exec.holds_bind, Exec.holds_pure]
      by_cases happend : f.flags &&& oAppend ≠ 0
      · rw [if_pos happend] at htarget ⊢
        rw [Exec.holds_bind_of_ok (getInode_mem hmem)]
        rw [htarget] at hfrom ⊢
        exact hfrom
      · rw [if_neg happend] at htarget ⊢
        rw [htarget] at hfrom ⊢
        exact hfrom
    unfold Acts exec act
    simp only [if_pos hwrites]
    refine hwrite.bind ?_ ?_
    · intro r t hr
      obtain ⟨data, hdata, heq, hshown⟩ := hr
      rw [hdata, heq]
      exact ⟨data, rfl, hshown⟩
    · intro e t he
      refine he.imp_right fun hfail ↦ ?_
      rw [hfail.1, hfail.2]
      exact ⟨rfl, h.shown packed f.ino⟩
  · unfold Acts exec act File.write File.requireWrite
    simp only [if_neg hwrites]
    exact Or.inr ⟨rfl, h.shown packed f.ino⟩

theorem setLen_acts (size : ℕ) (hgap : packed f.ino = true ∨ (setLen size).Gapless f (s.contents f.ino)) :
    (setLen size).Acts f packed s := by
  unfold Acts exec act File.setLen File.requireWrite
  by_cases hwrites : f.writable = true
  · simp only [if_pos hwrites]
    rw [Exec.holds_bind, Exec.holds_bind, Exec.holds_pure]
    refine (truncateData_shown h hwritable hlike hgap).mono ?_ ?_
    · intro _ t ht
      rw [if_neg (Nat.not_lt.mpr ht.1)]
      exact ⟨_, rfl, ht.2⟩
    · intro e t he
      refine he.imp_right fun hfail ↦ ?_
      obtain ⟨hlarge, he, ht⟩ := hfail
      rw [if_pos hlarge, he, ht]
      exact ⟨rfl, h.shown packed f.ino⟩
  · simp only [if_neg hwrites]
    exact Or.inr ⟨rfl, h.shown packed f.ino⟩

/-- Every call on an open file is what it is on an array with a position. -/
theorem exec_acts (call : FileCall) (hgap : packed f.ino = true ∨ call.Gapless f (s.contents f.ino)) :
    call.Acts f packed s := by
  cases call with
  | read count => exact read_acts h hlike count
  | write buf => exact write_acts h hwritable hlike buf hgap
  | seek target => exact seek_acts h hlike target
  | readAt count offset => exact readAt_acts h hlike count offset
  | writeAt buf offset => exact writeAt_acts h hwritable hlike buf offset hgap
  | setLen size => exact setLen_acts h hwritable hlike size hgap

end Calls

end FileCall

end LinuxFile
