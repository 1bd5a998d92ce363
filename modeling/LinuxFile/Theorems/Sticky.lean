import LinuxFile.Spec.Effects
import LinuxFile.Spec.TidyRuns
import LinuxFile.Theorems.Sample

/-!
# Sticky directories

In a sticky directory a user may not take away the names of what others own. `unlink` and the target of a
`rename` are checked; the directory a `rename` takes a name from is not, so it moves every name that the other
checks of `rename` let through.
-/

namespace LinuxFile

namespace Inner

variable {s t : Inner} {creds : Creds} {parent : ℕ} {name : Bytes} {entry : ℕ × FileType}

/-- The entry is in a sticky directory, checks are on, and the user owns neither the directory nor what the
entry names. -/
structure StickyEntry (s : Inner) (creds : Creds) (parent : ℕ) (name : Bytes) (entry : ℕ × FileType) : Prop where
  checked : s.checkPerm = true
  user : creds.isSuperuser = false
  found : s.node.lookup parent name = some entry
  owners : ∃ d c, s.node parent = some d ∧ s.node entry.1 = some c ∧ d.mode &&& sIsvtx ≠ 0 ∧
    creds.fsuid ≠ d.uid ∧ creds.fsuid ≠ c.uid

theorem StickyEntry.guarded (h : s.StickyEntry creds parent name entry) :
    s.node.Guarded s.checkPerm parent entry.1 creds := by
  obtain ⟨d, c, hd, hc, hsticky, hdir, hchild⟩ := h.owners
  refine ⟨h.checked, h.user, d, hd, hsticky, fun c' hc' ↦ ?_⟩
  rw [hc] at hc'
  cases hc'
  exact ⟨hdir, hchild⟩

/-- The calls that can take an entry out of a directory. -/
inductive Removal where
  | unlinkName (rmdir : Bool)
  | renameFrom (newParent : ℕ) (newName : Bytes)
  | renameOnto (oldParent : ℕ) (oldName : Bytes)

namespace Removal

def exec (parent : ℕ) (name : Bytes) (creds : Creds) : Removal → Fs Unit
  | unlinkName rmdir => Inner.unlinkName parent name rmdir creds
  | renameFrom newParent newName => rename parent name newParent newName creds
  | renameOnto oldParent oldName => rename oldParent oldName parent name creds

/-- The other directory of the call was given out. -/
def Known (s : Inner) : Removal → Prop
  | unlinkName _ => True
  | renameFrom other _ | renameOnto other _ => other < s.sb.nextInode

/-- The call has no way to succeed: a `rename` of the entry fails one of its other checks or finds that what it
would replace has no inode, and a `rename` onto the entry does not start from another name of the same inode. -/
def Barred (f : Nodes) (parent : ℕ) (name : Bytes) (creds : Creds) : Removal → Prop
  | unlinkName _ => True
  | renameFrom newParent newName => ∀ r, f.MayRename true parent name newParent newName creds r →
      ∃ src dest, r = .move src (some dest) ∧ f dest.1 = none
  | renameOnto oldParent oldName => ¬f.MayRename true oldParent oldName parent name creds .nothing

end Removal

/-- The call was answered with an error, and the entry is there. -/
def Refuses (x : Fs Unit) (s : Inner) (parent : ℕ) (name : Bytes) (entry : ℕ × FileType) : Prop :=
  ∃ e t, x s = .err e t ∧ t.node.lookup parent name = some entry

theorem Answers.refuses {x : Fs Unit} (h : Answers x s)
    (hx : Acts x s (fun _ _ ↦ False) (fun g ↦ g.lookup parent name = some entry)) :
    Refuses x s parent name entry := by
  rcases h with ⟨_, t, hok⟩ | ⟨e, t, herr, hhost⟩
  · exact absurd (Exec.Holds.of_ok hx hok).2 not_false
  · exact ⟨e, t, herr, ((Exec.Holds.of_err hx herr).resolve_left hhost).2⟩

theorem Answers.not_refuses {x : Fs Unit} (h : Answers x s)
    (hx : x.Holds s (fun _ _ ↦ True) (fun e t ↦ e.IsHost ∨ t.node.lookup parent name = none)) :
    ¬Refuses x s parent name entry := by
  rintro ⟨e, t, herr, hpresent⟩
  rcases h with ⟨_, u, hok⟩ | ⟨e', u, herr', hhost⟩
  · rw [herr] at hok
    cases hok
  · rw [herr] at herr'
    cases herr'
    have hgone := (hx.of_err herr).resolve_left hhost
    rw [hpresent] at hgone
    cases hgone

end Inner

namespace Nodes

variable {f : Nodes} {perm : Bool} {oldParent newParent : ℕ} {oldName newName : Bytes} {creds : Creds}
  {src : ℕ × FileType} {r r' : Inner.Renaming}

theorem MayReplace.unique (h : f.MayReplace perm newParent newName creds src r)
    (h' : f.MayReplace perm newParent newName creds src r') : r = r' := by
  cases h with
  | linked hdest hsame =>
    cases h' with
    | linked _ _ => rfl
    | fresh hdir hnone =>
      rw [lookup_of_dir hdir, hnone] at hdest
      cases hdest
    | replaces hother _ hmay =>
      rw [hmay.found] at hdest
      cases hdest
      exact absurd hsame hother
  | fresh hdir hnone =>
    have hfree : f.lookup newParent newName = none := by rw [lookup_of_dir hdir, hnone]
    cases h' with
    | linked hdest _ =>
      rw [hfree] at hdest
      cases hdest
    | fresh _ _ => rfl
    | replaces _ _ hmay =>
      have hfound := hmay.found
      rw [hfree] at hfound
      cases hfound
  | replaces hother hkind hmay =>
    have hfound := hmay.found
    cases h' with
    | linked hdest hsame =>
      rw [hdest] at hfound
      cases hfound
      exact absurd hsame hother
    | fresh hdir hnone =>
      rw [lookup_of_dir hdir, hnone] at hfound
      cases hfound
    | replaces _ _ hmay' =>
      rw [hmay'.found] at hfound
      cases hfound
      rfl

theorem MayRename.unique (h : f.MayRename perm oldParent oldName newParent newName creds r)
    (h' : f.MayRename perm oldParent oldName newParent newName creds r') : r = r' := by
  cases h with
  | same _ hsame =>
    cases h' with
    | same _ _ => rfl
    | proceeds _ hne _ _ => exact absurd hsame hne
  | proceeds h hne _ hr =>
    cases h' with
    | same _ hsame => exact absurd hsame hne
    | proceeds h' _ _ hr' =>
      rw [h.src_eq h'] at hr
      exact hr.unique hr'

end Nodes

namespace Inner

variable {s t : Inner} {creds : Creds} {parent : ℕ} {name : Bytes} {entry : ℕ × FileType}

theorem StickyEntry.not_mayUnlink (h : s.StickyEntry creds parent name entry) {rmdir : Bool}
    {entry' : ℕ × FileType} : ¬s.node.MayUnlink s.checkPerm parent name rmdir creds entry' := by
  intro hmay
  have hfound := hmay.found
  rw [h.found] at hfound
  cases hfound
  exact hmay.sticky h.guarded

theorem unlinkName_refused (hs : s.Tidy) (h : s.StickyEntry creds parent name entry)
    (hparent : parent < s.sb.nextInode) (rmdir : Bool) :
    Acts (unlinkName parent name rmdir creds) s (fun _ _ ↦ False) (fun g ↦ g.lookup parent name = some entry) := by
  rw [unlinkName_eq]
  have hfind := (unlinkFind_acts hs.sound hs.writable hs.namesBelow hparent name rmdir creds).mono
    (fun _ _ hq ↦ hq.2) (fun g hg ↦ show g.lookup parent name = some entry by rw [hg.1, h.found])
  apply hfind.bind
  intro entry' t _ hmay
  exact absurd hmay h.not_mayUnlink

section Onto

variable {oldParent : ℕ} {oldName : Bytes}

theorem StickyEntry.mayRename_onto (h : s.StickyEntry creds parent name entry) {r : Renaming}
    (hr : s.node.MayRename s.checkPerm oldParent oldName parent name creds r) : r = .nothing := by
  cases hr with
  | same _ _ => rfl
  | proceeds _ _ _ hr =>
    cases hr with
    | linked _ _ => rfl
    | fresh hdir hnone =>
      have hfound := h.found
      rw [Nodes.lookup_of_dir hdir, hnone] at hfound
      cases hfound
    | replaces _ _ hmay => exact absurd hmay h.not_mayUnlink

theorem renameOnto_refused (hs : s.Tidy) (h : s.StickyEntry creds parent name entry)
    (hparent : parent < s.sb.nextInode) (hold : oldParent < s.sb.nextInode)
    (hbarred : ¬s.node.MayRename s.checkPerm oldParent oldName parent name creds .nothing) :
    Acts (rename oldParent oldName parent name creds) s (fun _ _ ↦ False)
      (fun g ↦ g.lookup parent name = some entry) := by
  rw [rename_eq]
  have hfind := (renameFind_acts hs.sound hs.writable hs.namesBelow hold hparent oldName name creds).mono
    (fun _ _ hq ↦ hq.2) (fun g hg ↦ show g.lookup parent name = some entry by rw [hg.1, h.found])
  apply hfind.bind
  intro r t _ hr
  rw [h.mayRename_onto hr] at hr
  exact absurd hr hbarred

theorem renameNothing_returns (hs : s.Tidy) {newParent : ℕ} {newName : Bytes} (hold : oldParent < s.sb.nextInode)
    (hnew : newParent < s.sb.nextInode)
    (hmay : s.node.MayRename s.checkPerm oldParent oldName newParent newName creds .nothing) :
    (rename oldParent oldName newParent newName creds).Holds s (fun _ _ ↦ True) (fun e _ ↦ e.IsHost) := by
  rw [rename_eq]
  refine Exec.Holds.bind (renameFind_acts hs.sound hs.writable hs.namesBelow hold hnew oldName newName creds) ?_
    fun e t he ↦ he.resolve_right fun hfail ↦ hfail.2.2 _ hmay
  rintro r t ⟨-, -, hr⟩
  rw [hr.unique hmay]
  trivial

end Onto

section From

variable {newParent : ℕ} {newName : Bytes}

/-- What a `rename` has found out before it changes anything. -/
theorem renameFind_finds (hs : s.Tidy) (hold : parent < s.sb.nextInode) (hnew : newParent < s.sb.nextInode) :
    (renameFind parent name newParent newName creds).Holds s
      (fun r t ↦ t.Tidy ∧ Steady s t ∧ t.node = s.node ∧
        s.node.MayRename s.checkPerm parent name newParent newName creds r)
      (fun e t ↦ e.IsHost ∨ Steady s t ∧ t.node = s.node ∧
        ∀ r, ¬s.node.MayRename s.checkPerm parent name newParent newName creds r) := by
  refine Exec.Holds.mono (renameFind_acts hs.sound hs.writable hs.namesBelow hold hnew name newName creds) ?_
    fun e t he ↦ he
  rintro r t ⟨hkept, hnode, hr⟩
  have hbecomes := hkept.becomes
  rw [hnode] at hbecomes
  exact ⟨(hs.looked hbecomes).1, hkept, hnode, hr⟩

theorem Nodes.MayUnlink.file {f : Nodes} {perm : Bool} {dest : ℕ × FileType}
    (h : f.MayUnlink perm newParent newName dest.2.isDir creds dest) (hnone : f dest.1 = none) :
    ¬dest.2.isDir = true := by
  intro hdir
  have hremovable := h.removable
  unfold Nodes.Removable at hremovable
  rw [if_pos hdir] at hremovable
  obtain ⟨-, entries, hentries, -⟩ := hremovable
  rw [Nodes.dir_of_none hnone] at hentries
  cases hentries

theorem renameFrom_refused (hs : s.Tidy) (h : s.StickyEntry creds parent name entry)
    (hparent : parent < s.sb.nextInode) (hnew : newParent < s.sb.nextInode)
    (hbarred : ∀ r, s.node.MayRename s.checkPerm parent name newParent newName creds r →
      ∃ src dest, r = .move src (some dest) ∧ s.node dest.1 = none) :
    Acts (rename parent name newParent newName creds) s (fun _ _ ↦ False)
      (fun g ↦ g.lookup parent name = some entry) := by
  rw [rename_eq]
  have hfind := (renameFind_acts hs.sound hs.writable hs.namesBelow hparent hnew name newName creds).mono
    (fun _ _ hq ↦ hq) (fun g hg ↦ show g.lookup parent name = some entry by rw [hg.1, h.found])
  apply hfind.bind
  rintro r t ht ⟨hnode, hr⟩
  obtain ⟨src, dest, rfl, hnone⟩ := hbarred r hr
  cases hr with
  | proceeds hchecked hne _ hr =>
    cases hr with
    | replaces _ _ hmay =>
      have hdest : dest.1 < s.sb.nextInode := by
        obtain ⟨entries, hdir, hentry⟩ := Option.bind_eq_some_iff.mp hmay.found
        exact hs.namesBelow.lookup hdir hentry
      have hdangles := unlinkEntry_dangles ht.sound (ht.writable hs.writable) (ht.next hnew) newName
        (ht.next hdest) (Nodes.MayUnlink.file hmay hnone) (by rw [hnode, hnone])
      apply (hdangles.mono (fun _ _ hf ↦ hf) fun g hg ↦ ?_).bind
      · intro _ _ _ hf
        exact absurd hf not_false
      · rw [hg parent name hne, hnode, h.found]

theorem renameFrom_moves (hs : s.Tidy) (hparent : parent < s.sb.nextInode) (hnew : newParent < s.sb.nextInode)
    {r : Renaming} (hr : s.node.MayRename s.checkPerm parent name newParent newName creds r)
    (hlive : ∀ src dest, r = .move src (some dest) → s.node dest.1 ≠ none) :
    (rename parent name newParent newName creds).Holds s (fun _ _ ↦ True)
      (fun e t ↦ e.IsHost ∨ t.node.lookup parent name = none) := by
  rw [rename_eq]
  refine (renameFind_finds hs hparent hnew).bind ?_ fun e t he ↦ Or.inl (he.resolve_right fun hno ↦ hno.2.2 r hr)
  rintro r' t ⟨htidy, ht, hnode, hr'⟩
  rw [hr'.unique hr]
  cases hr with
  | same _ _ => trivial
  | proceeds hchecked hne _ hreplace =>
    have hlookup : ∀ {k : ℕ} {other : Bytes} {e : ℕ × FileType}, s.node.lookup k other = some e →
        e.1 < s.sb.nextInode := by
      intro k other e he
      obtain ⟨entries, hdir, hentry⟩ := Option.bind_eq_some_iff.mp he
      exact hs.namesBelow.lookup hdir hentry
    have hmove : ∀ {u : Inner} {src : ℕ × FileType}, Onward t u → src.1 < s.sb.nextInode →
        (moveEntry parent name newParent newName src).Holds u (fun _ _ ↦ True)
          (fun e t ↦ e.IsHost ∨ t.node.lookup parent name = none) := by
      intro u src hu hsrc
      refine Exec.Holds.mono (moveEntry_acts hu.1 (hu.lt (ht.next hparent)) (hu.lt (ht.next hnew)) hne
        (hu.lt (ht.next hsrc))) (fun _ _ _ ↦ trivial) fun e v he ↦ ?_
      exact he.imp_right fun hv ↦ hv.2.1
    cases hreplace with
    | linked _ _ => trivial
    | fresh _ _ => exact hmove htidy.onward (hlookup hchecked.found)
    | replaces _ _ hmay =>
      have hdest := hlookup hmay.found
      have hstays := unlinkEntry_stays htidy (ht.next hnew) newName (ht.next hdest)
      have hunlinks := unlinkEntry_unlinks htidy.sound htidy.writable (ht.next hnew) newName (ht.next hdest)
        (by rw [hnode]; exact hlive _ _ rfl) (by rw [hnode, hmay.found]; exact Option.some_ne_none _)
      refine (Exec.Holds.and hstays hunlinks).bind ?_ fun e u he ↦ Or.inl he.2
      rintro _ u ⟨⟨hu, -⟩, -⟩
      exact hmove hu (hlookup hchecked.found)

end From

/-- In a state that regular calls reach, a call on an entry that the sticky bit protects is refused, with the entry
still there, exactly when it is barred in another way. -/
theorem sticky_entry_kept_iff (hs : s.Reached) (h : s.StickyEntry creds parent name entry) (call : Removal)
    (hknown : call.Known s) (hanswers : Answers (call.exec parent name creds) s) :
    Refuses (call.exec parent name creds) s parent name entry ↔ call.Barred s.node parent name creds := by
  have htidy := hs.tidy
  have hparent : parent < s.sb.nextInode := by
    obtain ⟨d, -, hd, -⟩ := h.owners
    obtain ⟨i, hi, -⟩ := Option.map_eq_some_iff.mp hd
    exact (htidy.sound.inv.numbered.keys parent i hi).2.1
  cases call with
  | unlinkName rmdir =>
    exact ⟨fun _ ↦ trivial, fun _ ↦ hanswers.refuses (unlinkName_refused htidy h hparent rmdir)⟩
  | renameFrom newParent newName =>
    unfold Removal.Barred
    rw [← h.checked]
    constructor
    · intro hrefuses r hr
      by_contra hlive
      have hmoves := renameFrom_moves htidy hparent hknown hr fun src dest heq hnone ↦ hlive ⟨src, dest, heq, hnone⟩
      exact hanswers.not_refuses hmoves hrefuses
    · intro hbarred
      exact hanswers.refuses (renameFrom_refused htidy h hparent hknown hbarred)
  | renameOnto oldParent oldName =>
    unfold Removal.Barred
    rw [← h.checked]
    constructor
    · intro hrefuses hmay
      have hreturns := renameNothing_returns htidy hknown hparent hmay
      exact hanswers.not_refuses (hreturns.mono (fun _ _ hq ↦ hq) fun _ _ he ↦ Or.inl he) hrefuses
    · intro hbarred
      exact hanswers.refuses (renameOnto_refused htidy h hparent hknown hbarred)

/-! ## Concrete runs -/

/-- A sticky directory that everyone may write to, with a file of the superuser in it. -/
def stickyDirectory : List Operation :=
  [.createChild rootIno [0x64] (sIfdir ||| 0o1777) 0 0 0 Creds.root,
    .createChild 2 [0x66] (sIfreg ||| 0o644) 0 0 0 Creds.root]

/-- A user who owns nothing. -/
def outsider : Creds := ⟨1000, 1000, [], 1000, 1000⟩

/-- What a run needs to show of its last state. -/
def stickyTest (s : Inner) : Bool :=
  s.node.lookup 2 [0x66] == some (3, .file) &&
    (s.node 2).any (fun d ↦ d.mode &&& sIsvtx != 0 && outsider.fsuid != d.uid) &&
    (s.node 3).any (fun c ↦ outsider.fsuid != c.uid)

theorem StickyEntry.of_test (h : stickyTest s = true) :
    StickyEntry { s with checkPerm := true } outsider 2 [0x66] (3, .file) := by
  unfold stickyTest at h
  rw [Bool.and_eq_true, Bool.and_eq_true, beq_iff_eq, Option.any_eq_true, Option.any_eq_true] at h
  obtain ⟨⟨hfound, d, hd, hdir⟩, c, hc, hchild⟩ := h
  rw [Bool.and_eq_true, bne_iff_ne, bne_iff_ne] at hdir
  exact ⟨rfl, by decide, hfound, d, c, hd, hc, hdir.1, hdir.2, bne_iff_ne.mp hchild⟩

/-- The directory is made, checks are switched on, and `call` is made by the user. -/
theorem sticky_run (call : Removal) (test : FsOutcome Unit → Bool)
    (h : (sampleCalls stickyDirectory).okAnd (fun calls s ↦ (calls.all fun call ↦ call.2.regular call.1) &&
      stickyTest s && decide (3 < s.sb.nextInode) &&
      test (call.exec 2 [0x66] outsider { s with checkPerm := true })) = true) :
    ∃ s, s.Reached ∧ s.StickyEntry outsider 2 [0x66] (3, .file) ∧ 3 < s.sb.nextInode ∧
      test (call.exec 2 [0x66] outsider s) = true := by
  obtain ⟨first, calls, s, himage, hrun, -, hreturns, htest⟩ := sampleCalls_runs h
  rw [Bool.and_eq_true, Bool.and_eq_true, Bool.and_eq_true, decide_eq_true_eq] at htest
  obtain ⟨⟨⟨hregular, hsticky⟩, hnext⟩, hcall⟩ := htest
  have hreached : s.Reached := by
    apply (Reached.created himage).runs hrun
    intro call hcall
    refine ⟨.of_test (List.all_eq_true.mp hregular call hcall), fun e t he ↦ ?_⟩
    obtain ⟨value, u, hok⟩ := hreturns call hcall
    rw [he] at hok
    cases hok
  exact ⟨_, hreached.checked true, .of_test hsticky, hnext, hcall⟩

theorem sticky_entry_kept_unlink : ∃ s, s.Reached ∧ s.StickyEntry outsider 2 [0x66] (3, .file) ∧
    Refuses (unlinkName 2 [0x66] false outsider) s 2 [0x66] (3, .file) := by
  obtain ⟨s, hs, hsticky, -, htest⟩ := sticky_run (.unlinkName false) answered (by decide +kernel)
  exact ⟨s, hs, hsticky,
    (sticky_entry_kept_iff hs hsticky (.unlinkName false) trivial (.of_test htest)).mpr trivial⟩

/-- The user gives the file another name. -/
theorem sticky_entry_renamed : ∃ s, s.Reached ∧ s.StickyEntry outsider 2 [0x66] (3, .file) ∧
    Answers (rename 2 [0x66] 2 [0x67] outsider) s ∧
    ¬Refuses (rename 2 [0x66] 2 [0x67] outsider) s 2 [0x66] (3, .file) := by
  obtain ⟨s, hs, hsticky, -, htest⟩ := sticky_run (.renameFrom 2 [0x67]) (·.okAnd fun _ _ ↦ true)
    (by decide +kernel)
  obtain ⟨_, t, hok, -⟩ := Outcome.exists_of_okAnd htest
  refine ⟨s, hs, hsticky, Or.inl ⟨(), t, hok⟩, ?_⟩
  rintro ⟨e, u, herr, -⟩
  rw [show rename 2 [0x66] 2 [0x67] outsider s = .ok () t from hok] at herr
  cases herr

end Inner

end LinuxFile
