import LinuxFile.Spec.Links
import LinuxFile.Spec.Ready
import LinuxFile.Theorems.NamespaceRuns

/-!
# Files by path

What the calls of the `LinuxFile` handle that take paths promise together: an inode that was made is found at its
path, what was written to a path is read from it, and a copy has the bytes and permissions of its source. All other
paths lead where they led, and all other files have the bytes they had.
-/

namespace LinuxFile

namespace Inner

variable {s t : Inner} {depth : ℕ} {path : UnixPath} {contents : Bytes}

/-! ## States to start from -/

/-- `Spacious` as a test. -/
def spacious (s : Inner) : Bool :=
  s.inodes.entries.all fun e ↦ (s.node.dir e.1).all fun es ↦ decide (es.length + 1 < 2 ^ 32)

theorem spacious_of_test (h : s.spacious = true) : s.Spacious := by
  intro parent entries hdir
  obtain ⟨n, hn, -⟩ := Nodes.entries_of_dir hdir
  obtain ⟨i, hi, -⟩ := mem_of_node hn
  have htest := List.all_eq_true.mp h (parent, i) (KeyMap.find?_eq_some_iff.mp hi)
  rw [hdir, Option.all_some] at htest
  exact of_decide_eq_true htest

/-- A state of the sample filesystem that a run of orderly calls has led to. -/
theorem sampleCalls_spacious {ops : List Operation} {test : Inner → Bool}
    (h : (sampleCalls ops).okAnd (fun calls s ↦
      (calls.all fun call ↦ call.2.regular call.1 && call.1.fits call.2) && (s.spacious && test s)) = true) :
    ∃ s : Inner, s.Charted ∧ s.Spacious ∧ test s = true := by
  obtain ⟨first, calls, s, hfirst, hrun, -, hcalls, htest⟩ := sampleCalls_orderly h
  rw [Bool.and_eq_true] at htest
  exact ⟨s, hfirst.runs hrun hcalls, spacious_of_test htest.1, htest.2⟩

/-- The path of a file in `b`, which `moveAbout` makes. -/
def newPath : UnixPath := [slash, 0x62, slash, 0x6E]

/-- The path of the file `b/g`. -/
def oldPath : UnixPath := [slash, 0x62, slash, 0x67]

/-! ## Making -/

/-- The inode `ino` is new and found at the path; every walk that led to an inode leads to the same one, and no file
that was there has changed. -/
structure PathAdded (s : Inner) (depth : ℕ) (path : UnixPath) (follow : Bool) (ino : ℕ) (t : Inner) : Prop where
  unused : s.node ino = none
  leads : t.node.leads depth path follow = some ino
  found : Replies (Facade.find depth path follow) t (· = ino)
  keeps : s.node.KeepsPaths t.node
  others : ∀ k n, s.node k = some n → n.isDir = false → t.node k = some n

theorem Makes.pathAdded {r : Resolved} {n : Node} {ino : ℕ} {follow : Bool} (h : Makes s r.parent r.name n ino t)
    (ht : t.Rooted) (hspace : s.Spacious) (hfound : s.node.found depth path follow = some r) (hfree : r.ino = none)
    (hplain : follow = false ∨ (FileType.fromMode n.mode).isSymlink = false) : s.PathAdded depth path follow ino t := by
  have hroom := hspace r.parent
  have hleads := Nodes.leads_of_found (h.found ht.tidy hroom hfound hfree rfl rfl hplain)
  refine ⟨h.unused, hleads, find_replies ht hleads, (h.grows ht.tidy hroom).keepsPaths, fun k m hm hfile ↦ ?_⟩
  refine h.others ?_ hm hfile
  rintro rfl
  rw [h.unused] at hm
  cases hm

/-- What `mkdir`, `mknod` and `mkfifo` make is found at the path. A call that fails, but not on the host, makes
nothing. -/
theorem makeAt_adds_path (h : s.Charted) (hspace : s.Spacious) (depth : ℕ) (path : UnixPath) (follow : Bool)
    (mode : UInt16) (dev : UInt64) (hplain : follow = false ∨ (FileType.fromMode mode).isSymlink = false) :
    (Facade.makeAt depth path follow mode dev).Holds s (fun ino t ↦ s.PathAdded depth path follow ino t)
      (fun e t ↦ e.IsHost ∨ t.node = s.node) := by
  refine (makeAt_leaves h.rooted hspace depth path follow mode dev).holds ?_
  rintro ino t ⟨ht, r, hfound, hfree, hmakes⟩
  exact hmakes.pathAdded ht hspace hfound hfree hplain

theorem makeAt_adds_path_fifo : ∃ (s : Inner) (ino : ℕ) (t : Inner), s.Charted ∧
    Facade.makeAt 1 newPath false (sIfifo ||| 0o644) 0 s = .ok ino t ∧ s.PathAdded 1 newPath false ino t ∧
    t.Ready none := by
  have hplay : (sampleCalls moveAbout).okAnd (fun calls s ↦
      (calls.all fun call ↦ call.2.regular call.1 && call.1.fits call.2) &&
        (s.spacious && (Facade.makeAt 1 newPath false (sIfifo ||| 0o644) 0 s).okAnd fun _ t ↦ t.ready)) = true := by
    decide +kernel
  obtain ⟨s, hs, hspace, htest⟩ := sampleCalls_spacious hplay
  obtain ⟨ino, t, hmade, hready⟩ := Outcome.exists_of_okAnd htest
  have hholds := makeAt_adds_path hs hspace 1 newPath false (sIfifo ||| 0o644) 0 (Or.inl rfl)
  exact ⟨s, ino, t, hs, hmade, hholds.of_ok hmade, .of_test hready⟩

theorem fromMode_created (opts : OpenOptions) : FileType.fromMode (sIfreg ||| applyUmask opts.mode 0o022) = .file := by
  have hmode : applyUmask opts.mode 0o022 = (opts.mode &&& ~~~0o022) &&& modePerm := by
    unfold applyUmask
    rw [UInt16.and_assoc, UInt16.and_comm modePerm, ← UInt16.and_assoc]
  have hformat := chmod_format sIfreg (opts.mode &&& ~~~0o022)
  rw [← hmode] at hformat
  exact fromMode_congr hformat

/-- A file that `open_opts` creates is found at the path. -/
theorem openOpts_adds_path (h : s.Charted) (hspace : s.Spacious) (depth : ℕ) (path : UnixPath) (opts : OpenOptions)
    (hnew : opts.createNew = true ∨ opts.create = true ∧ s.node.leads depth path (!opts.nofollow) = none) :
    (Facade.openOpts depth path opts).Holds s (fun file t ↦ s.PathAdded depth path (!opts.nofollow) file.ino t)
      (fun e t ↦ e.IsHost ∨ t.node = s.node) := by
  have hopen : Leaves (Facade.openOpts depth path opts) s
      (fun file t ↦ s.PathAdded depth path (!opts.nofollow) file.ino t) (fun t ↦ t.node = s.node) := by
    unfold Facade.openOpts
    refine Leaves.bind ((lookUp_leaves h.rooted depth path !opts.nofollow).mono (fun _ _ _ hr ↦ hr) fun _ ht ↦ ht.1) ?_
    rintro r t ht ⟨hbelow, hnode, hfound⟩
    unfold Facade.openTarget
    cases hino : r.ino with
    | some k =>
      -- with `create` alone the path would have led to this inode
      have hcreate : opts.createNew = true := by
        refine hnew.resolve_right fun hfree ↦ ?_
        rw [Nodes.leads_of_found hfound, hino] at hfree
        cases hfree.2
      dsimp only
      unfold Facade.openExisting
      rw [if_pos hcreate]
      exact Leaves.throw ht.1 hnode
    | none =>
      dsimp only
      rw [if_neg fun hneither ↦ hnew.elim (fun hcreate ↦ by rw [hneither.2] at hcreate; cases hcreate)
        fun hfree ↦ by rw [hneither.1] at hfree; cases hfree.1]
      have hroom : t.node.Roomy r.parent := by
        rw [hnode]
        exact hspace r.parent
      refine Leaves.bind ((createChild_leaves (h.rooted.kept ht hnode) hbelow.1 hroom r.name _ _ _ 0 Creds.root).mono
        (fun _ _ _ hu ↦ hu) fun u hu ↦ hu.trans hnode) ?_
      rintro ino u hu ⟨hrooted, hvalid, hunused, hnumber, hmade⟩
      rw [hnode] at hunused hmade
      refine Leaves.bind ((incOpen_leaves hu.1 ino).mono (fun _ _ _ hv ↦ hv) fun _ hf ↦ hf.elim) ?_
      intro _ v hv hsame
      have hmakes : Makes s r.parent r.name (newNode (sIfreg ||| applyUmask opts.mode 0o022) 0 0) ino v :=
        ⟨hvalid, hunused, hnumber.trans_le hv.2, by rw [hsame.node]; exact hmade⟩
      have hplain : (FileType.fromMode (sIfreg ||| applyUmask opts.mode 0o022)).isSymlink = false := by
        rw [fromMode_created]
        rfl
      exact Leaves.pure hv.1 (hmakes.pathAdded (hrooted.kept hv hsame.node) hspace hfound hino (Or.inr hplain))
  exact hopen.holds fun _ _ ht ↦ ht

/-! ## Writing and reading -/

/-- The path leads to a file with the contents, which are read from it in pieces of any sizes; every other file that has
a path is read as before. -/
structure WrittenAt (s : Inner) (depth : ℕ) (path : UnixPath) (contents : Bytes) (t : Inner) : Prop where
  node : ∃ k n, t.node.leads depth path true = some k ∧ t.node k = some n ∧ n.bytes = contents
  reads : ∀ sizes rounds, (∀ m, 0 < sizes m) → contents.length < rounds →
    Replies (Facade.read depth sizes rounds path) t (· = contents)
  others : ∀ more other k n, s.node.leads more other true = some k → s.node k = some n → n.isDir = false →
    s.node.leads depth path true ≠ some k → t.node.leads more other true = some k ∧ t.node k = some n ∧
      ∀ sizes rounds, (∀ m, 0 < sizes m) → n.bytes.length < rounds →
        Replies (Facade.read more sizes rounds other) t (· = n.bytes)

/-- Whatever was written to a path is read from it. If the call fails, but not on the host, it has changed nothing. -/
theorem write_then_read (h : s.Charted) (hspace : s.Spacious) (depth : ℕ) (path : UnixPath)
    (hlen : contents.length ≤ maxFileSize) :
    (Facade.write depth path contents).Holds s (fun _ t ↦ s.WrittenAt depth path contents t)
      (fun e t ↦ e.IsHost ∨ t.node = s.node) := by
  refine (write_leaves h.rooted hspace depth path hlen).holds ?_
  rintro _ t ⟨j, hfilled⟩
  obtain ⟨m, hm, -, hbytes⟩ := hfilled.node
  refine ⟨⟨j, m, hfilled.leads, hm, hbytes⟩, fun sizes rounds hsizes hrounds ↦ ?_, fun more other k n hk hn hfile helse ↦ ?_⟩
  · rw [← hbytes] at hrounds ⊢
    exact read_replies hfilled.rooted hsizes hfilled.leads hm hrounds
  · have hne : k ≠ j := by
      rintro rfl
      rcases hfilled.origin with hold | hnew
      · exact helse hold
      · rw [hnew] at hn
        cases hn
    have hleads := hfilled.keeps.leads hk
    have hsame := hfilled.others k n hne hn hfile
    exact ⟨hleads, hsame, fun sizes rounds hsizes hrounds ↦ read_replies hfilled.rooted hsizes hleads hsame hrounds⟩

/-- A file of two hundred bytes, which do not fit into the inode. -/
def longContents : Bytes := List.replicate 200 0x78

theorem write_then_read_long : ∃ s t u : Inner, s.Charted ∧ Facade.write 1 newPath longContents s = .ok () t ∧
    s.WrittenAt 1 newPath longContents t ∧ Facade.read 1 (fun _ ↦ 64) 201 newPath t = .ok longContents u := by
  have hplay : (sampleCalls moveAbout).okAnd (fun calls s ↦
      (calls.all fun call ↦ call.2.regular call.1 && call.1.fits call.2) &&
        (s.spacious && (Facade.write 1 newPath longContents s).okAnd fun _ t ↦ t.ready)) = true := by
    decide +kernel
  obtain ⟨s, hs, hspace, htest⟩ := sampleCalls_spacious hplay
  obtain ⟨_, t, hwritten, hready⟩ := Outcome.exists_of_okAnd htest
  have hlength : longContents.length = 200 := List.length_replicate
  have hlen : longContents.length ≤ maxFileSize := by
    rw [hlength]
    decide
  have hat := (write_then_read hs hspace 1 newPath hlen).of_ok hwritten
  have hreads := hat.reads (fun _ ↦ 64) 201 (fun _ ↦ by decide) (by rw [hlength]; decide)
  obtain ⟨_, u, hread, rfl⟩ := hreads.returns (.of_test hready)
  exact ⟨s, t, u, hs, hwritten, hat, hread⟩

/-! ## Copies -/

/-- The target is a file with the bytes and the permissions of the source, and is read as such; the source, if it is no
directory, is read as before. -/
structure ReadsAsCopy (s : Inner) (depth : ℕ) (source target : UnixPath) (len : ℕ) (t : Inner) : Prop where
  copied : ∃ k n j m, s.node.leads depth source true = some k ∧ s.node k = some n ∧ len = n.bytes.length ∧
    t.node.leads depth target true = some j ∧ t.node j = some m ∧ FileType.fromMode m.mode = .file ∧
    m.mode &&& modePerm = n.mode &&& modePerm ∧ m.bytes = n.bytes ∧
    Replies (Facade.stat depth target) t
      (fun st ↦ st.fileType = .file ∧ st.permissions = n.mode &&& modePerm ∧ st.size = len) ∧
    ∀ sizes rounds, (∀ m, 0 < sizes m) → len < rounds →
      Replies (Facade.read depth sizes rounds source) s (· = n.bytes) ∧
      Replies (Facade.read depth sizes rounds target) t (· = n.bytes) ∧
      (n.isDir = false → Replies (Facade.read depth sizes rounds source) t (· = n.bytes))

/-- A copy has the bytes and the permissions of its source, also when source and target are one file. -/
theorem copy_then_read (h : s.Charted) (hspace : s.Spacious) (depth : ℕ) {sizes : ℕ → ℕ} (hsizes : ∀ m, 0 < sizes m)
    (rounds : ℕ) (source target : UnixPath) :
    (Facade.copy depth sizes rounds source target).Holds s (fun len t ↦ s.ReadsAsCopy depth source target len t)
      (fun e t ↦ e.IsHost ∨ t.node = s.node) := by
  refine (copy_leaves h.rooted hspace depth hsizes rounds source target).holds ?_
  rintro len t ⟨k, n, hk, hn, rfl, hrooted, hkeeps, j, m, hj, hm, htype, hbytes, hperm, hothers⟩
  refine ⟨k, n, j, m, hk, hn, rfl, hj, hm, htype, hperm, hbytes, ?_, fun sizes rounds hsizes hrounds ↦ ?_⟩
  · refine (stat_replies hrooted hj hm).mono fun st hst ↦ ?_
    obtain ⟨-, hmode, -, -, -, hsize⟩ := Answer.attributes.inj hst
    unfold Stat.fileType Stat.permissions
    rw [hmode, hsize, hbytes]
    exact ⟨htype, hperm, rfl⟩
  · have htarget := read_replies hrooted hsizes hj hm (by rw [hbytes]; exact hrounds)
    rw [hbytes] at htarget
    refine ⟨read_replies h.rooted hsizes hk hn hrounds, htarget, fun hfile ↦ ?_⟩
    have hk' := hkeeps depth source true k hk
    by_cases hsame : k = j
    · subst hsame
      rw [← hbytes] at hrounds ⊢
      exact read_replies hrooted hsizes hk' hm hrounds
    · exact read_replies hrooted hsizes hk' (hothers k n hsame hn hfile) hrounds

theorem copy_then_read_short : ∃ s t u v : Inner, s.Charted ∧ Facade.copy 1 (fun _ ↦ 2) 4 oldPath newPath s = .ok 3 t ∧
    s.ReadsAsCopy 1 oldPath newPath 3 t ∧
    (∃ data, data.length = 3 ∧ Facade.read 1 (fun _ ↦ 1) 4 oldPath s = .ok data u ∧
      Facade.read 1 (fun _ ↦ 1) 4 newPath t = .ok data v) := by
  have hplay : (sampleCalls (moveAbout ++ [.writeData 5 0 [1, 2, 3], .chmod 5 0o751 Creds.root])).okAnd (fun calls s ↦
      (calls.all fun call ↦ call.2.regular call.1 && call.1.fits call.2) &&
        (s.spacious && (s.ready && (Facade.copy 1 (fun _ ↦ 2) 4 oldPath newPath s).okAnd fun len t ↦
          decide (len = 3) && t.ready))) = true := by
    decide +kernel
  obtain ⟨s, hs, hspace, htest⟩ := sampleCalls_spacious hplay
  rw [Bool.and_eq_true] at htest
  obtain ⟨hready, htest⟩ := htest
  obtain ⟨len, t, hcopied, htest⟩ := Outcome.exists_of_okAnd htest
  rw [Bool.and_eq_true, decide_eq_true_eq] at htest
  obtain ⟨rfl, hready'⟩ := htest
  have hholds := copy_then_read hs hspace 1 (fun _ ↦ Nat.zero_lt_two) 4 oldPath newPath
  have hcopy : s.ReadsAsCopy 1 oldPath newPath 3 t := hholds.of_ok hcopied
  obtain ⟨k, n, j, m, -, -, hlen, -, -, -, -, -, -, hreads⟩ := hcopy.copied
  obtain ⟨hsource, htarget, -⟩ := hreads (fun _ ↦ 1) 4 (fun _ ↦ Nat.zero_lt_one) (by decide)
  obtain ⟨_, u, hread, rfl⟩ := hsource.returns (.of_test hready)
  obtain ⟨_, v, hread', rfl⟩ := htarget.returns (.of_test hready')
  exact ⟨s, t, u, v, hs, hcopied, hcopy, n.bytes, hlen.symm, hread, hread'⟩

/-! ## Links -/

/-- The link is there and `read_link` gives its target back; the link leads where a walk of the target from the link's
directory leads. Paths and files are as before. -/
structure LinkMade (s : Inner) (depth : ℕ) (target link : UnixPath) (t : Inner) : Prop where
  node : ∃ k n, t.node.leads depth link false = some k ∧ t.node k = some n ∧
    (FileType.fromMode n.mode).isSymlink = true ∧ n.bytes = target
  reads : Replies (Facade.readLink depth link) t (· = target)
  follows : ∃ r, s.node.found depth link false = some r ∧ ∀ more q k, q.ino = some k →
    (t.node.walk t.checkPerm ⟨rootIno, true, Creds.root⟩ more r.parent target = some q →
      Replies (walk ⟨rootIno, true, Creds.root⟩ more r.parent target) t (· = q) ∧
      t.node.found (depth + more) link true = some q ∧ Replies (Facade.find (depth + more) link true) t (· = k)) ∧
    ∀ u, walk ⟨rootIno, true, Creds.root⟩ more r.parent target t = .ok q u →
      t.node.walk t.checkPerm ⟨rootIno, true, Creds.root⟩ more r.parent target = some q
  keeps : s.node.KeepsPaths t.node
  others : ∀ k n, s.node k = some n → n.isDir = false → t.node k = some n

/-- A new symbolic link stands for its target, whatever bytes that has. -/
theorem symlink_stands_for_target (h : s.Charted) (hspace : s.Spacious) (depth : ℕ) {target : UnixPath} (link : UnixPath)
    (hlen : target.length ≤ maxFileSize) :
    (Facade.symlink depth target link).Holds s (fun _ t ↦ s.LinkMade depth target link t)
      (fun e t ↦ e.IsHost ∨ t.node = s.node) := by
  refine (symlink_leaves h.rooted hspace depth link hlen).holds ?_
  rintro _ t ⟨r, ino, hfound, -, hmade, hlinked⟩
  obtain ⟨n, hn, hlink, rfl⟩ := hlinked.node
  have ht := hlinked.rooted
  have hleads := Nodes.leads_of_found hmade
  refine ⟨⟨ino, n, hleads, hn, hlink, rfl⟩, readLink_replies ht hleads hn hlink, ⟨r, hfound, fun more q k hk ↦ ⟨?_, ?_⟩⟩,
    hlinked.keeps, hlinked.others⟩
  · intro htarget
    refine ⟨walk_replies ht hlinked.parent htarget, ?_⟩
    rw [Nodes.walk_root (.refl t.node) ht.root_dir t.checkPerm true] at htarget
    have hends : t.node.EndsAtLink { r with ino := some ino } ino n := ⟨rfl, hlinked.name, hn, hlink⟩
    have hq : q.ino ≠ none := by
      rw [hk]
      exact Option.some_ne_none k
    have hfollowed : t.node.found (depth + more) link true = some q := Nodes.walk_follows hends hq htarget depth hmade
    exact ⟨hfollowed, find_replies ht ((Nodes.leads_of_found hfollowed).trans hk)⟩
  · intro u hwalk
    exact ((walk_computes more r.parent n.bytes t ht.tidy.sound ht.tidy.namesBelow ht.root_lt hlinked.parent).of_ok
      hwalk).2.2

theorem symlink_stands_for_target_up : ∃ s t u : Inner, s.Charted ∧
    Facade.symlink 1 [0x2E, 0x2E, slash, 0x61] newPath s = .ok () t ∧ s.LinkMade 1 [0x2E, 0x2E, slash, 0x61] newPath t ∧
    Facade.readLink 1 newPath t = .ok [0x2E, 0x2E, slash, 0x61] u ∧
    (Facade.find 2 newPath true t).okAnd (fun k _ ↦ decide (k = 2)) = true := by
  have hplay : (sampleCalls moveAbout).okAnd (fun calls s ↦
      (calls.all fun call ↦ call.2.regular call.1 && call.1.fits call.2) &&
        (s.spacious && (Facade.symlink 1 [0x2E, 0x2E, slash, 0x61] newPath s).okAnd fun _ t ↦
          t.ready && (Facade.find 2 newPath true t).okAnd fun k _ ↦ decide (k = 2))) = true := by
    decide +kernel
  obtain ⟨s, hs, hspace, htest⟩ := sampleCalls_spacious hplay
  obtain ⟨_, t, hmade, htest⟩ := Outcome.exists_of_okAnd htest
  rw [Bool.and_eq_true] at htest
  have hlen : List.length ([0x2E, 0x2E, slash, 0x61] : UnixPath) ≤ maxFileSize := by decide
  have hlink := (symlink_stands_for_target hs hspace 1 newPath hlen).of_ok hmade
  obtain ⟨_, u, hread, rfl⟩ := hlink.reads.returns (.of_test htest.1)
  exact ⟨s, t, u, hs, hmade, hlink, hread, htest.2⟩

end Inner

end LinuxFile
