import LinuxFile.Library.Agree
import LinuxFile.Theorems.Chroot

/-!
# Search permission hides directories

Two states differ only in what directories without search permission contain when nothing else tells
them apart: the types, permissions and owners of inodes, the names in the other directories and the
targets of links, asked for in any order. A walk that checks permissions cannot tell them apart either,
because every lookup it makes comes after a check on the directory it looks in.
-/

set_option autoImplicit false

namespace LinuxFile

/-- A directory on which the credentials have no search permission. -/
def Inode.Unsearchable (i : Inode) (creds : Creds) : Prop :=
  i.isDir = true ∧ checkAccess i.mode i.uid i.gid creds .exec = false

instance (i : Inode) (creds : Creds) : Decidable (i.Unsearchable creds) := instDecidableAnd

/-- A directory is no link. -/
theorem Inode.Unsearchable.not_symlink {i : Inode} {creds : Creds} (h : i.Unsearchable creds) :
    i.isSymlink = false := by
  have hdir := h.1
  unfold Inode.isDir FileType.isDir at hdir
  unfold Inode.isSymlink FileType.isSymlink
  rw [beq_iff_eq] at hdir
  rw [hdir]
  rfl

namespace Inner

/-- What can be asked of a filesystem without listing a directory that may not be searched. -/
inductive Question where
  | inode (ino : ℕ)
  | lookup (dir : ℕ) (name : Bytes)
  | link (ino : ℕ)

inductive Reply where
  | facts (mode : UInt16) (uid gid : UInt32)
  | found (entry : Option (ℕ × FileType))
  | target (path : UnixPath)
  | denied

def ask (creds : Creds) : Question → Fs Reply
  | .inode ino => do
    let i ← getInode ino
    pure (.facts i.mode i.uid i.gid)
  | .lookup dir name => do
    let i ← getInode dir
    if i.Unsearchable creds then pure .denied
    else do
      let entry ← dirLookup dir name
      pure (.found entry)
  | .link ino => do
    let i ← getInode ino
    if i.isSymlink = false then pure .denied
    else do
      let path ← readData ino 0 i.size
      pure (.target (resizeBytes path i.size))

/-- The answers to questions asked one after the other, up to the first that fails. -/
def answers (creds : Creds) : List Question → Inner → List (Option (Except Error Reply))
  | [], _ => []
  | q :: rest, s =>
    match ask creds q s with
    | .ok reply t => some (.ok reply) :: answers creds rest t
    | .err e _ => [some (.error e)]
    | .panic => [none]

/-- The states differ, for these credentials, only in what unsearchable directories contain. -/
def DifferHidden (creds : Creds) (s t : Inner) : Prop :=
  ∀ questions, answers creds questions s = answers creds questions t

/-- The same, in states that check permissions. -/
structure Blind (creds : Creds) (s t : Inner) : Prop where
  left : s.checkPerm = true
  right : t.checkPerm = true
  hidden : DifferHidden creds s t

variable {creds : Creds} {s t : Inner}

theorem ask_calm (creds : Creds) (q : Question) : (ask creds q).Respects Calm := by
  cases q with
  | inode ino => exact .bind (getInode_calm ino) fun _ ↦ .pure _
  | lookup dir name =>
    exact .bind (getInode_calm dir) fun _ ↦
      .ite (.pure _) (.bind (dirLookup_calm dir name) fun _ ↦ .pure _)
  | link ino =>
    exact .bind (getInode_calm ino) fun _ ↦
      .ite (.pure _) (.bind (readData_calm _ _ _) fun _ ↦ .pure _)

/-- One question: the same answer, and nothing is given away by it. -/
theorem Blind.ask (h : Blind creds s t) (q : Question) :
    Exec.Agree (ask creds q) (ask creds q) s t (fun a s' b t' ↦ a = b ∧ Blind creds s' t') := by
  have hq : ∀ rest, answers creds (q :: rest) s = answers creds (q :: rest) t := fun rest ↦ h.hidden _
  unfold Exec.Agree
  simp only [answers] at hq
  cases hs : Inner.ask creds q s with
  | ok a s' =>
    cases ht : Inner.ask creds q t with
    | ok b t' =>
      simp only [hs, ht, List.cons.injEq, Option.some.injEq, Except.ok.injEq] at hq ⊢
      refine ⟨(hq []).1, ⟨?_, ?_, fun rest ↦ (hq rest).2⟩⟩
      · rw [((ask_calm creds q).of_ok hs).checkPerm, h.left]
      · rw [((ask_calm creds q).of_ok ht).checkPerm, h.right]
    | err e _ => simp [hs, ht] at hq
    | panic => simp [hs, ht] at hq
  | err e _ =>
    cases ht : Inner.ask creds q t with
    | ok b t' => simp [hs, ht] at hq
    | err e' _ => simpa [hs, ht] using hq
    | panic => simp [hs, ht] at hq
  | panic =>
    cases ht : Inner.ask creds q t with
    | ok b t' => simp [hs, ht] at hq
    | err e' _ => simp [hs, ht] at hq
    | panic => trivial

/-- What the walk knows after reading an inode in both states. -/
structure SameFacts (creds : Creds) (ino : ℕ) (i : Inode) (s : Inner) (j : Inode) (t : Inner) : Prop where
  mode : i.mode = j.mode
  uid : i.uid = j.uid
  gid : i.gid = j.gid
  left : s.inodes.find? ino = some i
  right : t.inodes.find? ino = some j
  blind : Blind creds s t

theorem Blind.getInode (h : Blind creds s t) (ino : ℕ) :
    Exec.Agree (getInode ino) (getInode ino) s t (SameFacts creds ino) := by
  have hfacts := (h.ask (.inode ino)).of_map
  refine (hfacts.and_holds (getInode_found ino s) (getInode_found ino t)).mono ?_
  rintro i s' j t' ⟨⟨hsame, hblind⟩, hi, hj⟩
  obtain ⟨hmode, huid, hgid⟩ := Reply.facts.inj hsame
  exact ⟨hmode, huid, hgid, hi, hj, hblind⟩

/-- The permission check: both runs pass it, and then the directory may be searched, or neither. -/
theorem SameFacts.accessOk {ino : ℕ} {i j : Inode} (h : SameFacts creds ino i s j t) :
    Exec.Agree (accessOk i creds .exec) (accessOk j creds .exec) s t
      (fun _ s' _ t' ↦ (¬i.Unsearchable creds ∧ ¬j.Unsearchable creds) ∧ s' = s ∧ t' = t) := by
  unfold Exec.Agree Inner.accessOk Inode.Unsearchable
  simp only [Exec.bind_apply, Exec.read_apply, h.blind.left, h.blind.right, h.mode, h.uid, h.gid]
  by_cases hacc : checkAccess j.mode j.uid j.gid creds .exec = true
  · simp [hacc]
  · simp [hacc]

theorem ask_lookup {dir : ℕ} {i : Inode} (hfind : s.inodes.find? dir = some i)
    (hi : ¬i.Unsearchable creds) (name : Bytes) :
    ask creds (.lookup dir name) s = (dirLookup dir name >>= fun entry ↦ pure (.found entry)) s := by
  simp only [ask]
  rw [Exec.bind_eq_of_ok (getInode_hit hfind), if_neg hi]

theorem ask_link {ino : ℕ} {i : Inode} (hfind : s.inodes.find? ino = some i)
    (hi : ¬i.isSymlink = false) :
    ask creds (.link ino) s =
      (readData ino 0 i.size >>= fun path ↦ pure (.target (resizeBytes path i.size))) s := by
  simp only [ask]
  rw [Exec.bind_eq_of_ok (getInode_hit hfind), if_neg hi]

/-- A lookup after the check. -/
theorem SameFacts.dirLookup {dir : ℕ} {i j : Inode} (h : SameFacts creds dir i s j t)
    (hi : ¬i.Unsearchable creds) (hj : ¬j.Unsearchable creds) (name : Bytes) :
    Exec.Agree (dirLookup dir name) (dirLookup dir name) s t
      (fun a s' b t' ↦ a = b ∧ Blind creds s' t') := by
  have hask := (h.blind.ask (.lookup dir name)).congr (ask_lookup h.left hi name)
    (ask_lookup h.right hj name)
  exact hask.of_map.mono fun a s' b t' hab ↦ ⟨Reply.found.inj hab.1, hab.2⟩

/-- The target of a link. -/
theorem SameFacts.readLink {ino : ℕ} {i j : Inode} (h : SameFacts creds ino i s j t)
    (hi : ¬i.isSymlink = false) (hj : ¬j.isSymlink = false) :
    Exec.Agree (readData ino 0 i.size) (readData ino 0 j.size) s t
      (fun a s' b t' ↦ resizeBytes a i.size = resizeBytes b j.size ∧ Blind creds s' t') := by
  have hask := (h.blind.ask (.link ino)).congr (ask_link h.left hi) (ask_link h.right hj)
  exact hask.of_map.mono fun a s' b t' hab ↦ ⟨Reply.target.inj hab.1, hab.2⟩

/-- What two runs of a walk end with. -/
def SameResult (creds : Creds) (r : Resolved) (s : Inner) (r' : Resolved) (t : Inner) : Prop :=
  r = r' ∧ Blind creds s t

theorem agree_pure {r : Resolved} (h : Blind creds s t) :
    Exec.Agree (pure r : Fs Resolved) (pure r) s t (SameResult creds) := ⟨rfl, h⟩

theorem agree_throw {e : Error} :
    Exec.Agree (Exec.throw e : Fs Resolved) (Exec.throw e) s t (SameResult creds) := rfl

theorem SameFacts.climb {dir : ℕ} {i j : Inode} (h : SameFacts creds dir i s j t)
    (hi : ¬i.Unsearchable creds) (hj : ¬j.Unsearchable creds) (root : ℕ) :
    Exec.Agree (climb root dir) (climb root dir) s t (fun a s' b t' ↦ a = b ∧ Blind creds s' t') := by
  unfold Inner.climb
  split_ifs
  · refine (h.dirLookup hi hj dotdotName).bind ?_
    rintro found s' found' t' ⟨rfl, hblind⟩
    exact ⟨rfl, hblind⟩
  · exact ⟨rfl, h.blind⟩

/-- Whether an inode is a directory or a link is a matter of its mode. -/
theorem SameFacts.fileType {ino : ℕ} {i j : Inode} (h : SameFacts creds ino i s j t) :
    i.fileType = j.fileType := by
  unfold Inode.fileType
  rw [h.mode]

/-- The loop over the components, by induction on those left. -/
theorem walkFrom_agree {args : WalkArgs} {follow : ℕ → UnixPath → Fs Resolved} (hops : ℕ)
    (hfollow : ∀ dir path s t, Blind args.creds s t →
      Exec.Agree (follow dir path) (follow dir path) s t (SameResult args.creds))
    (comps : List Component) {dir : ℕ} {s t : Inner} (h : Blind args.creds s t) :
    Exec.Agree (walkFrom args follow hops dir comps) (walkFrom args follow hops dir comps) s t
      (SameResult args.creds) := by
  induction comps generalizing dir s t with
  | nil => exact agree_pure h
  | cons c rest ih =>
    cases c with
    | rootDir => exact ih h
    | curDir => exact ih h
    | parentDir =>
      rw [walkFrom_parentDir]
      refine (h.getInode dir).bind ?_
      intro i s₁ j t₁ hfacts
      refine hfacts.accessOk.bind ?_
      rintro _ _ _ _ ⟨⟨hi, hj⟩, rfl, rfl⟩
      refine (hfacts.climb hi hj args.root).bind ?_
      rintro up s₂ _ t₂ ⟨rfl, hblind⟩
      split_ifs
      · exact agree_pure hblind
      · exact ih hblind
    | normal name =>
      unfold walkFrom
      refine (h.getInode dir).bind ?_
      intro i s₁ j t₁ hfacts
      have hisDir : i.isDir = j.isDir := by
        unfold Inode.isDir
        rw [hfacts.fileType]
      by_cases hdir : j.isDir = false
      · rw [if_pos (hisDir.trans hdir), if_pos hdir]
        exact agree_throw
      rw [if_neg (by rw [hisDir]; exact hdir), if_neg hdir]
      refine hfacts.accessOk.bind ?_
      rintro _ _ _ _ ⟨⟨hi, hj⟩, rfl, rfl⟩
      refine (hfacts.dirLookup hi hj name).bind ?_
      rintro found s₂ _ t₂ ⟨rfl, hblind⟩
      cases found with
      | none =>
        dsimp only
        by_cases hlast : rest = []
        · rw [if_pos hlast]
          exact agree_pure hblind
        · rw [if_neg hlast]
          exact agree_throw
      | some entry =>
        dsimp only
        refine (hblind.getInode entry.1).bind ?_
        intro child s₃ child' t₃ hchild
        have hlink : child.isSymlink = child'.isSymlink := by
          unfold Inode.isSymlink
          rw [hchild.fileType]
        by_cases hfollowed : child'.isSymlink = true ∧ (rest ≠ [] ∨ args.followLast = true)
        · rw [if_pos (by rw [hlink]; exact hfollowed), if_pos hfollowed]
          by_cases hhops : symloopMax < hops + 1
          · rw [if_pos hhops, if_pos hhops]
            exact agree_throw
          rw [if_neg hhops, if_neg hhops]
          refine (hchild.readLink ?_ ?_).bind ?_
          · rw [hlink, hfollowed.1]
            decide
          · rw [hfollowed.1]
            decide
          rintro path s₄ path' t₄ ⟨hpath, hblind₄⟩
          rw [hpath]
          exact hfollow dir _ s₄ t₄ hblind₄
        · rw [if_neg (by rw [hlink]; exact hfollowed), if_neg hfollowed]
          by_cases hlast : rest = []
          · rw [if_pos hlast]
            exact agree_pure hchild.blind
          · rw [if_neg hlast]
            exact ih hchild.blind

theorem walk_agree {args : WalkArgs} (depth : ℕ) {start : ℕ} (path : UnixPath) {s t : Inner}
    (h : Blind args.creds s t) :
    Exec.Agree (walk args depth start path) (walk args depth start path) s t (SameResult args.creds) := by
  induction depth generalizing start path s t with
  | zero => trivial
  | succ depth ih =>
    unfold walk
    by_cases hempty : path = []
    · rw [if_pos hempty]
      exact agree_throw
    rw [if_neg hempty]
    dsimp only
    by_cases hnone : UnixPath.components path = []
    · rw [if_pos hnone]
      exact agree_pure h
    · rw [if_neg hnone]
      exact walkFrom_agree 0 (fun dir path u v hblind ↦ ih path hblind) _ h

/-- A walk that checks permissions answers the same in states that differ only in what directories
without search permission contain. -/
theorem walk_blind {args : WalkArgs} {s t : Inner} (hs : s.checkPerm = true) (ht : t.checkPerm = true)
    (hdiffer : DifferHidden args.creds s t) (depth start : ℕ) (path : UnixPath) :
    (walk args depth start path s).answer = (walk args depth start path t).answer :=
  (walk_agree depth path ⟨hs, ht, hdiffer⟩).answer fun _ _ _ _ h ↦ h.1

/-! ## States held in memory -/

/-- Two inodes of which only the contents differ, and only in an unsearchable directory. -/
def HiddenApart (creds : Creds) : Option Inode → Option Inode → Prop
  | none, none => True
  | some i, some j =>
    i = j ∨ (i.Unsearchable creds ∧ i.mode = j.mode ∧ i.uid = j.uid ∧ i.gid = j.gid)
  | _, _ => False

theorem HiddenApart.unsearchable {i j : Inode} (h : HiddenApart creds (some i) (some j))
    (hne : i ≠ j) : i.Unsearchable creds ∧ j.Unsearchable creds := by
  obtain ⟨⟨hdir, hacc⟩, hmode, huid, hgid⟩ := h.resolve_left hne
  refine ⟨⟨hdir, hacc⟩, ?_, ?_⟩
  · unfold Inode.isDir Inode.fileType at hdir ⊢
    rw [← hmode]
    exact hdir
  · rw [← hmode, ← huid, ← hgid]
    exact hacc

/-- The answer of a filesystem held in memory. -/
def residentReply (creds : Creds) (s : Inner) : Question → Except Error Reply
  | .inode ino =>
    match s.inodes.find? ino with
    | none => .error (Error.eio s!"missing inode {ino}")
    | some i => .ok (.facts i.mode i.uid i.gid)
  | .lookup dir name =>
    match s.inodes.find? dir with
    | none => .error (Error.eio s!"missing inode {dir}")
    | some i =>
      if i.Unsearchable creds then .ok .denied
      else
        match residentEntries s dir with
        | .error e => .error e
        | .ok entries =>
          .ok (.found ((entries.find? (fun e ↦ e.name == name)).map (fun e ↦ (e.ino, e.fileType))))
  | .link ino =>
    match s.inodes.find? ino with
    | none => .error (Error.eio s!"missing inode {ino}")
    | some i => if i.isSymlink = false then .ok .denied else .ok (.target i.inlineData)

theorem Resident.ask_eq (h : s.Resident) (q : Question) :
    ask creds q s = Exec.ofExcept (residentReply creds s q) s := by
  cases q with
  | inode ino =>
    simp only [ask, residentReply]
    cases hfind : s.inodes.find? ino with
    | none =>
      rw [Exec.bind_apply, h.getInode_miss hfind]
      rfl
    | some i =>
      rw [Exec.bind_eq_of_ok (getInode_hit hfind)]
      rfl
  | lookup dir name =>
    simp only [ask, residentReply]
    cases hfind : s.inodes.find? dir with
    | none =>
      rw [Exec.bind_apply, h.getInode_miss hfind]
      rfl
    | some i =>
      rw [Exec.bind_eq_of_ok (getInode_hit hfind)]
      dsimp only
      split_ifs
      · rfl
      · unfold dirLookup
        rw [bind_assoc, Exec.bind_apply, h.parseDir_eq]
        cases residentEntries s dir <;> rfl
  | link ino =>
    simp only [ask, residentReply]
    cases hfind : s.inodes.find? ino with
    | none =>
      rw [Exec.bind_apply, h.getInode_miss hfind]
      rfl
    | some i =>
      rw [Exec.bind_eq_of_ok (getInode_hit hfind)]
      dsimp only
      split_ifs
      · rfl
      · rw [Exec.bind_eq_of_ok (h.readData_hit hfind _), min_self, (h.inline ino i hfind).2,
          List.take_length]
        unfold resizeBytes
        rw [List.take_length, Nat.sub_self, List.replicate_zero, List.append_nil]
        rfl

theorem residentReply_eq (h : ∀ ino, HiddenApart creds (s.inodes.find? ino) (t.inodes.find? ino))
    (q : Question) : residentReply creds s q = residentReply creds t q := by
  have same : ∀ ino, s.inodes.find? ino = t.inodes.find? ino ∨ ∃ i j, s.inodes.find? ino = some i ∧
      t.inodes.find? ino = some j ∧ i.Unsearchable creds ∧ j.Unsearchable creds ∧
      i.mode = j.mode ∧ i.uid = j.uid ∧ i.gid = j.gid := by
    intro ino
    have hino := h ino
    cases hs : s.inodes.find? ino with
    | none =>
      cases ht : t.inodes.find? ino with
      | none => exact Or.inl rfl
      | some j =>
        rw [hs, ht] at hino
        exact hino.elim
    | some i =>
      cases ht : t.inodes.find? ino with
      | none =>
        rw [hs, ht] at hino
        exact hino.elim
      | some j =>
        rw [hs, ht] at hino
        by_cases hij : i = j
        · exact Or.inl (by rw [hij])
        · obtain ⟨hi, hj⟩ := hino.unsearchable hij
          obtain ⟨-, hfacts⟩ := hino.resolve_left hij
          exact Or.inr ⟨i, j, rfl, rfl, hi, hj, hfacts⟩
  cases q with
  | inode ino =>
    unfold residentReply
    rcases same ino with heq | ⟨i, j, hs, ht, -, -, hmode, huid, hgid⟩
    · simp only [heq]
    · simp only [hs, ht, hmode, huid, hgid]
  | lookup dir name =>
    unfold residentReply
    rcases same dir with heq | ⟨i, j, hs, ht, hi, hj, -⟩
    · simp only [residentEntries, heq]
    · simp only [hs, ht, if_pos hi, if_pos hj]
  | link ino =>
    unfold residentReply
    rcases same ino with heq | ⟨i, j, hs, ht, hi, hj, -⟩
    · simp only [heq]
    · simp only [hs, ht, if_pos hi.not_symlink, if_pos hj.not_symlink]

/-- States in memory that differ in the contents of unsearchable directories only. -/
theorem Resident.differHidden (hs : s.Resident) (ht : t.Resident)
    (h : ∀ ino, HiddenApart creds (s.inodes.find? ino) (t.inodes.find? ino)) :
    DifferHidden creds s t := by
  intro questions
  induction questions with
  | nil => rfl
  | cons q rest ih =>
    simp only [answers]
    rw [hs.ask_eq, ht.ask_eq, residentReply_eq h]
    cases residentReply creds t q with
    | error e => rfl
    | ok reply => exact congrArg (some (.ok reply) :: ·) ih

/-- A root directory with a directory `a` that only its owner may search. -/
def closedDir (entries : List DirEntry) : Inner :=
  resident ((KeyMap.empty.insert rootIno (residentDir rootIno 0o755
      [⟨rootIno, .directory, dotName⟩, ⟨rootIno, .directory, dotdotName⟩, ⟨11, .directory, [0x61]⟩])).insert
    11 (residentDir 11 0o700 entries))

/-- A user who is not the owner. -/
def stranger : Creds := { Creds.root with fsuid := 1000, fsgid := 1000, groups := [1000] }

/-- Whether `a` contains a file does not show in the walk of `a/x`. -/
theorem walk_blind_closedDir :
    residentEntry (closedDir [⟨12, .file, [0x78]⟩]) 11 [0x78] ≠ residentEntry (closedDir []) 11 [0x78] ∧
      (walk ⟨rootIno, true, stranger⟩ 1 rootIno [0x61, slash, 0x78]
        (closedDir [⟨12, .file, [0x78]⟩])).answer =
      (walk ⟨rootIno, true, stranger⟩ 1 rootIno [0x61, slash, 0x78] (closedDir [])).answer := by
  refine ⟨by decide, walk_blind rfl rfl ?_ _ _ _⟩
  refine Resident.differHidden (resident_ok (by decide)) (resident_ok (by decide)) fun ino ↦ ?_
  by_cases hino : ino = 11
  · rw [hino]
    exact Or.inr ⟨by decide, rfl, rfl, rfl⟩
  · unfold closedDir resident
    dsimp only
    rw [KeyMap.find?_insert_of_ne hino, KeyMap.find?_insert_of_ne hino]
    cases KeyMap.find? _ ino with
    | none => trivial
    | some i => exact Or.inl rfl

end Inner

end LinuxFile
