import LinuxFile.Spec.Resident

/-!
# Confinement of path resolution

A namespace says what each directory's names stand for. A state presents a namespace when its
directories answer as the namespace says, also after any reads. In a namespace where a directory is
named, dots apart, only in the directory its `..` names, no path leads out of the subtree of the root
that a walk is given: `..` is not followed from the root itself, and links are walked again from inside
the subtree.
-/

set_option autoImplicit false

namespace LinuxFile

/-- What the names in each directory stand for, the two dots included. -/
structure Namespace where
  entry : ℕ → Bytes → Option ℕ

namespace Namespace

/-- A name other than the two dots. -/
def Proper (name : Bytes) : Prop := name ≠ dotName ∧ name ≠ dotdotName

def Names (ns : Namespace) (dir ino : ℕ) : Prop := ∃ name, Proper name ∧ ns.entry dir name = some ino

/-- A directory is named only in the directory that its `..` names. -/
def Consistent (ns : Namespace) : Prop :=
  ∀ dir up parent, ns.entry dir dotdotName = some up → ns.Names parent dir → parent = up

/-- The subtree of a directory: the directory itself and what is named in it or below it. -/
inductive Below (ns : Namespace) (root : ℕ) : ℕ → Prop
  | root : Below ns root root
  | child {dir ino : ℕ} (h : Below ns root dir) (hnames : ns.Names dir ino) : Below ns root ino

variable {ns : Namespace} {root : ℕ}

theorem Below.cases_root {ino : ℕ} (h : ns.Below root ino) :
    ino = root ∨ ∃ dir, ns.Below root dir ∧ ns.Names dir ino := by
  cases h with
  | root => exact Or.inl rfl
  | child h hnames => exact Or.inr ⟨_, h, hnames⟩

/-- Below the root `..` stays below the root. -/
theorem Consistent.below_up (h : ns.Consistent) {dir up : ℕ} (hdir : ns.Below root dir)
    (hne : dir ≠ root) (hup : ns.entry dir dotdotName = some up) : ns.Below root up := by
  rcases hdir.cases_root with heq | ⟨parent, hparent, hnames⟩
  · exact absurd heq hne
  · rw [← h dir up parent hup hnames]
    exact hparent

end Namespace

namespace Inner

/-- The states reached by reading: inodes, names in directories, and contents. -/
inductive Reading (s : Inner) : Inner → Prop
  | refl : Reading s s
  | inode {t u : Inner} {ino : ℕ} {i : Inode} (h : Reading s t) (hget : getInode ino t = .ok i u) :
      Reading s u
  | lookup {t u : Inner} {dir : ℕ} {name : Bytes} {found : Option (ℕ × FileType)} (h : Reading s t)
      (hlookup : dirLookup dir name t = .ok found u) : Reading s u
  | content {t u : Inner} {ino count : ℕ} {data : Bytes} (h : Reading s t)
      (hread : readData ino 0 count t = .ok data u) : Reading s u

/-- The directories answer as the namespace says, whatever is read before. -/
def Presents (s : Inner) (ns : Namespace) : Prop :=
  ∀ t, s.Reading t → ∀ dir name found u, dirLookup dir name t = .ok found u →
    found.map Prod.fst = ns.entry dir name

/-- Both inode numbers of a result lie in the subtree of the root. -/
def Confined (ns : Namespace) (root : ℕ) (r : Resolved) : Prop :=
  ns.Below root r.parent ∧ ∀ ino, r.ino = some ino → ns.Below root ino

theorem classify_normal {part name : Bytes} (h : UnixPath.classify part = .normal name) :
    Namespace.Proper name := by
  unfold UnixPath.classify at h
  split_ifs at h with hdot hdotdot
  cases h
  exact ⟨hdot, hdotdot⟩

theorem parts_normal {fuel : ℕ} {bytes name : Bytes}
    (h : Component.normal name ∈ UnixPath.parts fuel bytes) : Namespace.Proper name := by
  induction fuel generalizing bytes with
  | zero => cases h
  | succ fuel ih =>
    unfold UnixPath.parts at h
    dsimp only at h
    split_ifs at h with hempty
    · cases h
    · rcases List.mem_cons.mp h with heq | hmem
      · exact classify_normal heq.symm
      · exact ih hmem

/-- A component that is looked up is none of the dots. -/
theorem components_normal {path : UnixPath} {name : Bytes}
    (h : Component.normal name ∈ UnixPath.components path) : Namespace.Proper name := by
  unfold UnixPath.components at h
  split_ifs at h with habs
  · rcases List.mem_cons.mp h with heq | hmem
    · cases heq
    · exact parts_normal hmem
  · exact parts_normal h

/-- The directory that `..` leads to: nothing leads out of the root. -/
def climb (root dir : ℕ) : Fs ℕ :=
  if dir ≠ root then do
    let found ← dirLookup dir dotdotName
    pure ((found.map Prod.fst).getD dir)
  else pure dir

theorem walkFrom_parentDir (args : WalkArgs) (follow : ℕ → UnixPath → Fs Resolved) (hops dir : ℕ)
    (rest : List Component) :
    walkFrom args follow hops dir (.parentDir :: rest) = (do
      let inode ← getInode dir
      accessOk inode args.creds .exec
      let up ← climb args.root dir
      if rest = [] then pure ⟨up, dotdotName, some up⟩
      else walkFrom args follow hops up rest) := by
  conv_lhs => unfold walkFrom
  unfold climb
  by_cases hne : dir ≠ args.root
  · simp only [if_pos hne, bind_assoc]
  · simp only [if_neg hne]

section Confinement

variable {s : Inner} {ns : Namespace} {args : WalkArgs}

theorem accessOk_holds {t : Inner} {inode : Inode} {creds : Creds} {acc : Access}
    {Q : Unit → Inner → Prop} (h : Q () t) :
    (accessOk inode creds acc).Holds t Q (fun _ _ ↦ True) := by
  unfold accessOk
  rw [Exec.holds_bind, Exec.holds_read]
  split_ifs
  · exact h
  · exact h
  · trivial

theorem getInode_reading {t : Inner} (h : s.Reading t) (ino : ℕ) :
    (getInode ino).Holds t (fun _ u ↦ s.Reading u) (fun _ _ ↦ True) :=
  Exec.holds_of_forall (fun _ _ hget ↦ h.inode hget) (fun _ _ _ ↦ trivial)

theorem dirLookup_reading {t : Inner} (hs : s.Presents ns) (h : s.Reading t) (dir : ℕ) (name : Bytes) :
    (dirLookup dir name).Holds t
      (fun found u ↦ s.Reading u ∧ found.map Prod.fst = ns.entry dir name) (fun _ _ ↦ True) :=
  Exec.holds_of_forall (fun found u hlookup ↦ ⟨h.lookup hlookup, hs t h dir name found u hlookup⟩)
    (fun _ _ _ ↦ trivial)

theorem readData_reading {t : Inner} (h : s.Reading t) (ino count : ℕ) :
    (readData ino 0 count).Holds t (fun _ u ↦ s.Reading u) (fun _ _ ↦ True) :=
  Exec.holds_of_forall (fun _ _ hread ↦ h.content hread) (fun _ _ _ ↦ trivial)

theorem climb_confined {t : Inner} {dir : ℕ} (hs : s.Presents ns) (hns : ns.Consistent)
    (ht : s.Reading t) (hdir : ns.Below args.root dir) :
    (climb args.root dir).Holds t (fun up u ↦ s.Reading u ∧ ns.Below args.root up)
      (fun _ _ ↦ True) := by
  unfold climb
  split_ifs with hne
  · refine (dirLookup_reading hs ht dir dotdotName).bind ?_ (fun _ _ _ ↦ trivial)
    rintro found u ⟨hu, hfound⟩
    refine ⟨hu, ?_⟩
    rw [hfound]
    cases hup : ns.entry dir dotdotName with
    | none => exact hdir
    | some up => exact hns.below_up hdir hne hup
  · exact ⟨ht, hdir⟩

/-- The loop over the components. The induction is on the components left; the current directory stays
below the root. -/
theorem walkFrom_confined {follow : ℕ → UnixPath → Fs Resolved} (hs : s.Presents ns)
    (hns : ns.Consistent) (hops : ℕ)
    (hfollow : ∀ dir path t, s.Reading t → ns.Below args.root dir →
      (follow dir path).Holds t (fun r _ ↦ Confined ns args.root r) (fun _ _ ↦ True))
    (comps : List Component) (hcomps : ∀ name, Component.normal name ∈ comps → Namespace.Proper name)
    {dir : ℕ} {t : Inner} (ht : s.Reading t) (hdir : ns.Below args.root dir) :
    (walkFrom args follow hops dir comps).Holds t (fun r _ ↦ Confined ns args.root r)
      (fun _ _ ↦ True) := by
  have here : ∀ {ino : ℕ} {name : Bytes}, ns.Below args.root ino →
      Confined ns args.root ⟨ino, name, some ino⟩ := by
    intro ino name h
    exact ⟨h, fun _ heq ↦ by cases heq; exact h⟩
  induction comps generalizing dir t with
  | nil => exact here hdir
  | cons c rest ih =>
    have hrest : ∀ name, Component.normal name ∈ rest → Namespace.Proper name :=
      fun name hmem ↦ hcomps name (List.mem_cons_of_mem _ hmem)
    cases c with
    | rootDir => exact ih hrest ht Namespace.Below.root
    | curDir => exact ih hrest ht hdir
    | parentDir =>
      rw [walkFrom_parentDir]
      refine (getInode_reading ht dir).bind ?_ (fun _ _ _ ↦ trivial)
      intro inode t₁ ht₁
      refine (accessOk_holds (Q := fun _ u ↦ s.Reading u) ht₁).bind ?_ (fun _ _ _ ↦ trivial)
      intro _ t₂ ht₂
      refine (climb_confined hs hns ht₂ hdir).bind ?_ (fun _ _ _ ↦ trivial)
      rintro up t₃ ⟨ht₃, hup⟩
      split_ifs
      · exact here hup
      · exact ih hrest ht₃ hup
    | normal name =>
      unfold walkFrom
      refine (getInode_reading ht dir).bind ?_ (fun _ _ _ ↦ trivial)
      intro inode t₁ ht₁
      by_cases hisDir : inode.isDir = false
      · rw [if_pos hisDir]
        trivial
      rw [if_neg hisDir]
      refine (accessOk_holds (Q := fun _ u ↦ s.Reading u) ht₁).bind ?_ (fun _ _ _ ↦ trivial)
      intro _ t₂ ht₂
      refine (dirLookup_reading hs ht₂ dir name).bind ?_ (fun _ _ _ ↦ trivial)
      rintro found t₃ ⟨ht₃, hfound⟩
      cases found with
      | none =>
        dsimp only
        by_cases hlast : rest = []
        · rw [if_pos hlast]
          exact ⟨hdir, fun _ heq ↦ by cases heq⟩
        · rw [if_neg hlast]
          trivial
      | some entry =>
        obtain ⟨ino, ft⟩ := entry
        have hino : ns.Below args.root ino :=
          hdir.child ⟨name, hcomps name List.mem_cons_self, hfound.symm⟩
        dsimp only
        refine (getInode_reading ht₃ ino).bind ?_ (fun _ _ _ ↦ trivial)
        intro child t₄ ht₄
        by_cases hlink : child.isSymlink = true ∧ (rest ≠ [] ∨ args.followLast = true)
        · rw [if_pos hlink]
          by_cases hhops : symloopMax < hops + 1
          · rw [if_pos hhops]
            trivial
          · rw [if_neg hhops]
            refine (readData_reading ht₄ ino child.size).bind ?_ (fun _ _ _ ↦ trivial)
            intro target t₅ ht₅
            exact hfollow dir _ t₅ ht₅ hdir
        · rw [if_neg hlink]
          by_cases hlast : rest = []
          · rw [if_pos hlast]
            exact ⟨hdir, fun _ heq ↦ by cases heq; exact hino⟩
          · rw [if_neg hlast]
            exact ih hrest ht₄ hino

/-- The recursion through links. -/
theorem walk_below (hs : s.Presents ns) (hns : ns.Consistent) (depth : ℕ) {start : ℕ} (path : UnixPath)
    {t : Inner} (ht : s.Reading t) (hstart : ns.Below args.root start) :
    (walk args depth start path).Holds t (fun r _ ↦ Confined ns args.root r) (fun _ _ ↦ True) := by
  induction depth generalizing start path t with
  | zero => trivial
  | succ depth ih =>
    unfold walk
    have hdir : ns.Below args.root (if UnixPath.isAbsolute path then args.root else start) := by
      split_ifs
      · exact Namespace.Below.root
      · exact hstart
    by_cases hempty : path = []
    · rw [if_pos hempty]
      trivial
    rw [if_neg hempty]
    dsimp only
    by_cases hnone : UnixPath.components path = []
    · rw [if_pos hnone]
      exact ⟨Namespace.Below.root, fun _ heq ↦ by cases heq; exact hdir⟩
    · rw [if_neg hnone]
      exact walkFrom_confined hs hns 0 (fun dir path u hu hd ↦ ih path hu hd) _
        (fun name hmem ↦ components_normal hmem) ht hdir

/-- Every inode number a walk returns is the root it was given or is named, by a name other than the
dots, in a directory of the root's subtree. -/
theorem walk_confined (hs : s.Presents ns) (hns : ns.Consistent) {depth start : ℕ} {path : UnixPath}
    {r : Resolved} {t : Inner} (hstart : ns.Below args.root start)
    (hwalk : walk args depth start path s = .ok r t) :
    ∀ ino, ino = r.parent ∨ r.ino = some ino →
      ino = args.root ∨ ∃ dir, ns.Below args.root dir ∧ ns.Names dir ino := by
  have hconfined := (walk_below hs hns depth path Reading.refl hstart).of_ok hwalk
  rintro ino (rfl | hino)
  · exact hconfined.1.cases_root
  · exact (hconfined.2 ino hino).cases_root

/-- The names of a filesystem held in memory. -/
def residentNamespace (s : Inner) : Namespace := ⟨fun dir name ↦ (residentEntry s dir name).map Prod.fst⟩

/-- Reading leaves a filesystem held in memory as it is. -/
theorem Resident.reading_eq (h : s.Resident) {t : Inner} (ht : s.Reading t) : t = s := by
  induction ht with
  | refl => rfl
  | inode _ hget ih =>
    rw [ih] at hget
    exact (h.of_getInode hget).1
  | lookup _ hlookup ih =>
    rw [ih] at hlookup
    exact (h.of_dirLookup hlookup).1
  | content _ hread ih =>
    rw [ih] at hread
    exact h.of_readData hread

theorem Resident.presents (h : s.Resident) : s.Presents s.residentNamespace := by
  intro t ht dir name found u hlookup
  rw [h.reading_eq ht] at hlookup
  rw [(h.of_dirLookup hlookup).2]
  rfl

/-- Whether every entry of a directory in memory, dots apart, names an inode whose `..` leads back. -/
def parentsAgree (s : Inner) : Bool :=
  s.inodes.entries.all fun e ↦
    match residentEntries s e.1 with
    | .error _ => true
    | .ok entries => entries.all fun d ↦
        d.name == dotName || d.name == dotdotName ||
          (s.residentNamespace.entry d.ino dotdotName).all (· == e.1)

theorem parentsAgree_consistent (h : parentsAgree s = true) : s.residentNamespace.Consistent := by
  rintro dir up parent hup ⟨name, hname, hentry⟩
  obtain ⟨entry, hfound, rfl⟩ := Option.map_eq_some_iff.mp hentry
  unfold residentEntry at hfound
  cases hentries : residentEntries s parent with
  | error e =>
    rw [hentries] at hfound
    cases hfound
  | ok entries =>
    rw [hentries] at hfound
    obtain ⟨d, hd, rfl⟩ := Option.map_eq_some_iff.mp hfound
    have hdname : d.name = name := by simpa using List.find?_some hd
    obtain ⟨i, hi⟩ : ∃ i, s.inodes.find? parent = some i := by
      cases hp : s.inodes.find? parent with
      | some i => exact ⟨i, rfl⟩
      | none =>
        unfold residentEntries at hentries
        rw [hp] at hentries
        cases hentries
    have hparent := List.all_eq_true.mp h (parent, i) (KeyMap.find?_eq_some_iff.mp hi)
    dsimp only at hparent hup
    rw [hentries] at hparent
    have hentry := List.all_eq_true.mp hparent d (List.mem_of_find?_eq_some hd)
    rw [hup, hdname] at hentry
    have hne := hname.1
    have hne' := hname.2
    simp only [Bool.or_eq_true, beq_iff_eq, hne, hne', false_or, Option.all_some] at hentry
    exact hentry.symm

/-- A root directory with one directory `a` in it. -/
def twoDirs : Inner :=
  resident ((KeyMap.empty.insert rootIno (residentDir rootIno 0o755
      [⟨rootIno, .directory, dotName⟩, ⟨rootIno, .directory, dotdotName⟩, ⟨11, .directory, [0x61]⟩])).insert
    11 (residentDir 11 0o755 [⟨11, .directory, dotName⟩, ⟨rootIno, .directory, dotdotName⟩]))

theorem twoDirs_consistent : twoDirs.residentNamespace.Consistent := by
  apply parentsAgree_consistent
  decide

/-- In `a` as root directory the path `../..` leads to `a` itself. -/
theorem walk_confined_dotdot : ∃ r t,
    walk ⟨11, true, Creds.root⟩ 1 11 [0x2E, 0x2E, slash, 0x2E, 0x2E] twoDirs = .ok r t ∧
      ∀ ino, ino = r.parent ∨ r.ino = some ino → ino = 11 ∨ ∃ dir,
        twoDirs.residentNamespace.Below 11 dir ∧ twoDirs.residentNamespace.Names dir ino := by
  have hresident : twoDirs.Resident := resident_ok (by decide)
  have hwalk : walk ⟨11, true, Creds.root⟩ 1 11 [0x2E, 0x2E, slash, 0x2E, 0x2E] twoDirs =
      .ok ⟨11, dotdotName, some 11⟩ twoDirs := rfl
  exact ⟨_, _, hwalk, walk_confined hresident.presents twoDirs_consistent Namespace.Below.root hwalk⟩

end Confinement

end Inner

end LinuxFile
