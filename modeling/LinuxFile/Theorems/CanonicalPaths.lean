import LinuxFile.Facade
import LinuxFile.Library.Forest
import LinuxFile.Spec.Paths
import LinuxFile.Spec.TreeView
import LinuxFile.Theorems.SymlinkLoops

/-!
# Canonical paths

`canonicalize` resolves a path to an inode and then climbs from the inode to the root by the `..` entries, looking in
each directory for the name it has come from. The names spell a way down over directories only, which leads back to the
inode. The climb starts in the inode itself, and only a directory has a `..`.
-/

set_option autoImplicit false

namespace LinuxFile

namespace Nodes

variable {f : Nodes} {k p c : ℕ} {names : List Bytes} {name : Bytes}

/-- What the names stand for, the types left out. -/
def naming (f : Nodes) : Namespace := ⟨fun k name ↦ (f.lookup k name).map Prod.fst⟩

/-- A directory with a name in a directory. -/
def Child (f : Nodes) (p c : ℕ) : Prop := ∃ name, Proper name ∧ f.lookup p name = some (c, .directory)

/-- The names lead down from one inode to another, and none of them is a link. -/
inductive Spells (f : Nodes) : ℕ → List Bytes → ℕ → Prop
  | here {k : ℕ} : Spells f k [] k
  | down {names : List Bytes} {name : Bytes} {p k c : ℕ} {ft : FileType} (hproper : Proper name)
      (hlook : f.lookup p name = some (k, ft)) (hplain : ft ≠ .symlink) (h : Spells f k names c) :
      Spells f p (name :: names) c

/-- The directories form a tree of fewer than 4096 levels, and no directory has two entries of one name. -/
structure Shallow (f : Nodes) : Prop where
  shape : f.tree.Shape
  distinct : ∀ k entries, f.dir k = some entries → (entries.map DirEntry.name).Nodup
  depth : ∀ n k, Forest.Generations f.Child rootIno n k → n < 4096

theorem Spells.snoc (h : f.Spells k names p) (hproper : Proper name) (hlook : f.lookup p name = some (c, .directory)) :
    f.Spells k (names ++ [name]) c := by
  induction h with
  | here => exact .down hproper hlook (by simp) .here
  | down hproper' hlook' hplain _ ih => exact .down hproper' hlook' hplain (ih hlook)

theorem Spells.valid (hshape : f.tree.Shape) (h : f.Spells k names c) :
    ∀ name ∈ names, validateName name = .ok () := by
  induction h with
  | here => exact fun name hmem ↦ by cases hmem
  | down hproper hlook _ _ ih =>
    intro other hmem
    rcases List.mem_cons.mp hmem with rfl | hrest
    · exact (hshape.entry _ _ _ _ hlook hproper).1
    · exact ih other hrest

/-- What names lead down to is there. -/
theorem Spells.present (hshape : f.tree.Shape) (h : f.Spells k names c) (hk : f k ≠ none) : f c ≠ none := by
  induction h with
  | here => exact hk
  | down hproper hlook _ _ ih =>
    apply ih
    intro hnone
    have hkind := (hshape.entry _ _ _ _ hlook hproper).2
    rw [Nodes.tree_kind_none.mpr hnone] at hkind
    cases hkind

/-- In the directory that `..` names there is an entry with a name for the directory, and the first one that is found
is that name. -/
theorem Shallow.climb (h : f.Shallow) (hchild : f.Child p k) :
    k ≠ rootIno ∧ f.lookup k dotdotName = some (p, .directory) ∧ ∃ entries e, f.dir p = some entries ∧
      entries.find? (fun e ↦ e.ino == k && e.name != dotName && e.name != dotdotName) = some e ∧ Proper e.name ∧
      f.lookup p e.name = some (k, .directory) := by
  obtain ⟨name, hproper, hlook⟩ := hchild
  obtain ⟨hroot, hup⟩ := h.shape.up p name k hlook hproper
  obtain ⟨entries, hdir⟩ := dir_of_lookup hlook
  have hentry : entryNamed entries name = some (k, .directory) := by
    rw [← lookup_of_dir hdir]
    exact hlook
  obtain ⟨e, he, hname, hv⟩ := entryNamed_mem hentry
  have hfound : (entries.find? (fun e ↦ e.ino == k && e.name != dotName && e.name != dotdotName)).isSome := by
    rw [List.find?_isSome]
    refine ⟨e, he, ?_⟩
    have hino : e.ino = k := (congrArg Prod.fst hv).symm
    simp [hino, hname, hproper.1, hproper.2]
  obtain ⟨first, hfirst⟩ := Option.isSome_iff_exists.mp hfound
  have htest := List.find?_some hfirst
  simp only [Bool.and_eq_true, beq_iff_eq, bne_iff_ne] at htest
  have hfirstProper : Proper first.name := ⟨htest.1.2, htest.2⟩
  have hfirstLook : f.lookup p first.name = some (first.ino, first.fileType) :=
    lookup_of_mem hdir (h.distinct p entries hdir) (List.mem_of_find?_eq_some hfirst)
  rw [htest.1.1] at hfirstLook
  have htype : first.fileType = .directory := h.shape.type_eq hlook hproper hfirstLook hfirstProper
  rw [htype] at hfirstLook
  exact ⟨hroot, hup, entries, first, hdir, hfirst, hfirstProper, hfirstLook⟩

end Nodes

namespace Inner

/-- Reading is answered, and as the nodes say, whatever is read before. -/
structure Shows (s : Inner) (f : Nodes) : Prop where
  naming : s.Presents f.naming
  inode : ∀ t, s.Reading t → ∀ k n, f k = some n → ∃ i u, getInode k t = .ok i u ∧ i.mode = n.mode
  entries : ∀ t, s.Reading t → ∀ k entries, f.dir k = some entries → ∃ u, parseDir k t = .ok entries u

/-- What `canonicalize` is to give for a path that leads to an inode: an absolute path, whose components are names on
the way down to the inode and no links, that leads to the inode without a last link being followed, and that is its own
canonical path. -/
def Canonical (f : Nodes) (s : Inner) (depth : ℕ) (path : UnixPath) (ino : ℕ) : Prop :=
  ∃ q t, Facade.canonicalize depth path s = .ok q t ∧ UnixPath.isAbsolute q = true ∧
    (∃ names, UnixPath.components q = .rootDir :: names.map .normal ∧ f.Spells rootIno names ino) ∧
    ∀ u, s.Reading u →
      (∃ r v, walk ⟨rootIno, false, Creds.root⟩ depth rootIno q u = .ok r v ∧ r.ino = some ino) ∧
      ∃ v, Facade.canonicalize depth q u = .ok q v

variable {f : Nodes} {s t u : Inner} {k ino depth : ℕ} {names : List Bytes}

/-! ## Reads -/

/-- A walk only reads. -/
theorem walkFrom_reading {args : WalkArgs} {follow : ℕ → UnixPath → Fs Resolved} (hops : ℕ)
    (hfollow : ∀ dir path t, s.Reading t → (follow dir path).Holds t (fun _ u ↦ s.Reading u) (fun _ _ ↦ True))
    (comps : List Component) : ∀ {dir : ℕ} {t : Inner}, s.Reading t →
      (walkFrom args follow hops dir comps).Holds t (fun _ u ↦ s.Reading u) (fun _ _ ↦ True) := by
  have hlook : ∀ dir name {t : Inner}, s.Reading t →
      (dirLookup dir name).Holds t (fun _ u ↦ s.Reading u) (fun _ _ ↦ True) :=
    fun dir name t ht ↦ Exec.holds_of_forall (fun _ _ hlookup ↦ ht.lookup hlookup) (fun _ _ _ ↦ trivial)
  induction comps with
  | nil => exact fun ht ↦ ht
  | cons c rest ih =>
    intro dir t ht
    cases c with
    | rootDir => exact ih ht
    | curDir => exact ih ht
    | parentDir =>
      rw [walkFrom_parentDir]
      refine (getInode_reading ht dir).bind ?_ (fun _ _ _ ↦ trivial)
      intro inode t₁ ht₁
      refine (accessOk_holds (Q := fun _ u ↦ s.Reading u) ht₁).bind ?_ (fun _ _ _ ↦ trivial)
      intro _ t₂ ht₂
      have hclimb : (climb args.root dir).Holds t₂ (fun _ u ↦ s.Reading u) (fun _ _ ↦ True) := by
        unfold climb
        split_ifs
        · exact (hlook dir dotdotName ht₂).bind (fun _ _ hu ↦ hu) (fun _ _ _ ↦ trivial)
        · exact ht₂
      refine hclimb.bind ?_ (fun _ _ _ ↦ trivial)
      intro up t₃ ht₃
      by_cases hlast : rest = []
      · rw [if_pos hlast]
        exact ht₃
      · rw [if_neg hlast]
        exact ih ht₃
    | normal name =>
      unfold walkFrom
      refine (getInode_reading ht dir).bind ?_ (fun _ _ _ ↦ trivial)
      intro inode t₁ ht₁
      by_cases hdir : inode.isDir = false
      · rw [if_pos hdir]
        trivial
      rw [if_neg hdir]
      refine (accessOk_holds (Q := fun _ u ↦ s.Reading u) ht₁).bind ?_ (fun _ _ _ ↦ trivial)
      intro _ t₂ ht₂
      refine (hlook dir name ht₂).bind ?_ (fun _ _ _ ↦ trivial)
      intro found t₃ ht₃
      cases found with
      | none =>
        dsimp only
        by_cases hlast : rest = []
        · rw [if_pos hlast]
          exact ht₃
        · rw [if_neg hlast]
          trivial
      | some entry =>
        dsimp only
        refine (getInode_reading ht₃ entry.1).bind ?_ (fun _ _ _ ↦ trivial)
        intro child t₄ ht₄
        by_cases hlink : child.isSymlink = true ∧ (rest ≠ [] ∨ args.followLast = true)
        · rw [if_pos hlink]
          by_cases hhops : symloopMax < hops + 1
          · rw [if_pos hhops]
            trivial
          · rw [if_neg hhops]
            refine (readData_reading ht₄ entry.1 child.size).bind ?_ (fun _ _ _ ↦ trivial)
            intro target t₅ ht₅
            exact hfollow dir _ t₅ ht₅
        · rw [if_neg hlink]
          by_cases hlast : rest = []
          · rw [if_pos hlast]
            exact ht₄
          · rw [if_neg hlast]
            exact ih ht₄

theorem walk_reading (args : WalkArgs) (depth start : ℕ) (path : UnixPath) {t : Inner} (ht : s.Reading t) :
    (walk args depth start path).Holds t (fun _ u ↦ s.Reading u) (fun _ _ ↦ True) := by
  induction depth generalizing start path t with
  | zero => trivial
  | succ depth ih =>
    by_cases hpath : path = []
    · subst hpath
      exact trivial
    · have hloop : (walkFrom args (walk args depth) 0 (startOf args start path) (UnixPath.components path)).Holds t
          (fun _ u ↦ s.Reading u) (fun _ _ ↦ True) := walkFrom_reading 0 (fun dir path u hu ↦ ih dir path hu) _ ht
      unfold Exec.Holds at hloop ⊢
      rw [walk_succ hpath]
      exact hloop

/-- The superuser may search every directory. -/
theorem accessOk_root {i : Inode} (h : i.fileType = .directory) (t : Inner) : accessOk i Creds.root .exec t = .ok () t := by
  have hdir : (FileType.fromMode i.mode).isDir = true := by
    change i.fileType.isDir = true
    rw [h]
    rfl
  have haccess : checkAccess i.mode i.uid i.gid Creds.root .exec = true := by
    unfold checkAccess
    rw [if_pos (by decide), hdir]
    simp
  unfold accessOk
  rw [Exec.bind_eq_of_ok (Exec.read_apply _ _), haccess]
  by_cases hcheck : t.checkPerm = false
  · rw [if_pos hcheck]
    rfl
  · rw [if_neg hcheck, if_pos rfl]
    rfl

namespace Shows

variable (h : s.Shows f)

include h

theorem fileType {n : Node} {i : Inode} (ht : s.Reading t) (hk : f k = some n) (hget : getInode k t = .ok i u) :
    some i.fileType = f.tree.kind k := by
  obtain ⟨j, v, hagain, hmode⟩ := h.inode t ht k n hk
  rw [hget] at hagain
  cases hagain
  rw [Nodes.tree_kind hk, ← hmode]
  rfl

/-- A directory can be looked into. -/
theorem lookup {entries : List DirEntry} (ht : s.Reading t) (hdir : f.dir k = some entries) (name : Bytes) :
    ∃ u, dirLookup k name t = .ok (entryNamed entries name) u ∧ s.Reading u := by
  obtain ⟨u, hparse⟩ := h.entries t ht k entries hdir
  have hlookup : dirLookup k name t = .ok (entryNamed entries name) u := by
    unfold dirLookup
    rw [Exec.bind_eq_of_ok hparse]
    rfl
  exact ⟨u, hlookup, ht.lookup hlookup⟩

theorem parse {entries : List DirEntry} (ht : s.Reading t) (hdir : f.dir k = some entries) :
    ∃ u, parseDir k t = .ok entries u ∧ s.Reading u := by
  obtain ⟨u, hparse⟩ := h.entries t ht k entries hdir
  have hlookup : dirLookup k [] t = .ok (entryNamed entries []) u := by
    unfold dirLookup
    rw [Exec.bind_eq_of_ok hparse]
    rfl
  exact ⟨u, hparse, ht.lookup hlookup⟩

theorem read {ft : FileType} (ht : s.Reading t) (hk : f.tree.kind k = some ft) :
    ∃ i u, getInode k t = .ok i u ∧ i.fileType = ft ∧ s.Reading u := by
  obtain ⟨n, hn⟩ : ∃ n, f k = some n := Option.ne_none_iff_exists'.mp fun hnone ↦ by
    rw [Nodes.tree_kind_none.mpr hnone] at hk
    cases hk
  obtain ⟨i, u, hget, -⟩ := h.inode t ht k n hn
  exact ⟨i, u, hget, Option.some.inj ((h.fileType ht hn hget).trans hk), ht.inode hget⟩

/-- What is no directory cannot be looked into. -/
theorem not_directory (ht : s.Reading t) (hk : f.tree.kind k ≠ some .directory) (name : Bytes) (hne : f k ≠ none) :
    ∀ found u, dirLookup k name t ≠ .ok found u := by
  intro found u hlookup
  obtain ⟨n, hn⟩ := Option.ne_none_iff_exists'.mp hne
  obtain ⟨entries, v, hparse, -⟩ := Exec.bind_ok_iff.mp hlookup
  unfold parseDir at hparse
  obtain ⟨i, w, hget, hparse⟩ := Exec.bind_ok_iff.mp hparse
  have htype := h.fileType ht hn hget
  have hdir : i.isDir = false := by
    unfold Inode.isDir
    cases hft : i.fileType with
    | directory =>
      rw [hft] at htype
      exact absurd htype.symm hk
    | _ => rfl
  rw [if_pos hdir] at hparse
  cases hparse

end Shows

/-! ## Up and down -/

/-- A directory so many levels below the root is climbed from in as many rounds, and the names that are collected lead
down to it. -/
theorem climbNames_climbs {n : ℕ} (h : s.Shows f) (hf : f.Shallow) (hdeep : Forest.Generations f.Child rootIno n k) :
    ∃ names, f.Spells rootIno names k ∧ ∀ rounds, n ≤ rounds → ∀ above t, s.Reading t →
      ∃ u, Facade.climbNames rounds k above t = .ok (above ++ names.reverse) u ∧ s.Reading u := by
  induction hdeep with
  | zero =>
    refine ⟨[], .here, fun rounds _ above t ht ↦ ⟨t, ?_, ht⟩⟩
    cases rounds with
    | zero => simp [Facade.climbNames]
    | succ rounds => simp [Facade.climbNames]
  | @succ n p c hdeep hchild ih =>
    obtain ⟨names, hspells, hclimbs⟩ := ih
    obtain ⟨hroot, hup, entries, e, hdir, hfind, hproper, hlook⟩ := hf.climb hchild
    obtain ⟨own, hown⟩ := Nodes.dir_of_lookup hup
    have hparent : entryNamed own dotdotName = some (p, .directory) := by
      rw [← Nodes.lookup_of_dir hown]
      exact hup
    refine ⟨names ++ [e.name], hspells.snoc hproper hlook, fun rounds hrounds above t ht ↦ ?_⟩
    obtain ⟨rounds, rfl⟩ : ∃ m, rounds = m + 1 := ⟨rounds - 1, by omega⟩
    obtain ⟨t₁, hlookup, ht₁⟩ := h.lookup ht hown dotdotName
    obtain ⟨t₂, hparse, ht₂⟩ := h.parse ht₁ hdir
    obtain ⟨u, hrest, hu⟩ := hclimbs rounds (by omega) (above ++ [e.name]) t₂ ht₂
    refine ⟨u, ?_, hu⟩
    unfold Facade.climbNames
    rw [if_neg hroot, Exec.bind_eq_of_ok hlookup, hparent, Option.map_some, Option.getD_some, Exec.bind_eq_of_ok hparse, hfind, List.reverse_append,
      List.reverse_singleton, List.singleton_append]
    rw [List.append_assoc, List.singleton_append] at hrest
    exact hrest

/-- The walk follows names that lead down. -/
theorem walkFrom_spells (args : WalkArgs) (h : s.Shows f) (hshape : f.tree.Shape) (hcreds : args.creds = Creds.root)
    (follow : ℕ → UnixPath → Fs Resolved) (hspells : f.Spells k names ino) : ∀ t, s.Reading t →
      ∃ r u, walkFrom args follow 0 k (names.map .normal) t = .ok r u ∧ r.ino = some ino ∧ s.Reading u := by
  induction hspells with
  | here => exact fun t ht ↦ ⟨_, t, rfl, rfl, ht⟩
  | @down names name p k c ft hproper hlook hplain hspells ih =>
    intro t ht
    obtain ⟨entries, hdir⟩ := Nodes.dir_of_lookup hlook
    have hentry : entryNamed entries name = some (k, ft) := by
      rw [← Nodes.lookup_of_dir hdir]
      exact hlook
    obtain ⟨i, t₁, hget, htype, ht₁⟩ := h.read ht (hshape.owner p name _ hlook)
    obtain ⟨t₂, hlookup, ht₂⟩ := h.lookup ht₁ hdir name
    obtain ⟨child, t₃, hchild, hchildType, ht₃⟩ := h.read ht₂ (hshape.entry p name k ft hlook hproper).2
    have hisDir : i.isDir = true := by
      unfold Inode.isDir
      rw [htype]
      rfl
    have hlink : child.isSymlink = false := by
      unfold Inode.isSymlink
      rw [hchildType]
      cases ft with
      | symlink => exact absurd rfl hplain
      | _ => rfl
    obtain ⟨r, u, hrest, hino, hu⟩ := ih t₃ ht₃
    rw [List.map_cons]
    unfold walkFrom
    rw [Exec.bind_eq_of_ok hget, if_neg (by rw [hisDir]; decide), hcreds, Exec.bind_eq_of_ok (accessOk_root htype t₁),
      Exec.bind_eq_of_ok hlookup, hentry]
    dsimp only
    rw [Exec.bind_eq_of_ok hchild, if_neg (by rw [hlink]; simp)]
    by_cases hlast : names = []
    · subst hlast
      cases hspells
      exact ⟨_, t₃, rfl, rfl, ht₃⟩
    · rw [if_neg (by simpa using hlast)]
      exact ⟨r, u, hrest, hino, hu⟩

/-- The canonical path of a directory, found in every state that reading leads to. -/
theorem pathOf_spells {n : ℕ} (h : s.Shows f) (hf : f.Shallow) (hdeep : Forest.Generations f.Child rootIno n k) :
    ∃ names, f.Spells rootIno names k ∧ ∀ t, s.Reading t →
      ∃ u, Facade.pathOf k t = .ok (names.foldl UnixPath.push [slash]) u ∧ s.Reading u := by
  by_cases hroot : k = rootIno
  · subst hroot
    exact ⟨[], .here, fun t ht ↦ ⟨t, rfl, ht⟩⟩
  · have hrounds : n ≤ 4096 := (hf.depth n k hdeep).le
    obtain ⟨names, hspells, hclimbs⟩ := climbNames_climbs h hf hdeep
    refine ⟨names, hspells, fun t ht ↦ ?_⟩
    obtain ⟨u, hclimb, hu⟩ := hclimbs 4096 hrounds [] t ht
    rw [List.nil_append] at hclimb
    refine ⟨u, ?_, hu⟩
    unfold Facade.pathOf
    rw [if_neg hroot, Exec.bind_eq_of_ok hclimb, List.reverse_reverse]
    rfl

/-- The names put behind the root lead to the inode, whether or not a last link is followed. -/
theorem walk_spells (h : s.Shows f) (hshape : f.tree.Shape) (hspells : f.Spells rootIno names ino) (followLast : Bool)
    (depth : ℕ) {t : Inner} (ht : s.Reading t) :
    ∃ r u, walk ⟨rootIno, followLast, Creds.root⟩ (depth + 1) rootIno (names.foldl UnixPath.push [slash]) t = .ok r u ∧
      r.ino = some ino ∧ s.Reading u := by
  obtain ⟨habs, hcomps⟩ := UnixPath.components_pushed names (hspells.valid hshape)
  have hne : names.foldl UnixPath.push [slash] ≠ [] := by
    intro hnil
    rw [hnil] at habs
    cases habs
  rw [walk_succ hne, hcomps]
  exact walkFrom_spells ⟨rootIno, followLast, Creds.root⟩ h hshape rfl _ hspells t ht

/-! ## What the path leads to -/

/-- In a tree a directory is named only where its `..` leads. -/
theorem naming_consistent (hshape : f.tree.Shape) : f.naming.Consistent := by
  rintro dir up parent hup ⟨name, hproper, hentry⟩
  obtain ⟨⟨up', upType⟩, hlookUp, rfl⟩ := Option.map_eq_some_iff.mp hup
  obtain ⟨⟨dir', ft⟩, hlook, rfl⟩ := Option.map_eq_some_iff.mp hentry
  have hlook' : f.tree.look parent name = some (dir', ft) := hlook
  have hkind := (hshape.entry parent name dir' ft hlook' hproper).2
  have hdir := hshape.owner dir' dotdotName _ hlookUp
  rw [hkind] at hdir
  cases hdir
  have hback : f.lookup dir' dotdotName = some (parent, .directory) := (hshape.up parent name dir' hlook' hproper).2
  have hsame : some (up', upType) = some (parent, .directory) := hlookUp.symm.trans hback
  cases hsame
  rfl

/-- A directory below the root is so many levels below it. -/
theorem generations_of_below (hshape : f.tree.Shape) (hbelow : f.naming.Below rootIno k)
    (hk : f.tree.kind k = some .directory) : ∃ n, Forest.Generations f.Child rootIno n k := by
  induction hbelow with
  | root => exact ⟨0, .zero⟩
  | @child dir k _ hnames ih =>
    obtain ⟨name, hproper, hentry⟩ := hnames
    obtain ⟨⟨k', ft⟩, hlook, rfl⟩ := Option.map_eq_some_iff.mp hentry
    have hkind := (hshape.entry dir name k' ft hlook hproper).2
    rw [hkind] at hk
    cases hk
    obtain ⟨n, hn⟩ := ih (hshape.owner dir name _ hlook)
    exact ⟨n + 1, hn.succ ⟨name, hproper, hlook⟩⟩

theorem resolve_of_walk {path : UnixPath} {r : Resolved}
    (hwalk : walk ⟨rootIno, true, Creds.root⟩ depth rootIno path s = .ok r t) (hino : r.ino = some ino) :
    Facade.resolve depth path s = .ok ino t := by
  unfold Facade.resolve
  rw [Exec.bind_eq_of_ok hwalk, hino]
  rfl

theorem canonicalize_of_walk {path : UnixPath} {r : Resolved}
    (hwalk : walk ⟨rootIno, true, Creds.root⟩ depth rootIno path s = .ok r t) (hino : r.ino = some ino) :
    Facade.canonicalize depth path s = Facade.pathOf ino t := by
  unfold Facade.canonicalize
  rw [Exec.bind_eq_of_ok (resolve_of_walk hwalk hino)]

/-- The canonical path of a directory. -/
theorem canonical_of_directory {path : UnixPath} {r : Resolved} (h : s.Shows f) (hf : f.Shallow)
    (hwalk : walk ⟨rootIno, true, Creds.root⟩ depth rootIno path s = .ok r t) (hino : r.ino = some ino)
    (hdir : f.tree.kind ino = some .directory) : Canonical f s depth path ino := by
  have hconfined : (walk ⟨rootIno, true, Creds.root⟩ depth rootIno path).Holds s
      (fun r _ ↦ Confined f.naming rootIno r) (fun _ _ ↦ True) :=
    walk_below h.naming (naming_consistent hf.shape) depth path Reading.refl Namespace.Below.root
  have hbelow := hconfined.of_ok hwalk
  have ht : s.Reading t := (walk_reading _ depth rootIno path Reading.refl).of_ok hwalk
  obtain ⟨n, hdeep⟩ := generations_of_below hf.shape (hbelow.2 ino hino) hdir
  obtain ⟨names, hspells, hpath⟩ := pathOf_spells h hf hdeep
  obtain ⟨habs, hcomps⟩ := UnixPath.components_pushed names (hspells.valid hf.shape)
  obtain ⟨depth, rfl⟩ : ∃ d, depth = d + 1 := by
    cases depth with
    | zero => cases hwalk
    | succ d => exact ⟨d, rfl⟩
  obtain ⟨v, hv, -⟩ := hpath t ht
  refine ⟨_, v, (canonicalize_of_walk hwalk hino).trans hv, habs, ⟨names, hcomps, hspells⟩, fun u hu ↦ ⟨?_, ?_⟩⟩
  · obtain ⟨r', w, hlast, hfound, -⟩ := walk_spells h hf.shape hspells false depth hu
    exact ⟨r', w, hlast, hfound⟩
  · obtain ⟨r', w, hlast, hfound, hw⟩ := walk_spells h hf.shape hspells true depth hu
    obtain ⟨x, hx, -⟩ := hpath w hw
    exact ⟨x, (canonicalize_of_walk hlast hfound).trans hx⟩

/-- Without a `..` in the inode itself the climb does not start. -/
theorem not_canonicalized {path : UnixPath} {r : Resolved} (h : s.Shows f) (hshape : f.tree.Shape)
    (hwalk : walk ⟨rootIno, true, Creds.root⟩ depth rootIno path s = .ok r t) (hino : r.ino = some ino)
    (hpresent : f ino ≠ none) (hnot : f.tree.kind ino ≠ some .directory) :
    ∀ q u, Facade.canonicalize depth path s ≠ .ok q u := by
  intro q u hq
  have ht : s.Reading t := (walk_reading _ depth rootIno path Reading.refl).of_ok hwalk
  have hroot : ino ≠ rootIno := by
    rintro rfl
    exact hnot hshape.root
  rw [canonicalize_of_walk hwalk hino] at hq
  unfold Facade.pathOf at hq
  rw [if_neg hroot] at hq
  obtain ⟨components, v, hclimb, -⟩ := Exec.bind_ok_iff.mp hq
  unfold Facade.climbNames at hclimb
  rw [if_neg hroot] at hclimb
  obtain ⟨up, w, hlookup, -⟩ := Exec.bind_ok_iff.mp hclimb
  exact h.not_directory ht hnot dotdotName hpresent up w hlookup

/-- The canonical path of what a path leads to is as it should be exactly if the path leads to a directory. -/
theorem canonical_iff_directory {path : UnixPath} {r : Resolved} (h : s.Shows f) (hf : f.Shallow)
    (hwalk : walk ⟨rootIno, true, Creds.root⟩ depth rootIno path s = .ok r t) (hino : r.ino = some ino) :
    Canonical f s depth path ino ↔ f.tree.kind ino = some .directory := by
  constructor
  · rintro ⟨q, u, hq, -, ⟨names, -, hspells⟩, -⟩
    have hroot : f rootIno ≠ none := by
      intro hnone
      have hkind := hf.shape.root
      rw [Nodes.tree_kind_none.mpr hnone] at hkind
      cases hkind
    by_contra hnot
    exact not_canonicalized h hf.shape hwalk hino (hspells.present hf.shape hroot) hnot q u hq
  · exact canonical_of_directory h hf hwalk hino

/-! ## A file and a directory -/

/-- The nodes of a filesystem held in memory. -/
def residentNodes (s : Inner) : Nodes := fun k ↦ (s.inodes.find? k).map fun i ↦ i.toNode i.inlineData

theorem residentNodes_dir (s : Inner) (k : ℕ) : s.residentNodes.dir k = (residentEntries s k).toOption := by
  unfold Nodes.dir residentNodes residentEntries
  cases s.inodes.find? k with
  | none => rfl
  | some i =>
    have hdir : (i.toNode i.inlineData).isDir = i.isDir := rfl
    dsimp only
    by_cases hi : i.isDir = true
    · rw [if_neg (by rw [hi]; decide)]
      exact Node.entries_of_dir (hdir.trans hi)
    · rw [if_pos (Bool.eq_false_iff.mpr hi)]
      exact Node.entries_of_file (hdir.trans (Bool.eq_false_iff.mpr hi))

theorem residentNodes_lookup (s : Inner) (k : ℕ) (name : Bytes) : s.residentNodes.lookup k name = residentEntry s k name := by
  unfold Nodes.lookup residentEntry
  rw [residentNodes_dir]
  cases residentEntries s k <;> rfl

theorem Resident.shows (h : s.Resident) : s.Shows s.residentNodes where
  naming := by
    have hsame : s.residentNodes.naming = s.residentNamespace := by
      unfold Nodes.naming residentNamespace
      simp only [residentNodes_lookup]
    rw [hsame]
    exact h.presents
  inode t ht k n hk := by
    obtain ⟨i, hi, rfl⟩ := Option.map_eq_some_iff.mp hk
    rw [h.reading_eq ht]
    exact ⟨i, s, getInode_hit hi, rfl⟩
  entries t ht k entries hdir := by
    rw [residentNodes_dir] at hdir
    rw [h.reading_eq ht, h.parseDir_eq]
    cases hread : residentEntries s k with
    | error e =>
      rw [hread] at hdir
      cases hdir
    | ok found =>
      rw [hread] at hdir
      cases hdir
      exact ⟨s, rfl⟩

/-- A root directory with a file `a` and a directory `b`. -/
def branching : Inner :=
  resident (((KeyMap.empty.insert rootIno (residentDir rootIno 0o755
      [⟨rootIno, .directory, dotName⟩, ⟨rootIno, .directory, dotdotName⟩, ⟨11, .file, [0x61]⟩,
        ⟨12, .directory, [0x62]⟩])).insert
    11 (Inode.new ⟨0, 0⟩ 11 (sIfreg ||| 0o644) 0 0)).insert
    12 (residentDir 12 0o755 [⟨12, .directory, dotName⟩, ⟨rootIno, .directory, dotdotName⟩]))

theorem branching_kind {ft : FileType} (h : branching.residentNodes.tree.kind k = some ft) :
    k = rootIno ∧ ft = .directory ∨ k = 11 ∧ ft = .file ∨ k = 12 ∧ ft = .directory := by
  by_cases hroot : k = rootIno
  · subst hroot
    cases h
    exact Or.inl ⟨rfl, rfl⟩
  by_cases ha : k = 11
  · subst ha
    cases h
    exact Or.inr (Or.inl ⟨rfl, rfl⟩)
  by_cases hb : k = 12
  · subst hb
    cases h
    exact Or.inr (Or.inr ⟨rfl, rfl⟩)
  · have hnone : branching.inodes.find? k = none := by
      unfold branching resident
      dsimp only
      rw [KeyMap.find?_insert_of_ne hb, KeyMap.find?_insert_of_ne ha, KeyMap.find?_insert_of_ne hroot]
      rfl
    unfold Nodes.tree residentNodes at h
    dsimp only at h
    rw [hnone] at h
    cases h

theorem branching_dir {entries : List DirEntry} (h : branching.residentNodes.dir k = some entries) :
    k = rootIno ∧ entries = [⟨rootIno, .directory, dotName⟩, ⟨rootIno, .directory, dotdotName⟩, ⟨11, .file, [0x61]⟩,
      ⟨12, .directory, [0x62]⟩] ∨
    k = 12 ∧ entries = [⟨12, .directory, dotName⟩, ⟨rootIno, .directory, dotdotName⟩] := by
  obtain ⟨n, hn, hentries⟩ := Option.bind_eq_some_iff.mp h
  rcases branching_kind (Nodes.tree_kind hn) with ⟨rfl, -⟩ | ⟨rfl, -⟩ | ⟨rfl, -⟩
  · cases h
    exact Or.inl ⟨rfl, rfl⟩
  · cases h
  · cases h
    exact Or.inr ⟨rfl, rfl⟩

theorem branching_lookup {name : Bytes} {ft : FileType} (h : branching.residentNodes.lookup k name = some (ino, ft)) :
    (k = rootIno ∨ k = 12) ∧ (name = dotName ∨ name = dotdotName ∨
      k = rootIno ∧ (name = [0x61] ∧ ino = 11 ∧ ft = .file ∨ name = [0x62] ∧ ino = 12 ∧ ft = .directory)) := by
  obtain ⟨entries, hdir, hentry⟩ := Option.bind_eq_some_iff.mp h
  obtain ⟨e, he, rfl, hv⟩ := Nodes.entryNamed_mem hentry
  cases hv
  rcases branching_dir hdir with ⟨rfl, rfl⟩ | ⟨rfl, rfl⟩
  · simp only [List.mem_cons, List.not_mem_nil, or_false] at he
    rcases he with rfl | rfl | rfl | rfl <;> simp
  · simp only [List.mem_cons, List.not_mem_nil, or_false] at he
    rcases he with rfl | rfl <;> simp

theorem branching_proper {name : Bytes} {ft : FileType} (h : branching.residentNodes.tree.look k name = some (ino, ft))
    (hproper : Proper name) :
    k = rootIno ∧ (name = [0x61] ∧ ino = 11 ∧ ft = .file ∨ name = [0x62] ∧ ino = 12 ∧ ft = .directory) := by
  rcases (branching_lookup h).2 with hdot | hdotdot | hnamed
  · exact absurd hdot hproper.1
  · exact absurd hdotdot hproper.2
  · exact hnamed

theorem branching_shape : branching.residentNodes.tree.Shape where
  finite := by
    apply Set.Finite.subset (Set.toFinite (({rootIno, 12} : Set ℕ) ×ˢ
      ({dotName, dotdotName, [0x61], [0x62]} : Set Bytes)))
    intro q hq
    obtain ⟨⟨c, ft⟩, hlook⟩ := Option.ne_none_iff_exists'.mp hq
    have hrow := branching_lookup hlook
    simp only [Set.mem_prod, Set.mem_insert_iff, Set.mem_singleton_iff]
    tauto
  root := rfl
  top := rfl
  owner k name v hlook := by
    obtain ⟨c, ft⟩ := v
    rcases (branching_lookup hlook).1 with rfl | rfl <;> rfl
  dot k hk := by
    rcases branching_kind hk with ⟨rfl, -⟩ | ⟨-, hft⟩ | ⟨rfl, -⟩
    · rfl
    · cases hft
    · rfl
  dotdot k hk := by
    rcases branching_kind hk with ⟨rfl, -⟩ | ⟨-, hft⟩ | ⟨rfl, -⟩
    · exact ⟨rootIno, rfl⟩
    · cases hft
    · exact ⟨rootIno, rfl⟩
  entry p name c ft hlook hproper := by
    obtain ⟨rfl, ⟨rfl, rfl, rfl⟩ | ⟨rfl, rfl, rfl⟩⟩ := branching_proper hlook hproper
    · exact ⟨rfl, rfl⟩
    · exact ⟨rfl, rfl⟩
  up p name c hlook hproper := by
    obtain ⟨rfl, ⟨-, -, hft⟩ | ⟨rfl, rfl, -⟩⟩ := branching_proper hlook hproper
    · cases hft
    · exact ⟨by decide, rfl⟩
  once p name name' c ft hlook hlook' hproper hproper' := by
    obtain ⟨-, ⟨-, -, hft⟩ | ⟨rfl, rfl, -⟩⟩ := branching_proper hlook hproper
    · cases hft
    · obtain ⟨-, ⟨-, hc, -⟩ | ⟨rfl, -⟩⟩ := branching_proper hlook' hproper'
      · cases hc
      · rfl

theorem branching_shallow : branching.residentNodes.Shallow where
  shape := branching_shape
  distinct k entries hdir := by
    rcases branching_dir hdir with ⟨-, rfl⟩ | ⟨-, rfl⟩ <;> decide
  depth n k hdeep := by
    have hchild : ∀ {p c : ℕ}, branching.residentNodes.Child p c → p = rootIno ∧ c = 12 := by
      rintro p c ⟨name, hproper, hlook⟩
      obtain ⟨hp, ⟨-, -, hft⟩ | ⟨-, hc, -⟩⟩ := branching_proper hlook hproper
      · cases hft
      · exact ⟨hp, hc⟩
    cases hdeep with
    | zero => decide
    | succ hdeep hlast =>
      obtain ⟨hp, -⟩ := hchild hlast
      cases hdeep with
      | zero => decide
      | succ _ hfirst =>
        obtain ⟨-, hc⟩ := hchild hfirst
        rw [hp] at hc
        cases hc

theorem branching_shows : branching.Shows branching.residentNodes :=
  (resident_ok (by decide)).shows

/-- The walk of a name leads to its inode. -/
theorem branching_walk (byte : UInt8) (ino : ℕ)
    (h : (walk ⟨rootIno, true, Creds.root⟩ 1 rootIno [byte] branching).okAnd (fun r _ ↦ decide (r.ino = some ino)) = true) :
    ∃ r t, walk ⟨rootIno, true, Creds.root⟩ 1 rootIno [byte] branching = .ok r t ∧ r.ino = some ino := by
  obtain ⟨r, t, hwalk, hino⟩ := Outcome.exists_of_okAnd h
  exact ⟨r, t, hwalk, of_decide_eq_true hino⟩

/-- The directory `b` has a canonical path. -/
theorem canonical_sample : ∃ r t, walk ⟨rootIno, true, Creds.root⟩ 1 rootIno [0x62] branching = .ok r t ∧
    r.ino = some 12 ∧ (Canonical branching.residentNodes branching 1 [0x62] 12 ↔
      branching.residentNodes.tree.kind 12 = some .directory) := by
  obtain ⟨r, t, hwalk, hino⟩ := branching_walk 0x62 12 (by decide +kernel)
  exact ⟨r, t, hwalk, hino, canonical_iff_directory branching_shows branching_shallow hwalk hino⟩

/-- The file `a` has none: the call is an error. -/
theorem file_not_canonicalized : branching.Shows branching.residentNodes ∧ branching.residentNodes.Shallow ∧
    ∃ r t, walk ⟨rootIno, true, Creds.root⟩ 1 rootIno [0x61] branching = .ok r t ∧ r.ino = some 11 ∧
      ¬Canonical branching.residentNodes branching 1 [0x61] 11 := by
  obtain ⟨r, t, hwalk, hino⟩ := branching_walk 0x61 11 (by decide +kernel)
  refine ⟨branching_shows, branching_shallow, r, t, hwalk, hino, ?_⟩
  rintro ⟨q, u, hq, -⟩
  have hpresent : branching.residentNodes 11 ≠ none := fun hnone ↦ by cases hnone
  have hnot : branching.residentNodes.tree.kind 11 ≠ some .directory := fun hdir ↦ by cases hdir
  exact not_canonicalized branching_shows branching_shape hwalk hino hpresent hnot q u hq

end Inner

end LinuxFile
