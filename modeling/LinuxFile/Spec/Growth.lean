import LinuxFile.Spec.Resolve
import LinuxFile.Spec.TreeSteps

/-!
# Paths in a growing namespace

A namespace grows when names are added that were free and files get other bytes. Every path that leads somewhere
leads to the same place afterwards; a path that ended at a free name ends at what the name was given to.
-/

namespace LinuxFile

/-- The result of a walk after its last name has been looked up again. -/
def Resolved.completed (g : Nodes) (r : Resolved) : Resolved :=
  { r with ino := r.ino <|> (g.lookup r.parent r.name).map Prod.fst }

theorem Resolved.completed_of_ino {r : Resolved} (h : r.ino ≠ none) (g : Nodes) : r.completed g = r := by
  obtain ⟨parent, name, found⟩ := r
  cases found with
  | none => exact absurd rfl h
  | some k => rfl

open LinuxFile.Inner

namespace Nodes

variable {f g h : Nodes} {new : ℕ → Bytes → Prop} {k : ℕ} {n : Node}

/-- What the walk sees of an inode stays. -/
structure Alike (n n' : Node) : Prop where
  mode : n'.mode = n.mode
  uid : n'.uid = n.uid
  gid : n'.gid = n.gid
  bytes : (FileType.fromMode n.mode).isSymlink = true → n'.bytes = n.bytes

/-- The names in `new` are added, and what was there looks alike. -/
structure Grows (f g : Nodes) (new : ℕ → Bytes → Prop) : Prop where
  node : ∀ k n, f k = some n → ∃ n', g k = some n' ∧ Alike n n'
  names : ∀ k entries, f.dir k = some entries → ∃ entries', g.dir k = some entries' ∧
    ∀ name, ¬new k name → entryNamed entries' name = entryNamed entries name
  fresh : ∀ k name, new k name → f.lookup k name = none ∧ name ≠ dotdotName

theorem Alike.refl (n : Node) : Alike n n := ⟨rfl, rfl, rfl, fun _ ↦ rfl⟩

theorem Alike.trans {n n' n'' : Node} (h : Alike n n') (h' : Alike n' n'') : Alike n n'' where
  mode := h'.mode.trans h.mode
  uid := h'.uid.trans h.uid
  gid := h'.gid.trans h.gid
  bytes hlink := by
    rw [h'.bytes (by rw [h.mode]; exact hlink), h.bytes hlink]

theorem Alike.allows {n n' : Node} (h : Alike n n') (perm : Bool) (creds : Creds) (acc : Access) :
    n'.allows perm creds acc ↔ n.allows perm creds acc := by
  unfold Node.allows
  rw [h.mode, h.uid, h.gid]

theorem Grows.refl (f : Nodes) : f.Grows f fun _ _ ↦ False where
  node _ n hk := ⟨n, hk, .refl n⟩
  names _ entries hk := ⟨entries, hk, fun _ _ ↦ rfl⟩
  fresh _ _ hnew := hnew.elim

/-! ## The walk -/

theorem Grows.parentOf (hgrow : f.Grows g new) {root dir up : ℕ} (hup : f.parentOf root dir = some up) :
    g.parentOf root dir = some up := by
  unfold Nodes.parentOf at hup ⊢
  split_ifs at hup ⊢ with hne
  · cases hdir : f.dir dir with
    | none =>
      rw [hdir] at hup
      cases hup
    | some entries =>
      obtain ⟨entries', hdir', hsame⟩ := hgrow.names dir entries hdir
      rw [hdir, Option.map_some] at hup
      rw [hdir', Option.map_some, hsame dotdotName fun hnew ↦ (hgrow.fresh _ _ hnew).2 rfl]
      exact hup
  · exact hup

/-- A new name is not one of a link that the walk would follow. -/
def Plainly (g : Nodes) (new : ℕ → Bytes → Prop) (followLast : Bool) : Prop :=
  ∀ k name v, new k name → g.lookup k name = some v → ∃ n, g v.1 = some n ∧
    ((FileType.fromMode n.mode).isSymlink = true → followLast = false)

section Walk

variable {perm : Bool} {args : WalkArgs} {follow follow' : ℕ → UnixPath → Option Resolved} {r : Resolved}

/-- The step of the walk at a name. -/
theorem Grows.walk_normal (hgrow : f.Grows g new) (hplain : r.ino = none → g.Plainly new args.followLast)
    (hfollow : ∀ dir path, follow dir path = some r → follow' dir path = some (r.completed g)) (name : Bytes)
    {rest : List Component}
    (ih : ∀ {dir : ℕ}, f.walkFrom perm args follow dir rest = some r →
      g.walkFrom perm args follow' dir rest = some (r.completed g))
    {dir : ℕ} (hr : f.walkFrom perm args follow dir (.normal name :: rest) = some r) :
    g.walkFrom perm args follow' dir (.normal name :: rest) = some (r.completed g) := by
  cases hn : f dir with
  | none =>
    rw [Nodes.walkFrom_none hn _ (Or.inr ⟨name, rfl⟩)] at hr
    cases hr
  | some n =>
    obtain ⟨n', hn', halike⟩ := hgrow.node dir n hn
    rw [Nodes.walkFrom_normal hn] at hr
    rw [Nodes.walkFrom_normal hn']
    by_cases hallows : n.allows perm args.creds .exec
    swap
    · rw [if_neg hallows] at hr
      cases hr
    rw [if_pos hallows] at hr
    rw [if_pos ((halike.allows perm args.creds .exec).mpr hallows)]
    obtain ⟨entries, hdir, hr⟩ := Option.bind_eq_some_iff.mp hr
    obtain ⟨entries', hdir', hsame⟩ := hgrow.names dir entries hdir
    rw [hdir', Option.bind_some]
    cases hentry : entryNamed entries name with
    | none =>
      rw [hentry] at hr
      dsimp only at hr
      split_ifs at hr with hrest
      cases hr
      have hlook : g.lookup dir name = entryNamed entries' name := lookup_of_dir hdir' name
      cases hentry' : entryNamed entries' name with
      | none =>
        dsimp only
        rw [if_pos hrest]
        unfold Resolved.completed
        rw [hlook, hentry']
        rfl
      | some v =>
        have hnew : new dir name := by
          by_contra hold
          rw [hsame name hold, hentry] at hentry'
          cases hentry'
        rw [hentry'] at hlook
        obtain ⟨c, hc, hlink⟩ := hplain rfl dir name v hnew hlook
        have hstop : ¬((FileType.fromMode c.mode).isSymlink = true ∧ (rest ≠ [] ∨ args.followLast = true)) := by
          rintro ⟨hsymlink, hne | hlast⟩
          · exact hne hrest
          · rw [hlink hsymlink] at hlast
            cases hlast
        dsimp only
        rw [hc, Option.bind_some, if_neg hstop, if_pos hrest]
        unfold Resolved.completed
        rw [hlook]
        rfl
    | some v =>
      have hold : ¬new dir name := by
        intro hnew
        have hnone := (hgrow.fresh dir name hnew).1
        rw [lookup_of_dir hdir, hentry] at hnone
        cases hnone
      rw [hentry] at hr
      rw [hsame name hold, hentry]
      dsimp only at hr ⊢
      obtain ⟨c, hc, hr⟩ := Option.bind_eq_some_iff.mp hr
      obtain ⟨c', hc', hsee⟩ := hgrow.node v.1 c hc
      rw [hc', Option.bind_some, hsee.mode]
      by_cases hlink : (FileType.fromMode c.mode).isSymlink = true ∧ (rest ≠ [] ∨ args.followLast = true)
      · rw [if_pos hlink] at hr ⊢
        rw [hsee.bytes hlink.1]
        exact hfollow dir _ hr
      · rw [if_neg hlink] at hr ⊢
        split_ifs at hr ⊢ with hrest
        · cases hr
          rfl
        · exact ih hr

theorem Grows.walkFrom (hgrow : f.Grows g new) (hplain : r.ino = none → g.Plainly new args.followLast)
    (hfollow : ∀ dir path, follow dir path = some r → follow' dir path = some (r.completed g))
    (comps : List Component) : ∀ {dir : ℕ}, f.walkFrom perm args follow dir comps = some r →
      g.walkFrom perm args follow' dir comps = some (r.completed g) := by
  induction comps with
  | nil =>
    intro dir hr
    cases hr
    rfl
  | cons c rest ih =>
    intro dir hr
    cases c with
    | rootDir => exact ih hr
    | curDir => exact ih hr
    | parentDir =>
      cases hn : f dir with
      | none =>
        rw [Nodes.walkFrom_none hn _ (Or.inl rfl)] at hr
        cases hr
      | some n =>
        obtain ⟨n', hn', halike⟩ := hgrow.node dir n hn
        rw [Nodes.walkFrom_parentDir hn] at hr
        rw [Nodes.walkFrom_parentDir hn']
        by_cases hallows : n.allows perm args.creds .exec
        swap
        · rw [if_neg hallows] at hr
          cases hr
        rw [if_pos hallows] at hr
        rw [if_pos ((halike.allows perm args.creds .exec).mpr hallows)]
        obtain ⟨up, hup, hr⟩ := Option.bind_eq_some_iff.mp hr
        rw [hgrow.parentOf hup, Option.bind_some]
        split_ifs at hr ⊢
        · cases hr
          rfl
        · exact ih hr
    | normal name => exact hgrow.walk_normal hplain hfollow name ih hr

/-- A path that leads somewhere leads to the same place in the larger namespace. -/
theorem Grows.walk (hgrow : f.Grows g new) (hplain : r.ino = none → g.Plainly new args.followLast) (depth : ℕ) :
    ∀ {cwd : ℕ} {path : UnixPath}, f.walk perm args depth cwd path = some r →
      g.walk perm args depth cwd path = some (r.completed g) := by
  induction depth with
  | zero =>
    intro cwd path hr
    cases hr
  | succ depth ih =>
    intro cwd path hr
    unfold Nodes.walk at hr ⊢
    dsimp only at hr ⊢
    split_ifs at hr ⊢ with hempty hcomps
    · cases hr
      rfl
    · cases hr
      rfl
    · exact hgrow.walkFrom hplain (fun _ _ hr ↦ ih hr) _ hr
    · exact hgrow.walkFrom hplain (fun _ _ hr ↦ ih hr) _ hr

/-- More room for nested walks changes nothing. -/
theorem walk_more (hino : r.ino ≠ none) (more depth : ℕ) : ∀ {cwd : ℕ} {path : UnixPath},
    f.walk perm args depth cwd path = some r → f.walk perm args (depth + more) cwd path = some r := by
  induction depth with
  | zero =>
    intro cwd path hr
    cases hr
  | succ depth ih =>
    intro cwd path hr
    have hfollow : ∀ dir path, f.walk perm args depth dir path = some r →
        f.walk perm args (depth + more) dir path = some (r.completed f) := by
      intro dir path hr
      rw [Resolved.completed_of_ino hino]
      exact ih hr
    have hwalk : ∀ {comps : List Component} {dir : ℕ}, f.walkFrom perm args (f.walk perm args depth) dir comps = some r →
        f.walkFrom perm args (f.walk perm args (depth + more)) dir comps = some r := by
      intro comps dir hr
      rw [← Resolved.completed_of_ino hino f]
      exact (Grows.refl f).walkFrom (fun hnone ↦ absurd hnone hino) hfollow comps hr
    rw [Nat.add_right_comm]
    unfold Nodes.walk at hr ⊢
    dsimp only at hr ⊢
    split_ifs at hr ⊢
    · exact hr
    · exact hr
    · exact hwalk hr
    · exact hwalk hr

/-- A path that led to an inode leads to the same one. -/
def KeepsPaths (f g : Nodes) : Prop :=
  ∀ perm args depth cwd path r, f.walk perm args depth cwd path = some r → r.ino ≠ none →
    g.walk perm args depth cwd path = some r

theorem KeepsPaths.refl (f : Nodes) : f.KeepsPaths f := fun _ _ _ _ _ _ hr _ ↦ hr

theorem KeepsPaths.trans (hfg : f.KeepsPaths g) (hgh : g.KeepsPaths h) : f.KeepsPaths h :=
  fun perm args depth cwd path r hr hino ↦ hgh perm args depth cwd path r (hfg perm args depth cwd path r hr hino) hino

theorem Grows.keepsPaths (hgrow : f.Grows g new) : f.KeepsPaths g := by
  intro perm args depth cwd path r hr hino
  have hsame : r.completed g = r := by
    obtain ⟨parent, name, found⟩ := r
    cases found with
    | none => exact absurd rfl hino
    | some k => rfl
  rw [hgrow.walk (fun hnone ↦ absurd hnone hino) depth hr, hsame]

end Walk

/-! ## Namespaces that have grown -/

variable {parent ino : ℕ} {entries : List DirEntry} {name : Bytes}

/-- What is neither a directory nor a link gets other bytes. -/
theorem Grows.refill (hgrow : f.Grows g new) (hn : g k = some n) (hfile : n.isDir = false)
    (hlink : ∀ m, f k = some m → (FileType.fromMode m.mode).isSymlink = false) (bytes : Bytes) :
    f.Grows (Function.update g k (some { n with bytes := bytes })) new where
  node k' m hm := by
    obtain ⟨n', hn', halike⟩ := hgrow.node k' m hm
    by_cases hk : k' = k
    · subst hk
      rw [hn] at hn'
      cases hn'
      refine ⟨_, Function.update_self .., halike.mode, halike.uid, halike.gid, fun hsymlink ↦ ?_⟩
      rw [hlink m hm] at hsymlink
      cases hsymlink
    · rw [Function.update_of_ne hk]
      exact ⟨n', hn', halike⟩
  names k' entries hk' := by
    obtain ⟨entries', hdir, hsame⟩ := hgrow.names k' entries hk'
    refine ⟨entries', ?_, hsame⟩
    have hne : k' ≠ k := by
      rintro rfl
      rw [dir_of_some hn, Node.entries_of_file hfile] at hdir
      cases hdir
    unfold Nodes.dir
    rw [Function.update_of_ne hne]
    exact hdir
  fresh := hgrow.fresh

/-- Every inode of `f` looks alike in `g`. -/
def Seen (f g : Nodes) : Prop := ∀ k n, f k = some n → ∃ n', g k = some n' ∧ Alike n n'

theorem Seen.trans (hfg : f.Seen g) (hgh : g.Seen h) : f.Seen h := by
  intro k n hk
  obtain ⟨n', hk', halike⟩ := hfg k n hk
  obtain ⟨n'', hk'', halike'⟩ := hgh k n' hk'
  exact ⟨n'', hk'', halike.trans halike'⟩

theorem seen_edit (f : Nodes) (k : ℕ) {change : Node → Node} (halike : ∀ n, f k = some n → Alike n (change n)) :
    f.Seen (f.edit k change) := by
  intro k' n hn
  by_cases hk : k' = k
  · rw [hk] at hn ⊢
    exact ⟨change n, by rw [edit_self, hn, Option.map_some], halike n hn⟩
  · exact ⟨n, by rw [edit_of_ne hk, hn], .refl n⟩

theorem seen_links (f : Nodes) (k : ℕ) (count : ℕ → ℕ) : f.Seen (f.links k count) :=
  seen_edit f k fun _ _ ↦ ⟨rfl, rfl, rfl, fun _ ↦ rfl⟩

/-- A directory is no link, so that its bytes are not looked at. -/
theorem seen_list (hk : ∀ n, f k = some n → n.isDir = true) (entries : List DirEntry) : f.Seen (f.list k entries) := by
  apply seen_edit
  intro n hn
  refine ⟨rfl, rfl, rfl, fun hlink ↦ ?_⟩
  have hdir : FileType.fromMode n.mode = .directory := isDir_iff.mp (hk n hn)
  rw [hdir] at hlink
  cases hlink

theorem isDir_of_dir (hdir : f.dir k = some entries) (n : Node) (hn : f k = some n) : n.isDir = true := by
  obtain ⟨n', hn', hisDir, -⟩ := entries_of_dir hdir
  rw [hn] at hn'
  cases hn'
  exact hisDir

theorem seen_born (hnew : f ino = none) (parent : ℕ) (n : Node) : f.Seen (f.born parent ino n) := by
  have hupdate : f.Seen (Function.update f ino (some n)) := by
    intro k m hm
    refine ⟨m, ?_, .refl m⟩
    rw [Function.update_of_ne _, hm]
    rintro rfl
    rw [hnew] at hm
    cases hm
  have hedit : f.Seen (edit (Function.update f ino (some n)) ino
      (fun m ↦ { m with nlink := if m.isDir then 2 else m.nlink })) :=
    hupdate.trans (seen_edit _ ino fun _ _ ↦ ⟨rfl, rfl, rfl, fun _ ↦ rfl⟩)
  unfold born
  dsimp only
  split_ifs with hdir
  · refine (hedit.trans (seen_list (fun m hm ↦ ?_) _)).trans (seen_links _ parent _)
    rw [edit_self, Function.update_self, Option.map_some] at hm
    cases hm
    exact hdir
  · exact hedit

theorem dir_born_ne (hne : k ≠ ino) (f : Nodes) (parent : ℕ) (n : Node) : (f.born parent ino n).dir k = f.dir k := by
  have hupdate : Nodes.dir (Function.update f ino (some n)) k = f.dir k := by
    unfold Nodes.dir
    rw [Function.update_of_ne hne]
  unfold born
  dsimp only
  split_ifs
  · rw [dir_links, dir_list_of_ne hne, dir_edit_of_ne hne, hupdate]
  · rw [dir_edit_of_ne hne, hupdate]

/-- The namespace with a new inode under the name `name`. -/
def madeAt (f : Nodes) (parent : ℕ) (name : Bytes) (entries : List DirEntry) (ino : ℕ) (n : Node) : Nodes :=
  (f.born parent ino n).list parent (entries ++ [⟨ino, FileType.fromMode n.mode, name⟩])

section Made

variable (hnew : f ino = none) (hdir : f.dir parent = some entries) (hfree : entryNamed entries name = none)
  (hroom : entries.length + 1 < 2 ^ 32) (hvalid : validateName name = .ok ()) (hino : ino < 2 ^ 64)

include hnew hdir hroom hvalid hino

theorem madeAt_dir : (f.madeAt parent name entries ino n).dir parent =
    some (entries ++ [⟨ino, FileType.fromMode n.mode, name⟩]) := by
  apply dir_list (dir_born hnew hdir n)
  · intro e he
    rcases List.mem_append.mp he with he | he
    · exact (fits_of_dir hdir).2 e he
    · rw [List.mem_singleton.mp he]
      have hlength := validateName_length hvalid
      unfold nameMax at hlength
      exact ⟨hino, show name.length < 2 ^ 16 by omega⟩
  · rw [List.length_append]
    exact hroom

include hfree

theorem madeAt_lookup : (f.madeAt parent name entries ino n).lookup parent name = some (ino, FileType.fromMode n.mode) := by
  rw [lookup_of_dir (madeAt_dir hnew hdir hroom hvalid hino), entryNamed_append, hfree, if_pos rfl]
  rfl

theorem grows_madeAt : f.Grows (f.madeAt parent name entries ino n) (fun k nm ↦ k = parent ∧ nm = name) where
  node := by
    refine (seen_born hnew parent n).trans (seen_list ?_ _)
    exact isDir_of_dir (dir_born hnew hdir n)
  names k old hk := by
    by_cases hparent : k = parent
    · subst hparent
      rw [hdir] at hk
      cases hk
      refine ⟨_, madeAt_dir hnew hdir hroom hvalid hino, fun other hother ↦ ?_⟩
      have hne : name ≠ other := fun heq ↦ hother ⟨rfl, heq.symm⟩
      rw [entryNamed_append, if_neg hne, Option.or_none]
    · refine ⟨old, ?_, fun _ _ ↦ rfl⟩
      have hne : k ≠ ino := by
        rintro rfl
        rw [dir_of_none hnew] at hk
        cases hk
      unfold madeAt
      rw [dir_list_of_ne hparent, dir_born_ne hne]
      exact hk
  fresh := by
    rintro k nm ⟨rfl, rfl⟩
    refine ⟨?_, (proper_of_valid hvalid).2⟩
    rw [lookup_of_dir hdir]
    exact hfree

end Made

theorem madeAt_of_ne (hino : k ≠ ino) (hparent : k ≠ parent) (entries : List DirEntry) (name : Bytes) :
    f.madeAt parent name entries ino n k = f k := by
  have hborn : f.born parent ino n k = f k := by
    have hupdate : edit (Function.update f ino (some n)) ino
        (fun m ↦ { m with nlink := if m.isDir then 2 else m.nlink }) k = f k := by
      rw [edit_of_ne hino, Function.update_of_ne hino]
    unfold born
    split_ifs
    · rw [links, edit_of_ne hparent, list, edit_of_ne hino, hupdate]
    · exact hupdate
  unfold madeAt
  rw [list, edit_of_ne hparent, hborn]

theorem madeAt_self (hne : ino ≠ parent) (entries : List DirEntry) (name : Bytes) :
    ∃ n', f.madeAt parent name entries ino n ino = some n' ∧ n'.mode = n.mode ∧ (n.isDir = false → n' = n) := by
  have hlist : f.madeAt parent name entries ino n ino = f.born parent ino n ino := edit_of_ne hne _ _
  have hborn : edit (Function.update f ino (some n)) ino (fun m ↦ { m with nlink := if m.isDir then 2 else m.nlink }) ino =
      some { n with nlink := if n.isDir then 2 else n.nlink } := by
    rw [edit_self, Function.update_self, Option.map_some]
  rw [hlist]
  unfold born
  by_cases hdir : n.isDir = true
  · rw [if_pos hdir, links, edit_of_ne hne, list, edit_self, hborn, Option.map_some]
    refine ⟨_, rfl, rfl, fun hfile ↦ ?_⟩
    rw [hdir] at hfile
    cases hfile
  · rw [if_neg hdir, hborn, if_neg hdir]
    exact ⟨n, rfl, rfl, fun _ ↦ rfl⟩

end Nodes

end LinuxFile
