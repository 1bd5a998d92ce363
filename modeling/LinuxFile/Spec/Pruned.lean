import LinuxFile.Spec.ByPath
import LinuxFile.Spec.Paths
import LinuxFile.Spec.Within

/-!
# Names that are gone

A namespace is pruned when names have been taken out of it. Whatever is left looks as before: a path that leads
somewhere led there already.
-/

namespace LinuxFile

/-- The inode may have other links and, as a directory, other names. -/
structure Node.Spared (m n : Node) : Prop where
  mode : n.mode = m.mode
  uid : n.uid = m.uid
  gid : n.gid = m.gid
  xattr : n.xattr = m.xattr
  bytes : m.isDir = false → n.bytes = m.bytes

namespace Node.Spared

variable {m n n' : Node}

theorem refl (n : Node) : n.Spared n := ⟨rfl, rfl, rfl, rfl, fun _ ↦ rfl⟩

theorem isDir (h : m.Spared n) : n.isDir = m.isDir := by
  unfold Node.isDir
  rw [h.mode]

theorem trans (h : m.Spared n) (h' : n.Spared n') : m.Spared n' where
  mode := h'.mode.trans h.mode
  uid := h'.uid.trans h.uid
  gid := h'.gid.trans h.gid
  xattr := h'.xattr.trans h.xattr
  bytes hfile := (h'.bytes (h.isDir.trans hfile)).trans (h.bytes hfile)

theorem alike (h : m.Spared n) : Nodes.Alike n m where
  mode := h.mode.symm
  uid := h.uid.symm
  gid := h.gid.symm
  bytes hlink := by
    rw [h.mode] at hlink
    refine (h.bytes ?_).symm
    unfold Node.isDir
    cases htype : FileType.fromMode m.mode with
    | directory =>
      rw [htype] at hlink
      cases hlink
    | _ => rfl

end Node.Spared

namespace Nodes

variable {f g h : Nodes} {k p : ℕ} {name : Bytes} {n : Node} {r : Resolved}

/-- Every inode that is left was there. -/
def Spares (f g : Nodes) : Prop := ∀ k n, g k = some n → ∃ m, f k = some m ∧ m.Spared n

theorem Spares.refl (f : Nodes) : f.Spares f := fun _ n hn ↦ ⟨n, hn, .refl n⟩

theorem Spares.trans (hfg : f.Spares g) (hgh : g.Spares h) : f.Spares h := by
  intro k n hn
  obtain ⟨m, hm, hspared⟩ := hgh k n hn
  obtain ⟨m', hm', hspared'⟩ := hfg k m hm
  exact ⟨m', hm', hspared'.trans hspared⟩

theorem spares_edit (f : Nodes) (k : ℕ) {change : Node → Node} (hchange : ∀ m, f k = some m → m.Spared (change m)) :
    f.Spares (f.edit k change) := by
  intro k' n hn
  by_cases hk : k' = k
  · rw [hk, edit_self] at hn
    obtain ⟨m, hm, rfl⟩ := Option.map_eq_some_iff.mp hn
    exact ⟨m, by rw [hk, hm], hchange m hm⟩
  · rw [edit_of_ne hk] at hn
    exact ⟨n, hn, .refl n⟩

theorem spares_links (f : Nodes) (k : ℕ) (count : ℕ → ℕ) : f.Spares (f.links k count) :=
  spares_edit f k fun _ _ ↦ ⟨rfl, rfl, rfl, rfl, fun _ ↦ rfl⟩

theorem spares_forget (f : Nodes) (k : ℕ) : f.Spares (Function.update f k none) := by
  intro k' n hn
  by_cases hk : k' = k
  · rw [hk, Function.update_self] at hn
    cases hn
  · rw [Function.update_of_ne hk] at hn
    exact ⟨n, hn, .refl n⟩

theorem spares_unnamed {parent : ℕ} {entries : List DirEntry} (hdir : f.dir parent = some entries) (name : Bytes)
    (entry : ℕ × FileType) : f.Spares (f.unnamed parent entries name entry) := by
  have hlist : f.Spares (f.list parent (entries.eraseP (fun e ↦ e.name == name))) := by
    apply spares_edit
    intro m hm
    refine ⟨rfl, rfl, rfl, rfl, fun hfile ↦ ?_⟩
    rw [isDir_of_dir hdir m hm] at hfile
    cases hfile
  unfold unnamed
  dsimp only
  split_ifs
  · exact (hlist.trans (spares_links _ parent _)).trans (spares_links _ entry.1 _)
  · exact hlist.trans (spares_links _ entry.1 _)

/-! ## Pruning -/

/-- Names have been taken out; `.` and `..` stay. -/
structure Pruned (f g : Nodes) : Prop where
  node : f.Spares g
  names : ∀ p name v, g.lookup p name = some v → f.lookup p name = some v
  dots : ∀ p name, ¬Proper name → g.lookup p name = f.lookup p name

theorem Pruned.refl (f : Nodes) : f.Pruned f where
  node := .refl f
  names _ _ _ hv := hv
  dots _ _ _ := rfl

theorem Pruned.trans (hfg : f.Pruned g) (hgh : g.Pruned h) : f.Pruned h where
  node := hfg.node.trans hgh.node
  names p name v hv := hfg.names p name v (hgh.names p name v hv)
  dots p name hdots := (hgh.dots p name hdots).trans (hfg.dots p name hdots)

/-- Seen from what is left, the names that are gone have been added. -/
theorem Pruned.grows (hp : f.Pruned g) (hf : f.tree.Shape) :
    g.Grows f fun p name ↦ Proper name ∧ g.lookup p name = none where
  node k n hn := by
    obtain ⟨m, hm, hspared⟩ := hp.node k n hn
    exact ⟨m, hm, hspared.alike⟩
  names k entries hdir := by
    obtain ⟨n, hn, hisDir, -⟩ := entries_of_dir hdir
    obtain ⟨m, hm, hspared⟩ := hp.node k n hn
    have hkind : f.tree.kind k = some .directory := tree_dir.mpr ⟨m, hm, hspared.isDir.symm.trans hisDir⟩
    have hdot : f.lookup k dotName = some (k, .directory) := hf.dot k hkind
    obtain ⟨entries', hdir', -⟩ := Option.bind_eq_some_iff.mp hdot
    refine ⟨entries', hdir', fun name hold ↦ ?_⟩
    rw [← lookup_of_dir hdir', ← lookup_of_dir hdir]
    cases hlook : g.lookup k name with
    | none =>
      have hdots : ¬Proper name := fun hproper ↦ hold ⟨hproper, hlook⟩
      rw [← hp.dots k name hdots, hlook]
    | some v => exact hp.names k name v hlook
  fresh k name hgone := ⟨hgone.2, hgone.1.2⟩

theorem Pruned.keepsPaths (hp : f.Pruned g) (hf : f.tree.Shape) : g.KeepsPaths f := (hp.grows hf).keepsPaths

/-! ## Where walks end -/

section Ends

variable {perm : Bool} {args : Inner.WalkArgs} {Q : Resolved → Prop} (hself : ∀ dir, Q ⟨dir, [], some dir⟩)
  (hup : ∀ up, Q ⟨up, dotdotName, some up⟩) (hname : ∀ dir name, Q ⟨dir, name, (f.lookup dir name).map Prod.fst⟩)

include hself hup hname

/-- A walk ends at a directory it stands in, or at a name that it has looked up. -/
theorem walkFrom_ends {follow : ℕ → UnixPath → Option Resolved} (hfollow : ∀ dir path, follow dir path = some r → Q r)
    (comps : List Component) : ∀ {dir : ℕ}, f.walkFrom perm args follow dir comps = some r → Q r := by
  induction comps with
  | nil =>
    intro dir hr
    cases hr
    exact hself dir
  | cons c rest ih =>
    intro dir hr
    cases c with
    | rootDir => exact ih hr
    | curDir => exact ih hr
    | parentDir =>
      cases hm : f dir with
      | none =>
        rw [walkFrom_none hm _ (Or.inl rfl)] at hr
        cases hr
      | some m =>
        rw [walkFrom_parentDir hm] at hr
        by_cases hallows : m.allows perm args.creds .exec
        swap
        · rw [if_neg hallows] at hr
          cases hr
        rw [if_pos hallows] at hr
        obtain ⟨up, -, hr⟩ := Option.bind_eq_some_iff.mp hr
        by_cases hrest : rest = []
        · rw [if_pos hrest] at hr
          cases hr
          exact hup up
        · rw [if_neg hrest] at hr
          exact ih hr
    | normal nm =>
      cases hm : f dir with
      | none =>
        rw [walkFrom_none hm _ (Or.inr ⟨nm, rfl⟩)] at hr
        cases hr
      | some m =>
        rw [walkFrom_normal hm] at hr
        by_cases hallows : m.allows perm args.creds .exec
        swap
        · rw [if_neg hallows] at hr
          cases hr
        rw [if_pos hallows] at hr
        obtain ⟨entries, hdir, hr⟩ := Option.bind_eq_some_iff.mp hr
        have hlook := hname dir nm
        rw [lookup_of_dir hdir] at hlook
        cases hentry : entryNamed entries nm with
        | none =>
          rw [hentry] at hr hlook
          dsimp only at hr
          by_cases hrest : rest = []
          · rw [if_pos hrest] at hr
            cases hr
            exact hlook
          · rw [if_neg hrest] at hr
            cases hr
        | some v =>
          rw [hentry] at hr hlook
          dsimp only at hr
          obtain ⟨c, -, hr⟩ := Option.bind_eq_some_iff.mp hr
          by_cases hlink : (FileType.fromMode c.mode).isSymlink = true ∧ (rest ≠ [] ∨ args.followLast = true)
          · rw [if_pos hlink] at hr
            exact hfollow dir _ hr
          · rw [if_neg hlink] at hr
            by_cases hrest : rest = []
            · rw [if_pos hrest] at hr
              cases hr
              exact hlook
            · rw [if_neg hrest] at hr
              exact ih hr

theorem walk_ends (depth : ℕ) : ∀ {cwd : ℕ} {path : UnixPath}, f.walk perm args depth cwd path = some r → Q r := by
  induction depth with
  | zero =>
    intro cwd path hr
    cases hr
  | succ depth ih =>
    intro cwd path hr
    unfold Nodes.walk at hr
    dsimp only at hr
    by_cases hempty : path = []
    · rw [if_pos hempty] at hr
      cases hr
    rw [if_neg hempty, if_neg (UnixPath.components_ne_nil hempty)] at hr
    exact walkFrom_ends hself hup hname (fun _ _ hr ↦ ih hr) _ hr

end Ends

/-- A name that a walk ends at is the name of the inode it leads to. -/
theorem found_named {depth : ℕ} {path : UnixPath} {followLast : Bool} {k : ℕ}
    (hr : f.found depth path followLast = some r) (hk : r.ino = some k) (hname : r.name ≠ []) (hproper : Proper r.name) :
    ∃ ft, f.lookup r.parent r.name = some (k, ft) := by
  have hends : r.name ≠ [] → Proper r.name → r.ino = (f.lookup r.parent r.name).map Prod.fst :=
    walk_ends (Q := fun r ↦ r.name ≠ [] → Proper r.name → r.ino = (f.lookup r.parent r.name).map Prod.fst)
      (fun _ hne _ ↦ absurd rfl hne) (fun _ _ hup ↦ absurd rfl hup.2) (fun _ _ _ _ ↦ rfl) depth hr
  rw [hends hname hproper] at hk
  obtain ⟨v, hv, hvk⟩ := Option.map_eq_some_iff.mp hk
  rw [← hvk]
  exact ⟨v.2, hv⟩

/-- A path whose last name is taken out leads nowhere. -/
theorem Pruned.unfound (hp : f.Pruned g) (hf : f.tree.Shape) {depth : ℕ} {path : UnixPath} {followLast : Bool}
    (hr : f.found depth path followLast = some r) (hino : r.ino ≠ none) (hname : r.name ≠ []) (hproper : Proper r.name)
    (hgone : g.lookup r.parent r.name = none) (more : ℕ) : g.leads more path followLast = none := by
  cases hleads : g.leads more path followLast with
  | none => rfl
  | some k =>
    obtain ⟨q, hq, hk⟩ := Option.bind_eq_some_iff.mp hleads
    have hqino : q.ino ≠ none := by
      rw [hk]
      exact Option.some_ne_none k
    have hback : f.found more path followLast = some q := hp.keepsPaths hf _ _ _ _ _ _ hq hqino
    -- with room for both walks they are one
    have hsame : f.found (depth + more) path followLast = some r := walk_more hino more depth hr
    have hboth : f.found (more + depth) path followLast = some q := walk_more hqino depth more hback
    rw [Nat.add_comm, hsame] at hboth
    cases hboth
    obtain ⟨ft, hlook⟩ := found_named hq hk hname hproper
    rw [hgone] at hlook
    cases hlook

end Nodes

/-! ## Removing by path -/

/-- A call that takes away the name at the end of a path: `rmdir` or `unlink`. -/
structure PathRemoval where
  path : UnixPath
  dir : Bool

def PathRemoval.exec (depth : ℕ) (call : PathRemoval) : Fs Unit :=
  if call.dir then Facade.rmdir depth call.path else Facade.unlink depth call.path

namespace Inner

variable {s t : Inner} {k parent depth : ℕ} {name : Bytes}

theorem Releases.spares (h : Releases k s t) : s.node.Spares t.node := by
  cases h with
  | named _ _ h =>
    rw [h]
    exact .refl _
  | orphaned _ _ _ h =>
    rw [h]
    exact .refl _
  | dropped _ _ _ h =>
    rw [h.node]
    exact Nodes.spares_forget _ k

/-- A name that can be taken away is, and nothing else. -/
theorem unlinkName_prunes (h : s.Rooted) (hparent : parent < s.sb.nextInode) (name : Bytes) (rmdir : Bool) (creds : Creds) :
    Leaves (unlinkName parent name rmdir creds) s
      (fun _ t ↦ t.Rooted ∧ s.node.Pruned t.node ∧ ∃ entry, s.tree.Takable parent name entry ∧
        entry.2.isDir = rmdir ∧ t.node.lookup parent name = none)
      (fun t ↦ t.node = s.node) := by
  have hfind := Leaves.of_acts (unlinkFind_stays h.tidy hparent name rmdir creds)
    (unlinkFind_acts h.tidy.sound h.tidy.writable h.tidy.namesBelow hparent name rmdir creds)
  rw [unlinkName_eq]
  refine Leaves.bind (hfind.mono (fun _ _ _ hq ↦ hq) fun _ ht ↦ ht.1) ?_
  intro entry t ht hfound
  obtain ⟨hentry, hnode, hmay⟩ := hfound
  obtain ⟨htake, hkind⟩ := takable_of_mayUnlink hmay
  have hroot : t.Rooted := h.kept ht hnode
  have hsame : t.tree = s.tree := tree_of_node hnode
  have htake' : t.tree.Takable parent name entry := by
    rw [hsame]
    exact htake
  have hlook : t.node.lookup parent name = some entry := htake'.found
  have hlive : t.node entry.1 ≠ none :=
    live_of_kind (hroot.tree.entry parent name entry.1 entry.2 htake'.found htake'.proper).2
  have htree := unlinkEntry_tree hroot.tidy hroot.tree (ht.lt hparent) htake'
  have hunlinks := unlinkEntry_unlinks hroot.tidy.sound hroot.tidy.writable (ht.lt hparent) name hentry hlive
    (by rw [hlook]; exact Option.some_ne_none entry)
  refine (Exec.Holds.and htree hunlinks).mono ?_ fun _ _ he ↦ Or.inl he.1
  intro _ u hu
  obtain ⟨⟨hon, hreleased, -⟩, entries, v, hdir, -, hv, hreleases⟩ := hu
  have hconsistent := htake'.unlink hroot.tree
  have hnames : u.node.lookup = (t.tree.say parent name none).look :=
    (hreleased.look hconsistent).trans (Tree.unlink_look _ _ _ _)
  have hspares : t.node.Spares v.node := by
    rw [hv]
    exact Nodes.spares_unnamed hdir name entry
  have hpruned : t.node.Pruned u.node := by
    refine ⟨hspares.trans hreleases.spares, fun p other w hw ↦ ?_, fun p other hdots ↦ ?_⟩
    · rw [hnames] at hw
      exact Tree.look_of_say_none hw
    · have hne : other ≠ name := by
        rintro rfl
        exact hdots htake'.proper
      rw [hnames]
      exact Tree.say_ne_name _ hne p none
  rw [hnode] at hpruned
  refine ⟨hon, ⟨hon.1, hreleased.consistent hconsistent⟩, hpruned, entry, htake, hkind, ?_⟩
  rw [hnames]
  exact Tree.say_self _ parent name none

/-- The name at the end of the path is gone, which was one of a file or of an empty directory as the call asks. -/
structure Removes (f : Nodes) (depth : ℕ) (call : PathRemoval) (t : Inner) : Prop where
  rooted : t.Rooted
  pruned : f.Pruned t.node
  target : ∃ k n, f.leads depth call.path false = some k ∧ f k = some n ∧ n.isDir = call.dir ∧
    (call.dir = true → ∀ name, Proper name → f.lookup k name = none)
  gone : ∀ more, t.node.leads more call.path false = none

theorem unlinkName_removes (h : s.Rooted) {call : PathRemoval} {r : Resolved}
    (hfound : s.node.found depth call.path false = some r) (hk : r.ino = some k) (hparent : r.parent < s.sb.nextInode)
    (creds : Creds) :
    Leaves (unlinkName r.parent r.name call.dir creds) s (fun _ t ↦ Removes s.node depth call t)
      (fun t ↦ t.node = s.node) := by
  refine (unlinkName_prunes h hparent r.name call.dir creds).mono ?_ fun _ ht ↦ ht
  intro _ t _ hq
  obtain ⟨ht, hpruned, entry, htake, hkind, hgone⟩ := hq
  have hvalid := htake.valid h.tree
  have hne : r.name ≠ [] := (UnixPath.valid_relative hvalid).1
  obtain ⟨ft, hlook⟩ := Nodes.found_named hfound hk hne htake.proper
  have hentry : entry = (k, ft) := Option.some.inj (htake.found.symm.trans hlook)
  subst hentry
  have hlive : s.tree.kind k = some ft := (h.tree.entry r.parent r.name k ft hlook htake.proper).2
  obtain ⟨n, hn, hft⟩ := Option.map_eq_some_iff.mp hlive
  have hisDir : n.isDir = call.dir := by
    unfold Node.isDir
    rw [hft]
    exact hkind
  refine ⟨ht, hpruned, ⟨k, n, (Nodes.leads_of_found hfound).trans hk, hn, hisDir, fun hdir ↦ ?_⟩,
    hpruned.unfound h.tree.toShape hfound (hk.symm ▸ Option.some_ne_none k) hne htake.proper hgone⟩
  apply htake.empty
  rw [← hft]
  exact Nodes.isDir_iff.mp (hisDir.trans hdir)

theorem removal_leaves (h : s.Rooted) (depth : ℕ) (call : PathRemoval) :
    Leaves (call.exec depth) s (fun _ t ↦ Removes s.node depth call t) (fun t ↦ t.node = s.node) := by
  have hwalk := (lookUp_leaves h depth call.path false).mono (fun _ _ _ hr ↦ hr) fun _ ht ↦ ht.1
  have hremove : ∀ (r : Resolved) (t : Inner), Onward s t → Resolved.Below r t → t.node = s.node →
      s.node.found depth call.path false = some r → r.ino ≠ none →
      Leaves (unlinkName r.parent r.name call.dir Creds.root) t (fun _ u ↦ Removes s.node depth call u)
        (fun u ↦ u.node = s.node) := by
    intro r t ht hbelow hnode hfound hino
    obtain ⟨k, hk⟩ := Option.ne_none_iff_exists'.mp hino
    rw [← hnode] at hfound ⊢
    exact unlinkName_removes (h.kept ht hnode) hfound hk hbelow.1 Creds.root
  unfold PathRemoval.exec
  by_cases hdir : call.dir = true
  · rw [if_pos hdir]
    unfold Facade.rmdir
    refine Leaves.bind hwalk ?_
    intro r t ht hr
    obtain ⟨hbelow, hnode, hfound⟩ := hr
    by_cases hino : r.ino = none
    · rw [if_pos hino]
      exact Leaves.throw ht.1 hnode
    rw [if_neg hino]
    by_cases hroot : r.ino = some rootIno
    · rw [if_pos hroot]
      exact Leaves.throw ht.1 hnode
    rw [if_neg hroot]
    have hrmdir := hremove r t ht hbelow hnode hfound hino
    rw [hdir] at hrmdir
    exact hrmdir
  · rw [if_neg hdir]
    unfold Facade.unlink
    refine Leaves.bind hwalk ?_
    intro r t ht hr
    obtain ⟨hbelow, hnode, hfound⟩ := hr
    by_cases hino : r.ino = none
    · rw [if_pos hino]
      exact Leaves.throw ht.1 hnode
    rw [if_neg hino]
    have hunlink := hremove r t ht hbelow hnode hfound hino
    rw [Bool.eq_false_iff.mpr hdir] at hunlink
    exact hunlink

/-- There is an inode at the end of a path that leads to one. -/
theorem Rooted.live (h : s.Rooted) {path : UnixPath} {follow : Bool} (hk : s.node.leads depth path follow = some k) :
    ∃ n, s.node k = some n := by
  obtain ⟨r, hr, hino⟩ := Option.bind_eq_some_iff.mp hk
  have hkept : s.node.Kept rootIno r := Nodes.walk_within h.tree.toShape depth (Tree.within_root _ _) hr
  have hlive : s.node k ≠ none := by
    obtain ⟨d, hd, rfl | ⟨name, ft, hproper, hlook⟩⟩ := hkept.2 k hino
    · exact live_of_kind (h.tree.toShape.kind_of_attached hd)
    · exact live_of_kind (h.tree.entry d name k ft hlook hproper).2
  exact Option.ne_none_iff_exists'.mp hlive

end Inner

end LinuxFile
