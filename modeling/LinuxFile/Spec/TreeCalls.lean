import LinuxFile.Spec.TidyRuns
import LinuxFile.Spec.TreeSteps

/-!
# The calls as steps of a tree

Seen from its names, kinds and link counts a mounted filesystem is a tree. Each call that returns makes one step of
that tree; a call that fails, other than on the host, leaves the tree as it was.
-/

namespace LinuxFile

namespace Tree

/-- A name that a directory may be given. -/
structure Vacant (t : Tree) (p : ℕ) (name : Bytes) : Prop where
  dir : t.kind p = some .directory
  valid : validateName name = .ok ()
  free : t.look p name = none

/-- An entry that may be taken away; a directory has to be empty. -/
structure Takable (t : Tree) (p : ℕ) (name : Bytes) (v : ℕ × FileType) : Prop where
  found : t.look p name = some v
  proper : Proper name
  empty : v.2 = .directory → ∀ name, Proper name → t.look v.1 name = none

/-- An inode without links goes, unless it is still open. -/
inductive Released (k : ℕ) (t : Tree) : Tree → Prop
  | stays : Released k t t
  | goes (hkind : t.kind k ≠ none) (hlinks : t.nlink k = 0) : Released k t (t.forget k)

/-- The directory that `..` leads to. -/
def up (t : Tree) (k : ℕ) : ℕ := ((t.look k dotdotName).map Prod.fst).getD k

/-- The directory `k` is not among the ancestors of `p`, as far as `is_ancestor` looks. -/
def Apart (t : Tree) (k p : ℕ) : Prop := ∀ n ≤ 4096, t.up^[n] p ≠ k

end Tree

/-- The calls that may change names, kinds or link counts. -/
def Operation.shapes : Operation → Bool
  | createChild .. | unlinkName .. | linkInto .. | rename .. | decOpen _ | dropInode _ => true
  | _ => false

namespace Tree

variable {t u : Tree} {k p : ℕ} {name : Bytes}

/-- What a call that returns does to the tree. -/
inductive Does : Operation → Tree → Tree → Prop
  | keeps {op : Operation} {t : Tree} (h : op.shapes = false) : Does op t t
  | creates {parent ino : ℕ} {name : Bytes} {mode : UInt16} {uid gid : UInt32} {rdev : UInt64} {creds : Creds}
      {t : Tree} (h : t.Vacant parent name) (hnew : t.kind ino = none) :
      Does (.createChild parent name mode uid gid rdev creds) t (t.make parent name ino (FileType.fromMode mode))
  | links {target parent : ℕ} {name : Bytes} {creds : Creds} {ft : FileType} {t : Tree} (h : t.Vacant parent name)
      (hkind : t.kind target = some ft) (hfile : ft ≠ .directory) :
      Does (.linkInto target parent name creds) t (t.link parent name (target, ft))
  | unlinks {parent : ℕ} {name : Bytes} {rmdir : Bool} {creds : Creds} {v : ℕ × FileType} {t u : Tree}
      (h : t.Takable parent name v) (hkind : v.2.isDir = rmdir) (hrel : Released v.1 (t.unlink parent name v) u) :
      Does (.unlinkName parent name rmdir creds) t u
  | renamesSame {oldParent newParent : ℕ} {oldName newName : Bytes} {creds : Creds} {v w : ℕ × FileType} {t : Tree}
      (hold : t.look oldParent oldName = some v) (hnew : t.look newParent newName = some w) (hsame : v.1 = w.1) :
      Does (.rename oldParent oldName newParent newName creds) t t
  | renames {oldParent newParent : ℕ} {oldName newName : Bytes} {creds : Creds} {v : ℕ × FileType} {t : Tree}
      (hold : t.look oldParent oldName = some v) (hproper : Proper oldName) (hnew : t.Vacant newParent newName)
      (hapart : v.2 = .directory → t.Apart v.1 newParent) :
      Does (.rename oldParent oldName newParent newName creds) t (t.move oldParent oldName newParent newName v)
  | replaces {oldParent newParent : ℕ} {oldName newName : Bytes} {creds : Creds} {v w : ℕ × FileType} {t u : Tree}
      (hold : t.look oldParent oldName = some v) (hproper : Proper oldName) (hnew : t.Takable newParent newName w)
      (hother : v.1 ≠ w.1) (hkind : v.2.isDir = w.2.isDir) (hapart : v.2 = .directory → t.Apart v.1 newParent)
      (hrel : Released w.1 (t.unlink newParent newName w) u) :
      Does (.rename oldParent oldName newParent newName creds) t (u.move oldParent oldName newParent newName v)
  | closes {ino : ℕ} {t u : Tree} (hrel : Released ino t u) : Does (.decOpen ino) t u
  | drops {ino : ℕ} {t : Tree} (hkind : t.kind ino ≠ none) : Does (.dropInode ino) t (t.forget ino)

/-! ## What the steps keep -/

theorem Consistent.file_of_nlink (h : t.Consistent) (hkind : t.kind k ≠ none) (hlinks : t.nlink k = 0) :
    ∃ ft, t.kind k = some ft ∧ ft ≠ .directory := by
  obtain ⟨ft, hft⟩ := Option.ne_none_iff_exists'.mp hkind
  refine ⟨ft, hft, fun hdir ↦ ?_⟩
  rw [hdir] at hft
  have hcount := h.directories k hft
  omega

theorem Released.look (hrel : Released k t u) (h : t.Consistent) : u.look = t.look := by
  cases hrel with
  | stays => rfl
  | goes hkind hlinks =>
    obtain ⟨ft, hft, hfile⟩ := h.file_of_nlink hkind hlinks
    apply h.forget_look
    rw [hft]
    exact fun heq ↦ hfile (Option.some.inj heq)

theorem Released.consistent (hrel : Released k t u) (h : t.Consistent) : u.Consistent := by
  cases hrel with
  | stays => exact h
  | goes hkind hlinks =>
    obtain ⟨ft, hft, hfile⟩ := h.file_of_nlink hkind hlinks
    exact h.forget hft hfile hlinks

theorem Released.dir (hrel : Released k t u) (h : t.Consistent) (hp : t.kind p = some .directory) :
    u.kind p = some .directory := by
  cases hrel with
  | stays => exact hp
  | goes hkind hlinks =>
    obtain ⟨ft, hft, hfile⟩ := h.file_of_nlink hkind hlinks
    have hne : p ≠ k := by
      rintro rfl
      rw [hft] at hp
      exact hfile (Option.some.inj hp)
    exact (if_neg hne).trans hp

theorem unlink_look (t : Tree) (p : ℕ) (name : Bytes) (v : ℕ × FileType) :
    (t.unlink p name v).look = (t.say p name none).look := by
  unfold unlink
  split_ifs
  · rfl
  · rfl

theorem unlink_kind (t : Tree) (p : ℕ) (name : Bytes) (v : ℕ × FileType) : (t.unlink p name v).kind = t.kind := by
  unfold unlink
  split_ifs
  · rfl
  · rfl

theorem Takable.unlink {v : ℕ × FileType} (h : t.Takable p name v) (ht : t.Consistent) :
    (t.unlink p name v).Consistent := ht.unlink h.found h.proper h.empty

theorem Takable.valid {v : ℕ × FileType} (h : t.Takable p name v) (ht : t.Consistent) : validateName name = .ok () :=
  (ht.entry p name v.1 v.2 h.found h.proper).1

/-- The name is free once its entry has been taken away. -/
theorem Takable.vacant {v : ℕ × FileType} (h : t.Takable p name v) (ht : t.Consistent)
    (hrel : Released v.1 (t.unlink p name v) u) : u.Vacant p name := by
  have hdir : (t.unlink p name v).kind p = some .directory := by
    rw [unlink_kind]
    exact ht.owner p name v h.found
  refine ⟨hrel.dir (h.unlink ht) hdir, h.valid ht, ?_⟩
  rw [hrel.look (h.unlink ht), unlink_look]
  exact say_self ..

/-- Other names stay as they are. -/
theorem Takable.look_ne {v : ℕ × FileType} (h : t.Takable p name v) (ht : t.Consistent)
    (hrel : Released v.1 (t.unlink p name v) u) {p' : ℕ} {name' : Bytes} (hne : ¬(p' = p ∧ name' = name)) :
    u.look p' name' = t.look p' name' := by
  rw [hrel.look (h.unlink ht), unlink_look]
  exact say_ne t hne none

end Tree

theorem Nodes.Roomy.erased {f : Nodes} {k p : ℕ} {entries target : List DirEntry} {q : DirEntry → Bool} (hroom : f.Roomy p)
    (hdir : f.dir k = some entries) (htarget : (f.list k (entries.eraseP q)).dir p = some target) :
    target.length + 1 < 2 ^ 32 := by
  have hfits := Inner.fits_of_dir hdir
  have hle : (entries.eraseP q).length ≤ entries.length := List.length_eraseP_le
  by_cases hsame : p = k
  · rw [hsame, Nodes.dir_list hdir (fun e he ↦ hfits.2 e (List.mem_of_mem_eraseP he)) (by omega)] at htarget
    cases htarget
    have hbound := hroom entries (hsame ▸ hdir)
    omega
  · rw [Nodes.dir_list_of_ne hsame] at htarget
    exact hroom target htarget

namespace Inner

variable {s t u : Inner} {i : Inode} {k parent : ℕ} {name : Bytes}

/-- The tree of a filesystem. -/
def tree (s : Inner) : Tree := s.node.tree

/-! ## Creating and linking -/

theorem tree_dir_of_node {entries : List DirEntry} (h : s.node.dir k = some entries) :
    s.tree.kind k = some .directory := by
  obtain ⟨n, hn, hdir, -⟩ := Nodes.entries_of_dir h
  exact Nodes.tree_dir.mpr ⟨n, hn, hdir⟩

theorem tree_look_none {entries : List DirEntry} (h : s.node.dir k = some entries)
    (hnone : entryNamed entries name = none) : s.tree.look k name = none := by
  change s.node.lookup k name = none
  rw [Nodes.lookup_of_dir h]
  exact hnone

theorem Tidy.kept (h : s.Tidy) (ht : Steady s t) (hnode : t.node = s.node) : t.Tidy := by
  have hbecomes := ht.becomes
  rw [hnode] at hbecomes
  exact (h.looked hbecomes).1

theorem Tidy.number_lt (h : s.Tidy) (hk : k < s.sb.nextInode) : k < 2 ^ 64 := hk.trans h.inRange.nextInode

theorem Tidy.distinct (h : s.Tidy) (entries : List DirEntry) (hdir : s.node.dir k = some entries) :
    (entries.map DirEntry.name).Nodup := (h.names k entries hdir).distinct

/-- The tree of a state in which nothing but the cache has changed. -/
theorem tree_of_node (h : t.node = s.node) : t.tree = s.tree := by
  unfold tree
  rw [h]

theorem createChild_nodes (h : s.Tidy) (htree : s.tree.Consistent) (hparent : parent < s.sb.nextInode)
    (hroom : s.node.Roomy parent) (name : Bytes) (mode : UInt16) (uid gid : UInt32) (rdev : UInt64) (creds : Creds) :
    (createChild parent name mode uid gid rdev creds).Holds s
      (fun ino t ↦ s.node.MayCreate parent name ∧ s.node ino = none ∧ ino < t.sb.nextInode ∧
        ∃ entries, s.node.dir parent = some entries ∧ entryNamed entries name = none ∧
          t.node = (s.node.born parent ino (newNode mode uid gid)).list parent
            (entries ++ [⟨ino, FileType.fromMode mode, name⟩]))
      (fun e t ↦ e.IsHost ∨ t.node = s.node) := by
  rw [createChild_eq]
  refine Exec.Holds.bind (createFind_acts h.sound h.writable hparent name creds) ?_ ?_
  · rintro _ t ⟨ht, hnode, hmay⟩
    have hfits : s.node.Fits parent name :=
      hroom.fits htree (fun entries ↦ h.distinct entries) hmay.valid
    rw [← hnode] at hmay hfits
    refine (createEntry_makes (h.kept ht hnode) (ht.next hparent) hmay hfits mode uid gid rdev).mono ?_ ?_
    · rintro ino u ⟨-, hmade⟩
      have hunused := hmade.unused
      have hentries := hmade.node
      rw [hnode] at hmay hunused hentries
      exact ⟨hmay, hunused, hmade.number, hentries⟩
    · rintro e u (he | rfl)
      · exact Or.inl he
      · exact Or.inr hnode
  · rintro e t (he | ⟨-, hnode⟩)
    · exact Or.inl he
    · exact Or.inr hnode

theorem createChild_tree (h : s.Tidy) (htree : s.tree.Consistent) (hparent : parent < s.sb.nextInode)
    (hroom : s.node.Roomy parent) (name : Bytes) (mode : UInt16) (uid gid : UInt32) (rdev : UInt64) (creds : Creds) :
    (createChild parent name mode uid gid rdev creds).Holds s
      (fun ino t ↦ s.tree.Vacant parent name ∧ s.tree.kind ino = none ∧
        t.tree = s.tree.make parent name ino (FileType.fromMode mode))
      (fun e t ↦ e.IsHost ∨ t.tree = s.tree) := by
  have hmakes := createChild_nodes h htree hparent hroom name mode uid gid rdev creds
  refine (Exec.Holds.and (createChild_stays h hparent name mode uid gid rdev creds) hmakes).mono ?_ ?_
  · rintro ino t ⟨⟨ht, -⟩, hmay, hunused, hino, entries, hdir, hfree, hnode⟩
    refine ⟨⟨tree_dir_of_node hdir, hmay.valid, tree_look_none hdir hfree⟩, Nodes.tree_kind_none.mpr hunused, ?_⟩
    have hname := validateName_length hmay.valid
    unfold nameMax at hname
    unfold tree
    rw [hnode]
    exact Nodes.tree_made hunused hdir hfree hroom (ht.1.number_lt hino) (h.number_lt hparent) (by omega) mode uid gid
  · rintro e t ⟨-, he | hnode⟩
    · exact Or.inl he
    · exact Or.inr (tree_of_node hnode)

theorem linkInto_tree (h : s.Tidy) (htree : s.tree.Consistent) {target : ℕ} (htarget : target < s.sb.nextInode)
    (hparent : parent < s.sb.nextInode) (hroom : s.node.Roomy parent) (name : Bytes) (creds : Creds) :
    (linkInto target parent name creds).Holds s
      (fun _ t ↦ ∃ ft, s.tree.Vacant parent name ∧ s.tree.kind target = some ft ∧ ft ≠ .directory ∧
        t.tree = s.tree.link parent name (target, ft))
      (fun e t ↦ e.IsHost ∨ t.tree = s.tree) := by
  by_cases hvalid : validateName name = .ok ()
  · have hfits := hroom.fits htree (fun entries ↦ h.distinct entries) hvalid
    refine Exec.Holds.mono (linkInto_acts h.sound h.writable htarget hparent name creds hfits) ?_ ?_
    · rintro _ t ⟨-, n, entries, hn, hfile, hdir, hfree, -, hnode⟩
      have hname := validateName_length hvalid
      unfold nameMax at hname
      refine ⟨FileType.fromMode n.mode, ⟨tree_dir_of_node hdir, hvalid, tree_look_none hdir hfree⟩,
        Nodes.tree_kind hn, fun hft ↦ ?_, ?_⟩
      · have hisDir : n.isDir = true := Nodes.isDir_iff.mpr hft
        rw [hfile] at hisDir
        cases hisDir
      · unfold tree
        rw [hnode]
        exact Nodes.tree_linked hn hdir hfree hroom (h.number_lt htarget) (by omega)
    · rintro e t (he | ⟨-, hnode⟩)
      · exact Or.inl he
      · exact Or.inr (tree_of_node hnode)
  · unfold linkInto
    rw [Exec.holds_bind_of_ok (requireWrite_ok h.writable)]
    cases hname : validateName name with
    | ok v => exact absurd hname hvalid
    | error e => exact Or.inr rfl

/-! ## Removing -/

theorem Releases.tree {live : Tree} (h : Releases k s t) (hlive : s.tree = live) : Tree.Released k live t.tree := by
  rw [← hlive]
  cases h with
  | named _ _ h =>
    rw [h]
    exact .stays
  | orphaned _ _ _ h =>
    rw [h]
    exact .stays
  | dropped hn hlinks _ h =>
    have hforget : t.tree = s.tree.forget k := by
      unfold Inner.tree
      rw [h.node]
      exact Nodes.tree_forget _ _
    have hkind : s.tree.kind k ≠ none := by
      rw [Inner.tree, Nodes.tree_kind hn]
      exact Option.some_ne_none _
    have hzero : s.tree.nlink k = 0 := (Nodes.tree_nlink hn).trans hlinks
    rw [hforget]
    exact .goes hkind hzero

theorem not_hasExtra {entries : List DirEntry} (h : hasExtra entries = false) {name : Bytes} (hproper : Proper name) :
    entryNamed entries name = none := by
  rw [entryNamed_eq_none, Bool.not_eq_true, List.any_eq_false]
  intro e he hname
  have hextra := (List.any_eq_false.mp h) e he
  rw [beq_iff_eq] at hname
  rw [hname] at hextra
  apply hextra
  rw [Bool.and_eq_true, bne_iff_ne, bne_iff_ne]
  exact hproper

/-- An entry that the checks let go can be taken away. -/
theorem takable_of_mayUnlink {perm rmdir : Bool} {creds : Creds} {entry : ℕ × FileType}
    (h : s.node.MayUnlink perm parent name rmdir creds entry) :
    s.tree.Takable parent name entry ∧ entry.2.isDir = rmdir := by
  have hremovable := h.removable
  unfold Nodes.Removable at hremovable
  split_ifs at hremovable with hrmdir
  · obtain ⟨hdir, entries, hentries, hextra⟩ := hremovable
    refine ⟨⟨h.found, proper_of_valid h.valid, fun _ other hproper ↦ ?_⟩, hdir.trans hrmdir.symm⟩
    exact tree_look_none hentries (not_hasExtra hextra hproper)
  · refine ⟨⟨h.found, proper_of_valid h.valid, fun hdir ↦ ?_⟩, ?_⟩
    · rw [hdir] at hremovable
      cases hremovable
    · rw [hremovable]
      exact (Bool.eq_false_iff.mpr hrmdir).symm

theorem Tidy.entry_lt (h : s.Tidy) {entry : ℕ × FileType} (hfound : s.node.lookup parent name = some entry) :
    entry.1 < s.sb.nextInode := by
  obtain ⟨entries, hdir, hentry⟩ := Option.bind_eq_some_iff.mp hfound
  exact h.namesBelow.lookup hdir hentry

theorem live_of_kind {ft : FileType} (h : s.tree.kind k = some ft) : s.node k ≠ none := by
  intro hnone
  rw [Inner.tree, Nodes.tree_kind_none.mpr hnone] at h
  cases h

theorem Releases.dir (h : Releases k s t) {entries : List DirEntry} (hdir : t.node.dir parent = some entries) :
    s.node.dir parent = some entries := by
  cases h with
  | named _ _ h =>
    rw [h] at hdir
    exact hdir
  | orphaned _ _ _ h =>
    rw [h] at hdir
    exact hdir
  | dropped _ _ _ h =>
    rw [h.node] at hdir
    unfold Nodes.dir at hdir
    by_cases hk : parent = k
    · rw [hk, Function.update_self] at hdir
      cases hdir
    · rw [Function.update_of_ne hk] at hdir
      exact hdir

theorem unlinkEntry_tree (h : s.Tidy) (htree : s.tree.Consistent) (hparent : parent < s.sb.nextInode)
    {entry : ℕ × FileType} (htake : s.tree.Takable parent name entry) :
    (unlinkEntry parent name entry).Holds s
      (fun _ t ↦ Onward s t ∧ Tree.Released entry.1 (s.tree.unlink parent name entry) t.tree ∧
        (s.node.Roomy parent → t.node.Roomy parent))
      (fun e _ ↦ e.IsHost) := by
  have hfound : s.node.lookup parent name = some entry := htake.found
  have hentry := h.entry_lt hfound
  have hlive : s.node entry.1 ≠ none :=
    live_of_kind (htree.entry parent name entry.1 entry.2 htake.found htake.proper).2
  have hunlinks := unlinkEntry_unlinks h.sound h.writable hparent name hentry hlive
    (by rw [hfound]; exact Option.some_ne_none _)
  refine (Exec.Holds.and (unlinkEntry_stays h hparent name hentry) hunlinks).mono ?_ fun _ _ he ↦ he.2
  rintro _ t ⟨⟨ht, -⟩, entries, u, hdir, -, hu, hreleases⟩
  refine ⟨ht, hreleases.tree ?_, fun hroom target htarget ↦ ?_⟩
  · unfold Inner.tree
    rw [hu]
    exact Nodes.tree_unnamed hdir (h.distinct entries hdir) hlive
  · have hplace := hreleases.dir htarget
    rw [hu] at hplace
    apply hroom.erased hdir (q := fun e ↦ e.name == name)
    unfold Nodes.unnamed at hplace
    rw [Nodes.dir_links] at hplace
    split_ifs at hplace
    · rw [Nodes.dir_links] at hplace
      exact hplace
    · exact hplace

theorem unlinkName_tree (h : s.Tidy) (htree : s.tree.Consistent) (hparent : parent < s.sb.nextInode) (name : Bytes)
    (rmdir : Bool) (creds : Creds) :
    (unlinkName parent name rmdir creds).Holds s
      (fun _ t ↦ ∃ entry, s.tree.Takable parent name entry ∧ entry.2.isDir = rmdir ∧
        Tree.Released entry.1 (s.tree.unlink parent name entry) t.tree)
      (fun e t ↦ e.IsHost ∨ t.tree = s.tree) := by
  rw [unlinkName_eq]
  refine Exec.Holds.bind (unlinkFind_acts h.sound h.writable h.namesBelow hparent name rmdir creds) ?_ ?_
  · rintro entry t ⟨ht, hnode, hmay⟩
    obtain ⟨htake, hkind⟩ := takable_of_mayUnlink hmay
    have hsame := tree_of_node hnode
    rw [← hsame] at htake htree
    refine (unlinkEntry_tree (h.kept ht hnode) htree (ht.next hparent) htake).mono ?_ fun _ _ he ↦ Or.inl he
    rintro _ u ⟨-, hreleased, -⟩
    rw [hsame] at htake hreleased
    exact ⟨entry, htake, hkind, hreleased⟩
  · rintro e t (he | ⟨-, hnode, -⟩)
    · exact Or.inl he
    · exact Or.inr (tree_of_node hnode)

end Inner

/-! ## Moving -/

namespace Nodes

variable {f : Nodes} {k p c : ℕ} {name : Bytes} {entries : List DirEntry}

/-- A directory none of whose names is too long. -/
structure Lists (f : Nodes) (k : ℕ) (entries : List DirEntry) : Prop where
  dir : f.dir k = some entries
  names : ∀ e ∈ entries, e.name.length ≤ nameMax

/-- Rewriting one directory keeps this of all. -/
theorem Lists.list {old new : List DirEntry} (h : f.Lists k entries) (hold : f.dir c = some old)
    (hnames : ∀ e ∈ new, e.name.length ≤ nameMax) (hfits : ∀ e ∈ new, e.Fits) (hcount : new.length < 2 ^ 32) :
    ∃ entries, (f.list c new).Lists k entries := by
  by_cases hk : k = c
  · rw [hk]
    exact ⟨new, dir_list hold hfits hcount, hnames⟩
  · refine ⟨entries, ?_, h.names⟩
    rw [dir_list_of_ne hk]
    exact h.dir

theorem Lists.repointed_length (h : f.Lists k entries) (newParent : ℕ) :
    (encodeDir (repointed newParent entries)).length ≤ maxFileSize := by
  apply encodeDir_length_le
  · intro e he
    obtain ⟨old, hold, rfl⟩ := List.mem_map.mp he
    split_ifs
    · exact h.names old hold
    · exact h.names old hold
  · unfold repointed
    rw [List.length_map]
    exact (Inner.fits_of_dir h.dir).1.le

/-- The climb of `is_ancestor` that does not meet a directory. -/
theorem apart_of_climb (h : f.tree.Shape) {dir : ℕ} : ∀ {guard child : ℕ}, f.climb dir guard child = some false →
    ∀ n ≤ guard, f.tree.up^[n] child ≠ dir := by
  intro guard
  induction guard with
  | zero =>
    intro child hclimb n hn
    rw [Nat.le_zero.mp hn]
    exact fun heq ↦ by simp [climb, heq.symm] at hclimb
  | succ guard ih =>
    intro child hclimb n hn
    unfold climb at hclimb
    split_ifs at hclimb with hroot hdir
    · have hup : f.tree.up rootIno = rootIno := by
        unfold Tree.up
        rw [h.top]
        rfl
      rw [hroot, Function.iterate_fixed hup]
      rw [hroot] at hclimb
      exact fun heq ↦ by simp [heq] at hclimb
    · cases hclimb
    · cases n with
      | zero => exact hdir
      | succ n =>
        rw [Function.iterate_succ_apply]
        cases hentries : f.dir child with
        | none =>
          rw [hentries] at hclimb
          cases hclimb
        | some entries =>
          rw [hentries] at hclimb
          dsimp only at hclimb
          have hup : f.tree.up child = ((entryNamed entries dotdotName).map Prod.fst).getD child := by
            unfold Tree.up
            change ((f.lookup child dotdotName).map Prod.fst).getD child = _
            rw [lookup_of_dir hentries]
          cases hfound : entryNamed entries dotdotName with
          | none =>
            rw [hfound] at hup
            have hstay : f.tree.up child = child := hup
            rw [hstay, Function.iterate_fixed hstay]
            exact hdir
          | some v =>
            rw [hfound] at hclimb hup
            have hnext : f.tree.up child = v.1 := hup
            rw [hnext]
            exact ih hclimb n (Nat.succ_le_succ_iff.mp hn)

end Nodes

namespace Inner

variable {s t u : Inner} {k parent oldParent newParent : ℕ} {name oldName newName : Bytes} {src : ℕ × FileType}

theorem Tidy.lists (h : s.Tidy) (htree : s.tree.Consistent) {entries : List DirEntry}
    (hdir : s.node.dir k = some entries) : s.node.Lists k entries :=
  ⟨hdir, fun _ he ↦ Nodes.name_length_le htree hdir (h.distinct entries hdir) he⟩

theorem dir_of_look {v : ℕ × FileType} (h : s.tree.look k name = some v) :
    ∃ entries, s.node.dir k = some entries ∧ entryNamed entries name = some v :=
  Option.bind_eq_some_iff.mp h

/-- Nothing stops the entry from moving. -/
theorem moveFits_of_tree (h : s.Tidy) (htree : s.tree.Consistent) (hsrc : src.1 < s.sb.nextInode)
    (hne : ¬(oldParent = newParent ∧ oldName = newName)) (hlook : s.tree.look oldParent oldName = some src)
    (hproper : Proper oldName) (hvacant : s.tree.Vacant newParent newName) (hroom : s.node.Roomy newParent) :
    s.node.MoveFits oldParent oldName newParent newName src := by
  obtain ⟨entries, hdir, hentry⟩ := dir_of_look hlook
  obtain ⟨v, hdot⟩ : ∃ v, s.tree.look newParent dotName = some v := ⟨_, htree.dot newParent hvacant.dir⟩
  obtain ⟨others, hothers, -⟩ := dir_of_look hdot
  have hlists := h.lists htree hdir
  have hfits := fits_of_dir hdir
  set erased := entries.eraseP (fun e ↦ e.name == oldName) with herased
  have hsub : ∀ e ∈ erased, e ∈ entries := fun e he ↦ List.mem_of_mem_eraseP he
  have herasedCount : erased.length < 2 ^ 32 := List.length_eraseP_le.trans_lt hfits.1
  have herasedFits : ∀ e ∈ erased, e.Fits := fun e he ↦ hfits.2 e (hsub e he)
  have herasedNames : ∀ e ∈ erased, e.name.length ≤ nameMax := fun e he ↦ hlists.names e (hsub e he)
  have hrest : ∀ {k es}, s.node.dir k = some es → ∃ es, (s.node.list oldParent erased).Lists k es :=
    fun hk ↦ (h.lists htree hk).list hdir herasedNames herasedFits herasedCount
  obtain ⟨target, htarget⟩ := hrest hothers
  have hfree : entryNamed target newName = none := by
    have hnone : s.node.lookup newParent newName = none := hvacant.free
    rw [Nodes.lookup_of_dir hothers] at hnone
    by_cases hsame : newParent = oldParent
    · have hplace := htarget.dir
      rw [hsame, Nodes.dir_list hdir herasedFits herasedCount] at hplace
      rw [hsame, hdir] at hothers
      cases hplace
      cases hothers
      rw [herased, entryNamed_eraseP fun heq ↦ hne ⟨hsame.symm, heq.symm⟩]
      exact hnone
    · have hplace := htarget.dir
      rw [Nodes.dir_list_of_ne hsame, hothers] at hplace
      cases hplace
      exact hnone
  have hcount := hroom.erased hdir htarget.dir
  have hname := validateName_length hvacant.valid
  have hnewNames : ∀ e ∈ target ++ [(⟨src.1, src.2, newName⟩ : DirEntry)], e.name.length ≤ nameMax := by
    intro e he
    rcases List.mem_append.mp he with he | he
    · exact htarget.names e he
    · rw [List.mem_singleton.mp he]
      exact hname
  have hnewFits : ∀ e ∈ target ++ [(⟨src.1, src.2, newName⟩ : DirEntry)], e.Fits := by
    intro e he
    rcases List.mem_append.mp he with he | he
    · exact (fits_of_dir htarget.dir).2 e he
    · rw [List.mem_singleton.mp he]
      unfold nameMax at hname
      exact ⟨h.number_lt hsrc, by dsimp only; omega⟩
  have hnewCount : (target ++ [(⟨src.1, src.2, newName⟩ : DirEntry)]).length < 2 ^ 32 := by
    rw [List.length_append]
    exact hcount
  refine ⟨entries, target, hdir, by rw [hentry]; exact Option.some_ne_none _, htarget.dir, hfree, hvacant.valid,
    encodeDir_length_le hnewNames hnewCount.le, fun hisDir _ ↦ ?_⟩
  have hkind := (htree.entry oldParent oldName src.1 src.2 hlook hproper).2
  rw [Nodes.isDir_iff.mp hisDir] at hkind
  obtain ⟨own, hown, -⟩ := dir_of_look (htree.dot src.1 hkind)
  obtain ⟨own', hown'⟩ := hrest hown
  obtain ⟨own'', hown''⟩ := hown'.list htarget.dir hnewNames hnewFits hnewCount
  exact ⟨own'', hown''.dir, hown''.repointed_length newParent⟩

theorem not_dotdot_of_proper (h : Proper name) : dotdotName ≠ name := fun heq ↦ h.2 heq.symm

theorem moveEntry_tree (h : s.Tidy) (htree : s.tree.Consistent) (hold : oldParent < s.sb.nextInode)
    (hnew : newParent < s.sb.nextInode) (hne : ¬(oldParent = newParent ∧ oldName = newName))
    (hlook : s.tree.look oldParent oldName = some src) (hproper : Proper oldName)
    (hvacant : s.tree.Vacant newParent newName) (hroom : s.node.Roomy newParent) :
    (moveEntry oldParent oldName newParent newName src).Holds s
      (fun _ t ↦ t.tree = s.tree.move oldParent oldName newParent newName src) (fun e _ ↦ e.IsHost) := by
  have hsrc : src.1 < s.sb.nextInode := h.entry_lt hlook
  refine Exec.Holds.mono (moveEntry_acts h hold hnew hne hsrc) ?_ ?_
  · rintro _ t ⟨-, -, entries, target, hmoved⟩
    have hname := validateName_length hvacant.valid
    unfold nameMax at hname
    have hplain : (s.node.moved oldParent entries oldName newParent target newName src).tree =
        (s.tree.say oldParent oldName none).say newParent newName (some src) :=
      Nodes.tree_moved hmoved.source (h.distinct entries hmoved.source) hmoved.place hmoved.fresh
        (hroom.erased hmoved.source hmoved.place) (h.number_lt hsrc) (by omega)
    have hnodes := hmoved.nodes
    unfold Tree.move
    dsimp only
    rw [← hplain]
    by_cases hacross : src.2 = .directory ∧ oldParent ≠ newParent
    · have hisDir : src.2.isDir = true ∧ oldParent ≠ newParent := ⟨Nodes.isDir_iff.mpr hacross.1, hacross.2⟩
      rw [if_pos hisDir] at hnodes
      obtain ⟨own, hown, hadopted⟩ := hnodes
      -- the directory still has the `..` entry it had
      have hup : entryNamed own dotdotName = some (oldParent, .directory) := by
        have hlook' : s.tree.look oldParent oldName = some (src.1, .directory) := by
          rw [hlook, ← hacross.1]
        have hlooks := congrArg (fun u : Tree ↦ u.look src.1 dotdotName) hplain
        rw [Tree.say_ne_name _ (not_dotdot_of_proper (proper_of_valid hvacant.valid)),
          Tree.say_ne_name _ (not_dotdot_of_proper hproper), (htree.up _ _ _ hlook' hproper).2] at hlooks
        change Nodes.lookup _ _ _ = _ at hlooks
        rw [Nodes.lookup_of_dir hown] at hlooks
        exact hlooks
      have hlive : ∀ {k}, s.node k ≠ none →
          s.node.moved oldParent entries oldName newParent target newName src k ≠ none :=
        fun hk ↦ Nodes.list_ne_none (Nodes.list_ne_none hk _ _) _ _
      unfold tree
      rw [if_pos hacross, hadopted]
      exact Nodes.tree_adopted hown hup (h.number_lt hnew) (hlive (Nodes.ne_none_of_dir hmoved.source))
        (hlive (live_of_kind hvacant.dir))
    · have hnot : ¬(src.2.isDir = true ∧ oldParent ≠ newParent) :=
        fun hboth ↦ hacross ⟨Nodes.isDir_iff.mp hboth.1, hboth.2⟩
      rw [if_neg hnot] at hnodes
      unfold tree
      rw [if_neg hacross, hnodes]
  · rintro e t (he | ⟨-, -, hfits⟩)
    · exact he
    · exact absurd (moveFits_of_tree h htree hsrc hne hlook hproper hvacant hroom) hfits

/-- The name of a renamed entry after its target has been taken away. -/
theorem moveEntry_over (h : s.Tidy) (htree : s.tree.Consistent) (hold : oldParent < s.sb.nextInode)
    (hnew : newParent < s.sb.nextInode) (hne : ¬(oldParent = newParent ∧ oldName = newName))
    (hlook : s.tree.look oldParent oldName = some src) (hproper : Proper oldName) {dest : ℕ × FileType}
    (htake : s.tree.Takable newParent newName dest) (hroom : s.node.Roomy newParent) :
    (do
      unlinkEntry newParent newName dest
      moveEntry oldParent oldName newParent newName src : Fs Unit).Holds s
      (fun _ t ↦ ∃ u, Tree.Released dest.1 (s.tree.unlink newParent newName dest) u ∧
        t.tree = u.move oldParent oldName newParent newName src) (fun e _ ↦ e.IsHost) := by
  refine (unlinkEntry_tree h htree hnew htake).bind ?_ fun _ _ he ↦ he
  rintro _ u ⟨hu, hreleased, hroomy⟩
  have hlook' : u.tree.look oldParent oldName = some src := by
    rw [htake.look_ne htree hreleased hne]
    exact hlook
  refine (moveEntry_tree hu.1 (hreleased.consistent (htake.unlink htree)) (hu.lt hold) (hu.lt hnew) hne hlook' hproper
    (htake.vacant htree hreleased) (hroomy hroom)).mono ?_ fun _ _ he ↦ he
  intro _ v hv
  exact ⟨u.tree, hreleased, hv⟩

theorem rename_tree (h : s.Tidy) (htree : s.tree.Consistent) (hold : oldParent < s.sb.nextInode)
    (hnew : newParent < s.sb.nextInode) (hroom : s.node.Roomy newParent) (oldName newName : Bytes) (creds : Creds) :
    (rename oldParent oldName newParent newName creds).Holds s
      (fun _ t ↦ Tree.Does (.rename oldParent oldName newParent newName creds) s.tree t.tree)
      (fun e t ↦ e.IsHost ∨ t.tree = s.tree) := by
  rw [rename_eq]
  refine Exec.Holds.bind (renameFind_acts h.sound h.writable h.namesBelow hold hnew oldName newName creds) ?_ ?_
  · rintro r t ⟨ht, hnode, hr⟩
    have htidy := h.kept ht hnode
    have hsame := tree_of_node hnode
    have htree' : t.tree.Consistent := by
      rw [hsame]
      exact htree
    cases hr with
    | @same src hchecked hboth =>
      have hlook : s.tree.look oldParent oldName = some src := hchecked.found
      have hlook' := hlook
      rw [hboth.1, hboth.2] at hlook'
      change Tree.Does _ _ t.tree
      rw [hsame]
      exact .renamesSame hlook hlook' rfl
    | @proceeds src r hchecked hne hout hreplace =>
      have hlook : s.tree.look oldParent oldName = some src := hchecked.found
      have hproper := proper_of_valid hchecked.oldValid
      have hapart : src.2 = .directory → s.tree.Apart src.1 newParent := fun hdir ↦
        Nodes.apart_of_climb htree.toShape (hout (Nodes.isDir_iff.mpr hdir))
      have hlookt : t.tree.look oldParent oldName = some src := by
        rw [hsame]
        exact hlook
      cases hreplace with
      | @linked dest hdest hino =>
        change Tree.Does _ _ t.tree
        rw [hsame]
        exact .renamesSame hlook hdest hino
      | @fresh entries hdir hnone =>
        have hvacant : s.tree.Vacant newParent newName :=
          ⟨tree_dir_of_node hdir, hchecked.newValid, tree_look_none hdir hnone⟩
        refine (moveEntry_tree htidy htree' (ht.next hold) (ht.next hnew) hne hlookt hproper (by rw [hsame]; exact hvacant)
          (by rw [hnode]; exact hroom)).mono ?_ fun _ _ he ↦ Or.inl he
        intro _ u hu
        rw [hu, hsame]
        exact .renames hlook hproper hvacant hapart
      | @replaces dest hother hkind hmay =>
        obtain ⟨htake, -⟩ := takable_of_mayUnlink hmay
        refine (moveEntry_over htidy htree' (ht.next hold) (ht.next hnew) hne hlookt hproper (by rw [hsame]; exact htake)
          (by rw [hnode]; exact hroom)).mono ?_ fun _ _ he ↦ Or.inl he
        rintro _ u ⟨v, hreleased, hu⟩
        rw [hsame] at hreleased
        rw [hu]
        exact .replaces hlook hproper htake hother hkind hapart hreleased
  · rintro e t (he | ⟨-, hnode, -⟩)
    · exact Or.inl he
    · exact Or.inr (tree_of_node hnode)

end Inner

end LinuxFile
