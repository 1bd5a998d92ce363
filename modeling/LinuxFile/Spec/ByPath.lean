import LinuxFile.PathCalls
import LinuxFile.Spec.Growth
import LinuxFile.Spec.TreeRuns

/-!
# Calls by path over the namespace

What the parts of a call by path do to the nodes: the walk reads them, a creation adds one, a write or a truncation
replaces the bytes of one, and counting an open file changes none.
-/

namespace LinuxFile

open LinuxFile.Inner

/-! ## The superuser's walk -/

namespace Nodes

variable {f g : Nodes} {perm perm' : Bool} {k : ℕ} {n : Node}

/-- The superuser may search every directory. -/
theorem allows_root (hdir : n.isDir = true) (perm : Bool) : n.allows perm Creds.root .exec := by
  intro _
  have htype : FileType.fromMode n.mode = .directory := isDir_iff.mp hdir
  unfold checkAccess
  rw [htype]
  exact Bool.or_true _

/-- The inodes differ in what the superuser's walk does not look at. -/
structure Matches (f g : Nodes) : Prop where
  none : ∀ k, f k = none ↔ g k = none
  kind : ∀ k n m, f k = some n → g k = some m → FileType.fromMode m.mode = FileType.fromMode n.mode
  dir : ∀ k, g.dir k = f.dir k
  target : ∀ k n m, f k = some n → g k = some m → (FileType.fromMode n.mode).isSymlink = true → m.bytes = n.bytes

theorem Matches.refl (f : Nodes) : f.Matches f where
  none _ := Iff.rfl
  kind k n m hn hm := by
    rw [hn] at hm
    cases hm
    rfl
  dir _ := rfl
  target k n m hn hm _ := by
    rw [hn] at hm
    cases hm
    rfl

theorem Matches.some (h : f.Matches g) (hn : f k = Option.some n) : ∃ m, g k = Option.some m := by
  cases hm : g k with
  | none =>
    rw [(h.none k).mpr hm] at hn
    cases hn
  | some m => exact ⟨m, rfl⟩

theorem Matches.parentOf (h : f.Matches g) (root dir : ℕ) : g.parentOf root dir = f.parentOf root dir := by
  unfold Nodes.parentOf
  rw [h.dir]

theorem isDir_of_kind {m n : Node} (h : FileType.fromMode m.mode = FileType.fromMode n.mode) : m.isDir = n.isDir := by
  unfold Node.isDir
  rw [h]

variable {root : ℕ} {followLast : Bool} {follow : ℕ → UnixPath → Option Resolved}

theorem walkFrom_root (h : f.Matches g) (hroot : ∃ n, f root = some n ∧ n.isDir = true) (comps : List Component) :
    ∀ dir : ℕ, f.walkFrom perm ⟨root, followLast, Creds.root⟩ follow dir comps =
      g.walkFrom perm' ⟨root, followLast, Creds.root⟩ follow dir comps := by
  induction comps with
  | nil => exact fun _ ↦ rfl
  | cons c rest ih =>
    intro dir
    cases c with
    | rootDir => exact ih root
    | curDir => exact ih dir
    | parentDir =>
      cases hn : f dir with
      | none => rw [walkFrom_none hn _ (Or.inl rfl), walkFrom_none ((h.none dir).mp hn) _ (Or.inl rfl)]
      | some n =>
        obtain ⟨m, hm⟩ := h.some hn
        rw [walkFrom_parentDir hn, walkFrom_parentDir hm, h.parentOf]
        by_cases hdir : n.isDir = true
        · have hdir' : m.isDir = true := (isDir_of_kind (h.kind dir n m hn hm)).trans hdir
          rw [if_pos (allows_root hdir perm), if_pos (allows_root hdir' perm')]
          simp only [ih]
        · have hne : dir ≠ root := by
            rintro rfl
            obtain ⟨n', hn', hisDir⟩ := hroot
            rw [hn] at hn'
            cases hn'
            exact hdir hisDir
          have hparent : f.parentOf root dir = none := by
            unfold Nodes.parentOf
            rw [if_pos hne, dir_of_some hn, Node.entries_of_file (Bool.eq_false_iff.mpr hdir)]
            rfl
          rw [hparent, Option.bind_none, ite_self, Option.bind_none, ite_self]
    | normal name =>
      cases hn : f dir with
      | none =>
        rw [walkFrom_none hn _ (Or.inr ⟨name, rfl⟩), walkFrom_none ((h.none dir).mp hn) _ (Or.inr ⟨name, rfl⟩)]
      | some n =>
        obtain ⟨m, hm⟩ := h.some hn
        rw [walkFrom_normal hn, walkFrom_normal hm, h.dir]
        by_cases hdir : n.isDir = true
        · have hdir' : m.isDir = true := (isDir_of_kind (h.kind dir n m hn hm)).trans hdir
          rw [if_pos (allows_root hdir perm), if_pos (allows_root hdir' perm')]
          apply Option.bind_congr
          intro entries _
          cases entryNamed entries name with
          | none => rfl
          | some v =>
            dsimp only
            cases hc : f v.1 with
            | none => rw [(h.none v.1).mp hc, Option.bind_none, Option.bind_none]
            | some c =>
              obtain ⟨c', hc'⟩ := h.some hc
              rw [hc', Option.bind_some, Option.bind_some, h.kind v.1 c c' hc hc', ih]
              by_cases hlink : (FileType.fromMode c.mode).isSymlink = true ∧ (rest ≠ [] ∨ followLast = true)
              · rw [if_pos hlink, if_pos hlink, h.target v.1 c c' hc hc' hlink.1]
              · rw [if_neg hlink, if_neg hlink]
        · rw [dir_of_some hn, Node.entries_of_file (Bool.eq_false_iff.mpr hdir), Option.bind_none, ite_self,
            Option.bind_none, ite_self]

/-- Neither permission checks nor attributes matter to the superuser's walk. -/
theorem walk_root (h : f.Matches g) (hroot : ∃ n, f root = some n ∧ n.isDir = true) (perm perm' : Bool) (depth : ℕ) :
    f.walk perm ⟨root, followLast, Creds.root⟩ depth = g.walk perm' ⟨root, followLast, Creds.root⟩ depth := by
  induction depth with
  | zero => rfl
  | succ depth ih =>
    funext cwd path
    unfold Nodes.walk
    rw [ih]
    dsimp only
    split_ifs
    · rfl
    · rfl
    · rfl
    · exact walkFrom_root h hroot _ _
    · exact walkFrom_root h hroot _ _

/-- Where a path leads from the root directory. -/
def found (f : Nodes) (depth : ℕ) (path : UnixPath) (follow : Bool) : Option Resolved :=
  f.walk true ⟨rootIno, follow, Creds.root⟩ depth rootIno path

/-- The inode at its end. -/
def leads (f : Nodes) (depth : ℕ) (path : UnixPath) (follow : Bool) : Option ℕ :=
  (f.found depth path follow).bind Resolved.ino

theorem leads_of_found {depth : ℕ} {path : UnixPath} {follow : Bool} {r : Resolved}
    (hfound : f.found depth path follow = some r) : f.leads depth path follow = r.ino := by
  unfold leads
  rw [hfound, Option.bind_some]

theorem KeepsPaths.leads {g : Nodes} (h : f.KeepsPaths g) {depth : ℕ} {path : UnixPath} {follow : Bool}
    (hk : f.leads depth path follow = some k) : g.leads depth path follow = some k := by
  obtain ⟨r, hr, hino⟩ := Option.bind_eq_some_iff.mp hk
  have hfound : g.found depth path follow = some r := by
    refine h _ _ _ _ _ _ hr ?_
    rw [hino]
    exact Option.some_ne_none k
  rw [leads_of_found hfound, hino]

end Nodes

namespace Inner

variable {α β : Type} {s t u : Inner} {k parent ino : ℕ} {name : Bytes} {n : Node}

/-! ## Calls that leave a tidy state -/

/-- The call leaves a tidy state as `Q` says if it returns, and as `E` says if it fails, but not on the host. -/
def Leaves (x : Fs α) (s : Inner) (Q : α → Inner → Prop) (E : Inner → Prop) : Prop :=
  x.Holds s (fun a t ↦ Onward s t ∧ Q a t) (fun e t ↦ e.IsHost ∨ Onward s t ∧ E t)

section Rules

variable {x : Fs α} {f : α → Fs β} {Q Q' : α → Inner → Prop} {R : β → Inner → Prop} {E E' : Inner → Prop}

theorem Leaves.holds (h : Leaves x s Q E) (hQ : ∀ a t, Q a t → Q' a t) :
    x.Holds s Q' (fun e t ↦ e.IsHost ∨ E t) :=
  Exec.Holds.mono h (fun a t ht ↦ hQ a t ht.2) (fun _ _ he ↦ he.imp_right And.right)

theorem Leaves.mono (h : Leaves x s Q E) (hQ : ∀ a t, Onward s t → Q a t → Q' a t) (hE : ∀ t, E t → E' t) :
    Leaves x s Q' E' := by
  refine Exec.Holds.mono h ?_ ?_
  · intro a t ht
    exact ⟨ht.1, hQ a t ht.1 ht.2⟩
  · rintro e t (he | ht)
    · exact Or.inl he
    · exact Or.inr ⟨ht.1, hE t ht.2⟩

theorem Leaves.bind (h : Leaves x s Q E) (hf : ∀ a t, Onward s t → Q a t → Leaves (f a) t R E) :
    Leaves (x >>= f) s R E := by
  refine Exec.Holds.bind h ?_ fun _ _ he ↦ he
  intro a t ht
  refine Exec.Holds.mono (hf a t ht.1 ht.2) ?_ ?_
  · intro b u hu
    exact ⟨ht.1.trans hu.1, hu.2⟩
  · rintro e u (he | hu)
    · exact Or.inl he
    · exact Or.inr ⟨ht.1.trans hu.1, hu.2⟩

theorem Leaves.pure {a : α} (h : s.Tidy) (hq : Q a s) : Leaves (Pure.pure a) s Q E := ⟨h.onward, hq⟩

theorem Leaves.throw {e : Error} (h : s.Tidy) (he : E s) : Leaves (Exec.throw e) s Q E := Or.inr ⟨h.onward, he⟩

theorem Leaves.of_acts {q : α → Nodes → Prop} {E : Nodes → Prop} (hstays : Stays x s Q)
    (hacts : Acts x s q E) : Leaves x s (fun a t ↦ Q a t ∧ q a t.node) (fun t ↦ E t.node) := by
  refine (Exec.Holds.and hstays hacts).mono ?_ ?_
  · rintro a t ⟨⟨ht, hq⟩, -, hnode⟩
    exact ⟨ht, hq, hnode⟩
  · rintro e t ⟨he | ht, he' | ⟨-, hnode⟩⟩
    · exact Or.inl he
    · exact Or.inl he
    · exact Or.inl he'
    · exact Or.inr ⟨ht, hnode⟩

end Rules

/-! ## The walk -/

theorem Rooted.root_dir (h : s.Rooted) : ∃ n, s.node rootIno = some n ∧ n.isDir = true := Nodes.tree_dir.mp h.tree.root

theorem Tidy.live_lt (h : s.Tidy) (hn : s.node k = some n) : k < s.sb.nextInode := by
  obtain ⟨i, hi, -⟩ := mem_of_node hn
  exact (h.sound.inv.numbered.keys k i hi).2.1

theorem Rooted.root_lt (h : s.Rooted) : rootIno < s.sb.nextInode := by
  obtain ⟨n, hn, -⟩ := h.root_dir
  exact h.tidy.live_lt hn

theorem lookUp_leaves (h : s.Rooted) (depth : ℕ) (path : UnixPath) (follow : Bool) :
    Leaves (Facade.lookUp depth path follow) s
      (fun r t ↦ Resolved.Below r t ∧ t.node = s.node ∧ s.node.found depth path follow = some r)
      (fun t ↦ t.node = s.node ∧ s.node.found depth path follow = none) := by
  have hroot := h.root_lt
  have hwalk : Acts (walk ⟨rootIno, follow, Creds.root⟩ depth rootIno path) s
      (fun r g ↦ g = s.node ∧ s.node.found depth path follow = some r)
      (fun g ↦ g = s.node ∧ s.node.found depth path follow = none) := by
    unfold Nodes.found
    rw [Nodes.walk_root (.refl s.node) h.root_dir true s.checkPerm depth]
    exact walk_computes depth rootIno path s h.tidy.sound h.tidy.namesBelow hroot hroot
  exact Leaves.of_acts (walk_stays _ depth rootIno path s h.tidy hroot hroot) hwalk

/-! ## Making an inode -/

/-- One more entry fits into every directory. -/
def Spacious (s : Inner) : Prop := ∀ parent, s.node.Roomy parent

theorem Rooted.kept (h : s.Rooted) (ht : Onward s t) (hnode : t.node = s.node) : t.Rooted := by
  refine ⟨ht.1, ?_⟩
  rw [tree_of_node hnode]
  exact h.tree

/-- The inode `ino` was made under a name that was free. -/
structure Makes (s : Inner) (parent : ℕ) (name : Bytes) (n : Node) (ino : ℕ) (t : Inner) : Prop where
  valid : validateName name = .ok ()
  unused : s.node ino = none
  number : ino < t.sb.nextInode
  node : ∃ entries, s.node.dir parent = some entries ∧ entryNamed entries name = none ∧
    t.node = s.node.madeAt parent name entries ino n

theorem createChild_leaves (h : s.Rooted) (hparent : parent < s.sb.nextInode) (hroom : s.node.Roomy parent) (name : Bytes)
    (mode : UInt16) (uid gid : UInt32) (rdev : UInt64) (creds : Creds) :
    Leaves (createChild parent name mode uid gid rdev creds) s
      (fun ino t ↦ t.Rooted ∧ Makes s parent name (newNode mode uid gid) ino t) (fun t ↦ t.node = s.node) := by
  have hstays := createChild_stays h.tidy hparent name mode uid gid rdev creds
  have hmakes := createChild_nodes h.tidy h.tree hparent hroom name mode uid gid rdev creds
  have htree := createChild_tree h.tidy h.tree hparent hroom name mode uid gid rdev creds
  refine (Exec.Holds.and hstays (hmakes.and htree)).mono ?_ ?_
  · rintro ino t ⟨⟨ht, -⟩, ⟨hmay, hunused, hino, entries, hdir, hfree, hnode⟩, hvacant, hnone, hmade⟩
    refine ⟨ht, ⟨ht.1, ?_⟩, hmay.valid, hunused, hino, entries, hdir, hfree, hnode⟩
    rw [hmade]
    exact h.tree.make hvacant.dir hvacant.valid hvacant.free hnone _
  · rintro e t ⟨he | ht, he' | hnode, -⟩
    · exact Or.inl he
    · exact Or.inl he
    · exact Or.inl he'
    · exact Or.inr ⟨ht, hnode⟩

theorem makeAt_leaves (h : s.Rooted) (hspace : s.Spacious) (depth : ℕ) (path : UnixPath) (follow : Bool) (mode : UInt16)
    (dev : UInt64) :
    Leaves (Facade.makeAt depth path follow mode dev) s
      (fun ino t ↦ t.Rooted ∧ ∃ r, s.node.found depth path follow = some r ∧ r.ino = none ∧
        Makes s r.parent r.name (newNode mode 0 0) ino t)
      (fun t ↦ t.node = s.node) := by
  unfold Facade.makeAt
  refine Leaves.bind ((lookUp_leaves h depth path follow).mono (fun _ _ _ hr ↦ hr) fun _ ht ↦ ht.1) ?_
  rintro r t ht ⟨hbelow, hnode, hfound⟩
  cases hino : r.ino with
  | some k => exact Leaves.throw ht.1 hnode
  | none =>
    have hroom : t.node.Roomy r.parent := by
      rw [hnode]
      exact hspace r.parent
    refine (createChild_leaves (h.kept ht hnode) hbelow.1 hroom r.name mode _ _ dev Creds.root).mono ?_ ?_
    · rintro ino u - ⟨hu, hvalid, hunused, hnumber, hmade⟩
      rw [hnode] at hunused hmade
      exact ⟨hu, r, hfound, hino, hvalid, hunused, hnumber, hmade⟩
    · rintro u hu
      exact hu.trans hnode

namespace Makes

variable (h : Makes s parent name n ino t) (ht : t.Tidy) (hroom : s.node.Roomy parent)

include h ht hroom

theorem grows : s.node.Grows t.node (fun k nm ↦ k = parent ∧ nm = name) := by
  obtain ⟨entries, hdir, hfree, hnode⟩ := h.node
  rw [hnode]
  exact Nodes.grows_madeAt h.unused hdir hfree (hroom entries hdir) h.valid (ht.number_lt h.number)

theorem lookup : t.node.lookup parent name = some (ino, FileType.fromMode n.mode) := by
  obtain ⟨entries, hdir, hfree, hnode⟩ := h.node
  rw [hnode]
  exact Nodes.madeAt_lookup h.unused hdir hfree (hroom entries hdir) h.valid (ht.number_lt h.number)

omit ht hroom in
theorem self : ∃ n', t.node ino = some n' ∧ n'.mode = n.mode ∧ (n.isDir = false → n' = n) := by
  obtain ⟨entries, hdir, hfree, hnode⟩ := h.node
  have hne : ino ≠ parent := by
    rintro rfl
    have hunused := h.unused
    rw [Nodes.dir_of_none hunused] at hdir
    cases hdir
  rw [hnode]
  exact Nodes.madeAt_self hne entries name

theorem plainly {followLast : Bool} (hplain : followLast = false ∨ (FileType.fromMode n.mode).isSymlink = false) :
    t.node.Plainly (fun k nm ↦ k = parent ∧ nm = name) followLast := by
  rintro k nm v ⟨rfl, rfl⟩ hlook
  rw [h.lookup ht hroom] at hlook
  cases hlook
  obtain ⟨n', hn', hmode, -⟩ := h.self
  refine ⟨n', hn', fun hlink ↦ ?_⟩
  rw [hmode] at hlink
  rcases hplain with hlast | hfile
  · exact hlast
  · rw [hfile] at hlink
    cases hlink

omit ht hroom in
theorem others {m : Node} (hk : k ≠ ino) (hm : s.node k = some m) (hfile : m.isDir = false) : t.node k = some m := by
  obtain ⟨entries, hdir, hfree, hnode⟩ := h.node
  have hparent : k ≠ parent := by
    rintro rfl
    rw [Nodes.dir_of_some hm, Node.entries_of_file hfile] at hdir
    cases hdir
  rw [hnode, Nodes.madeAt_of_ne hk hparent, hm]

/-- The path that ended at the free name leads to the new inode. -/
theorem found {depth : ℕ} {path : UnixPath} {follow : Bool} {r : Resolved}
    (hfound : s.node.found depth path follow = some r) (hfree : r.ino = none) (hparent : r.parent = parent)
    (hname : r.name = name) (hplain : follow = false ∨ (FileType.fromMode n.mode).isSymlink = false) :
    t.node.found depth path follow = some { r with ino := some ino } := by
  have hfound' : t.node.found depth path follow = some (r.completed t.node) :=
    (h.grows ht hroom).walk (fun _ ↦ h.plainly ht hroom hplain) depth hfound
  rw [hfound']
  unfold Resolved.completed
  rw [hfree, hparent, hname, h.lookup ht hroom]
  rfl

end Makes

/-- The inode that a path leads to, as `find` finds it. -/
theorem find_leaves (h : s.Rooted) (depth : ℕ) (path : UnixPath) (follow : Bool) :
    Leaves (Facade.find depth path follow) s (fun k t ↦ t.node = s.node ∧ s.node.leads depth path follow = some k)
      (fun t ↦ t.node = s.node ∧ s.node.leads depth path follow = none) := by
  unfold Facade.find
  refine Leaves.bind ((lookUp_leaves h depth path follow).mono (fun _ _ _ hr ↦ hr) ?_) ?_
  · rintro t ⟨hnode, hnone⟩
    refine ⟨hnode, ?_⟩
    unfold Nodes.leads
    rw [hnone, Option.bind_none]
  · rintro r t ht ⟨-, hnode, hfound⟩
    rw [Nodes.leads_of_found hfound]
    cases hino : r.ino with
    | some k => exact Leaves.pure ht.1 ⟨hnode, rfl⟩
    | none => exact Leaves.throw ht.1 ⟨hnode, rfl⟩

end Inner

end LinuxFile
