import LinuxFile.Spec.Paths
import LinuxFile.Spec.WholeFiles

/-!
# Symbolic links

A link is followed by walking its target from the directory the link is in.
-/

namespace LinuxFile

open LinuxFile.Inner

namespace Nodes

variable {f : Nodes} {perm : Bool} {args : WalkArgs} {r q : Resolved} {k : ℕ} {n : Node}

/-- The walk ended at a name, and the inode with that name is a link. -/
structure EndsAtLink (f : Nodes) (r : Resolved) (k : ℕ) (n : Node) : Prop where
  ino : r.ino = some k
  name : r.name ≠ [] ∧ r.name ≠ dotdotName
  node : f k = some n
  link : (FileType.fromMode n.mode).isSymlink = true

section Follow

variable {root : ℕ} {creds : Creds} {stop follow : ℕ → UnixPath → Option Resolved}

theorem walkFrom_follows (h : f.EndsAtLink r k n) (hfollow : ∀ dir path, stop dir path = some r → follow dir path = some q)
    (hlast : follow r.parent n.bytes = some q) (comps : List Component) : ∀ {dir : ℕ},
    f.walkFrom perm ⟨root, false, creds⟩ stop dir comps = some r →
      f.walkFrom perm ⟨root, true, creds⟩ follow dir comps = some q := by
  induction comps with
  | nil =>
    intro dir hr
    cases hr
    exact absurd rfl h.name.1
  | cons c rest ih =>
    intro dir hr
    cases c with
    | rootDir => exact ih hr
    | curDir => exact ih hr
    | parentDir =>
      cases hn : f dir with
      | none =>
        rw [walkFrom_none hn _ (Or.inl rfl)] at hr
        cases hr
      | some m =>
        rw [walkFrom_parentDir hn] at hr ⊢
        by_cases hallows : m.allows perm creds .exec
        swap
        · rw [if_neg hallows] at hr
          cases hr
        rw [if_pos hallows] at hr ⊢
        obtain ⟨up, hup, hr⟩ := Option.bind_eq_some_iff.mp hr
        rw [hup, Option.bind_some]
        split_ifs at hr ⊢
        · cases hr
          exact absurd rfl h.name.2
        · exact ih hr
    | normal name =>
      cases hn : f dir with
      | none =>
        rw [walkFrom_none hn _ (Or.inr ⟨name, rfl⟩)] at hr
        cases hr
      | some m =>
        rw [walkFrom_normal hn] at hr ⊢
        by_cases hallows : m.allows perm creds .exec
        swap
        · rw [if_neg hallows] at hr
          cases hr
        rw [if_pos hallows] at hr ⊢
        obtain ⟨entries, hdir, hr⟩ := Option.bind_eq_some_iff.mp hr
        rw [hdir, Option.bind_some]
        cases hentry : entryNamed entries name with
        | none =>
          rw [hentry] at hr
          dsimp only at hr
          split_ifs at hr
          cases hr
          cases h.ino
        | some v =>
          rw [hentry] at hr
          dsimp only at hr ⊢
          obtain ⟨c, hc, hr⟩ := Option.bind_eq_some_iff.mp hr
          rw [hc, Option.bind_some]
          by_cases hrest : rest = []
          · have hplain : ¬((FileType.fromMode c.mode).isSymlink = true ∧ (rest ≠ [] ∨ false = true)) := by
              rintro ⟨-, hne | hf⟩
              · exact hne hrest
              · cases hf
            rw [if_neg hplain, if_pos hrest] at hr
            cases hr
            have hnode := h.node
            rw [← Option.some.inj h.ino, hc] at hnode
            cases hnode
            rw [if_pos ⟨h.link, Or.inr rfl⟩, hrest]
            exact hlast
          · by_cases hlink : (FileType.fromMode c.mode).isSymlink = true
            · rw [if_pos ⟨hlink, Or.inl hrest⟩] at hr ⊢
              exact hfollow dir _ hr
            · rw [if_neg fun hboth ↦ hlink hboth.1, if_neg hrest] at hr ⊢
              exact ih hr

/-- Where the target leads from the link's directory, there the link leads. -/
theorem walk_follows (h : f.EndsAtLink r k n) (hq : q.ino ≠ none) {more : ℕ}
    (htarget : f.walk perm ⟨root, true, creds⟩ more r.parent n.bytes = some q) (depth : ℕ) :
    ∀ {cwd : ℕ} {path : UnixPath}, f.walk perm ⟨root, false, creds⟩ depth cwd path = some r →
      f.walk perm ⟨root, true, creds⟩ (depth + more) cwd path = some q := by
  induction depth with
  | zero =>
    intro cwd path hr
    cases hr
  | succ depth ih =>
    intro cwd path hr
    have hlast : f.walk perm ⟨root, true, creds⟩ (depth + more) r.parent n.bytes = some q := by
      rw [Nat.add_comm]
      exact walk_more hq depth more htarget
    rw [Nat.add_right_comm]
    unfold Nodes.walk at hr ⊢
    dsimp only at hr ⊢
    by_cases hempty : path = []
    · rw [if_pos hempty] at hr
      cases hr
    rw [if_neg hempty] at hr ⊢
    by_cases hcomps : UnixPath.components path = []
    · rw [if_pos hcomps] at hr
      cases hr
      exact absurd rfl h.name.1
    · rw [if_neg hcomps] at hr ⊢
      have hfollow : ∀ dir path, f.walk perm ⟨root, false, creds⟩ depth dir path = some r →
          f.walk perm ⟨root, true, creds⟩ (depth + more) dir path = some q := fun _ _ hr ↦ ih hr
      exact walkFrom_follows h hfollow hlast _ hr

end Follow

end Nodes

namespace Inner

variable {s t : Inner} {depth : ℕ} {target link : UnixPath}

/-- A link to `target` was made at the end `r` of the path. -/
structure Linked (s : Inner) (r : Resolved) (target : UnixPath) (ino : ℕ) (t : Inner) : Prop where
  rooted : t.Rooted
  parent : r.parent < t.sb.nextInode
  name : r.name ≠ [] ∧ r.name ≠ dotdotName
  node : ∃ n, t.node ino = some n ∧ (FileType.fromMode n.mode).isSymlink = true ∧ n.bytes = target
  keeps : s.node.KeepsPaths t.node
  others : ∀ k n, s.node k = some n → n.isDir = false → t.node k = some n

/-- `symlink`; a call that fails, but not on the host, makes no link. -/
theorem symlink_leaves (h : s.Rooted) (hspace : s.Spacious) (depth : ℕ) (link : UnixPath)
    (hlen : target.length ≤ maxFileSize) :
    Leaves (Facade.symlink depth target link) s
      (fun _ t ↦ ∃ r ino, s.node.found depth link false = some r ∧ r.ino = none ∧
        t.node.found depth link false = some { r with ino := some ino } ∧ Linked s r target ino t)
      (fun t ↦ t.node = s.node) := by
  unfold Facade.symlink
  refine (makeAt_leaves h hspace depth link false _ 0).bind ?_
  rintro ino t ht ⟨hrooted, r, hfound, hfree, hmakes⟩
  have hroom := hspace r.parent
  obtain ⟨n, hn, hmode, hsame⟩ := hmakes.self
  have hfile : (newNode (sIflnk ||| 0o777) 0 0).isDir = false := by decide
  have hlink : (FileType.fromMode n.mode).isSymlink = true := by
    rw [hsame hfile]
    decide
  have hnode : n.isDir = false := by
    rw [hsame hfile]
    exact hfile
  have hbytes : n.bytes = [] := by
    rw [hsame hfile]
    rfl
  refine Leaves.bind ((fill_leaves ht.1 hn hnode hbytes hlen).mono (fun _ _ _ hu ↦ hu) fun _ hf ↦ hf.elim) ?_
  rintro _ u hu ⟨-, hfill⟩
  have hgrows : s.node.Grows u.node (fun k nm ↦ k = r.parent ∧ nm = r.name) := by
    rw [hfill]
    refine (hmakes.grows ht.1 hroom).refill hn hnode ?_ target
    intro m hm
    rw [hmakes.unused] at hm
    cases hm
  have htree : u.tree = t.tree := by
    unfold Inner.tree
    rw [hfill]
    exact Nodes.tree_refill hn hnode target
  have hself : u.node ino = some { n with bytes := target } := by rw [hfill, Function.update_self]
  have hlook : u.node.lookup r.parent r.name = some (ino, FileType.fromMode (sIflnk ||| 0o777)) :=
    (congrFun (congrFun (congrArg Tree.look htree) r.parent) r.name).trans (hmakes.lookup ht.1 hroom)
  have hplain : u.node.Plainly (fun k nm ↦ k = r.parent ∧ nm = r.name) false := by
    rintro k nm v ⟨rfl, rfl⟩ hv
    rw [hlook] at hv
    cases hv
    exact ⟨_, hself, fun _ ↦ rfl⟩
  have hfound' : u.node.found depth link false = some { r with ino := some ino } := by
    have hwalk : u.node.found depth link false = some (r.completed u.node) := hgrows.walk (fun _ ↦ hplain) depth hfound
    rw [hwalk]
    unfold Resolved.completed
    rw [hfree, hlook]
    rfl
  have hname : r.name ≠ [] ∧ r.name ≠ dotdotName :=
    ⟨(UnixPath.valid_relative hmakes.valid).1, (proper_of_valid hmakes.valid).2⟩
  have hparent : r.parent < u.sb.nextInode := by
    obtain ⟨entries, hdir⟩ := Nodes.dir_of_lookup hlook
    obtain ⟨m, hm, -⟩ := Nodes.entries_of_dir hdir
    exact hu.1.live_lt hm
  refine Leaves.pure hu.1
    ⟨r, ino, hfound, hfree, hfound', ⟨hu.1, ?_⟩, hparent, hname, ⟨_, hself, hlink, rfl⟩, hgrows.keepsPaths, ?_⟩
  · rw [htree]
    exact hrooted.tree
  · intro k m hm hfile
    have hne : k ≠ ino := by
      rintro rfl
      rw [hmakes.unused] at hm
      cases hm
    rw [hfill, Function.update_of_ne hne]
    exact hmakes.others hne hm hfile

end Inner

end LinuxFile
