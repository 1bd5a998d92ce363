import LinuxFile.Spec.Attached
import LinuxFile.Theorems.Chroot

/-!
# Walks stay in their subtree

A walk starts below its root directory and leads to something that an entry below the root names. What is no
directory has a name there, so that its count of links is not zero.
-/

namespace LinuxFile

open Relation

namespace Tree

variable {t : Tree} {root k p c : ℕ} {name : Bytes} {ft : FileType}

/-- The directories below `root`, and what they name. -/
def Within (t : Tree) (root k : ℕ) : Prop :=
  ∃ d, ReflTransGen t.Child root d ∧ (k = d ∨ ∃ name ft, Proper name ∧ t.look d name = some (k, ft))

theorem within_root (t : Tree) (root : ℕ) : t.Within root root := ⟨root, .refl, Or.inl rfl⟩

theorem Within.dir (hk : t.Within root k) (h : t.Shape) (hdir : t.kind k = some .directory) :
    ReflTransGen t.Child root k := by
  obtain ⟨d, hd, rfl | ⟨name, ft, hproper, hlook⟩⟩ := hk
  · exact hd
  · have hkind := (h.entry d name k ft hlook hproper).2
    rw [hdir] at hkind
    cases hkind
    exact hd.tail ⟨name, hproper, hlook⟩

theorem Within.entry (hk : t.Within root k) (h : t.Shape) (hproper : Proper name) (hlook : t.look k name = some (c, ft)) :
    t.Within root c :=
  ⟨k, hk.dir h (h.owner k name _ hlook), Or.inr ⟨name, ft, hproper, hlook⟩⟩

/-- `..` leads above the root from the root only. -/
theorem Within.up (hk : t.Within root k) (h : t.Shape) (hne : k ≠ root) (hlook : t.look k dotdotName = some (p, ft)) :
    t.Within root p := by
  rcases (hk.dir h (h.owner k _ _ hlook)).cases_tail with heq | ⟨d, hd, hchild⟩
  · exact absurd heq hne
  · obtain ⟨name, hproper, hname⟩ := hchild
    have hup := (h.up d name k hname hproper).2
    rw [hlook] at hup
    cases hup
    exact ⟨p, hd, Or.inl rfl⟩

/-- A file that is found has a name, which its count of links counts. -/
theorem Within.nlink_pos (hk : t.Within rootIno k) (h : t.Consistent) (hkind : t.kind k = some ft)
    (hfile : ft ≠ .directory) : t.nlink k ≠ 0 := by
  have hnamed : (t.names k).Nonempty := by
    obtain ⟨d, hd, rfl | ⟨name, ft', hproper, hlook⟩⟩ := hk
    · have hdir := h.toShape.kind_of_attached hd
      rw [hkind] at hdir
      exact absurd (Option.some.inj hdir) hfile
    · exact ⟨(d, name), hproper, ft', hlook⟩
  rw [h.files k ft hkind hfile]
  exact ((Set.ncard_pos (h.toShape.names_finite k)).mpr hnamed).ne'

end Tree

namespace Nodes

variable {f : Nodes} {perm : Bool} {args : Inner.WalkArgs} {r : Resolved}

/-- Where the walk ended lies below its root. -/
def Kept (f : Nodes) (root : ℕ) (r : Resolved) : Prop :=
  f.tree.Within root r.parent ∧ ∀ k, r.ino = some k → f.tree.Within root k

theorem kept_of_ino {root dir : ℕ} (hdir : f.tree.Within root dir) {name : Bytes} {found : Option ℕ}
    (hfound : ∀ k, found = some k → f.tree.Within root k) : f.Kept root ⟨dir, name, found⟩ := ⟨hdir, hfound⟩

theorem parentOf_within (h : f.tree.Shape) {root dir up : ℕ} (hdir : f.tree.Within root dir)
    (hup : f.parentOf root dir = some up) : f.tree.Within root up := by
  unfold Nodes.parentOf at hup
  split_ifs at hup with hne
  · obtain ⟨entries, hentries, rfl⟩ := Option.map_eq_some_iff.mp hup
    cases hentry : entryNamed entries dotdotName with
    | none => exact hdir
    | some v =>
      have hlook : f.tree.look dir dotdotName = some v := (lookup_of_dir hentries dotdotName).trans hentry
      exact hdir.up h hne hlook
  · cases hup
    exact hdir

theorem walkFrom_within (h : f.tree.Shape) {follow : ℕ → UnixPath → Option Resolved}
    (hfollow : ∀ dir path, f.tree.Within args.root dir → follow dir path = some r → f.Kept args.root r)
    (comps : List Component) (hcomps : ∀ name, Component.normal name ∈ comps → Proper name) :
    ∀ {dir : ℕ}, f.tree.Within args.root dir → f.walkFrom perm args follow dir comps = some r → f.Kept args.root r := by
  induction comps with
  | nil =>
    intro dir hdir hr
    cases hr
    exact kept_of_ino hdir fun k hk ↦ Option.some.inj hk ▸ hdir
  | cons c rest ih =>
    have ih := @ih fun name hname ↦ hcomps name (List.mem_cons_of_mem _ hname)
    intro dir hdir hr
    cases c with
    | rootDir => exact ih (f.tree.within_root _) hr
    | curDir => exact ih hdir hr
    | parentDir =>
      cases hn : f dir with
      | none =>
        rw [walkFrom_none hn _ (Or.inl rfl)] at hr
        cases hr
      | some n =>
        rw [walkFrom_parentDir hn] at hr
        by_cases hallows : n.allows perm args.creds .exec
        swap
        · rw [if_neg hallows] at hr
          cases hr
        rw [if_pos hallows] at hr
        obtain ⟨up, hup, hr⟩ := Option.bind_eq_some_iff.mp hr
        have hupper := parentOf_within h hdir hup
        split_ifs at hr
        · cases hr
          exact kept_of_ino hupper fun k hk ↦ Option.some.inj hk ▸ hupper
        · exact ih hupper hr
    | normal name =>
      cases hn : f dir with
      | none =>
        rw [walkFrom_none hn _ (Or.inr ⟨name, rfl⟩)] at hr
        cases hr
      | some n =>
        rw [walkFrom_normal hn] at hr
        by_cases hallows : n.allows perm args.creds .exec
        swap
        · rw [if_neg hallows] at hr
          cases hr
        rw [if_pos hallows] at hr
        obtain ⟨entries, hentries, hr⟩ := Option.bind_eq_some_iff.mp hr
        cases hentry : entryNamed entries name with
        | none =>
          rw [hentry] at hr
          dsimp only at hr
          split_ifs at hr
          cases hr
          exact kept_of_ino hdir fun k hk ↦ absurd hk (Option.some_ne_none k).symm
        | some v =>
          have hlook : f.tree.look dir name = some v := (lookup_of_dir hentries name).trans hentry
          have hchild := hdir.entry h (hcomps name List.mem_cons_self) hlook
          rw [hentry] at hr
          dsimp only at hr
          obtain ⟨c, -, hr⟩ := Option.bind_eq_some_iff.mp hr
          split_ifs at hr
          · exact hfollow dir _ hdir hr
          · cases hr
            exact kept_of_ino hdir fun k hk ↦ Option.some.inj hk ▸ hchild
          · exact ih hchild hr

theorem walk_within (h : f.tree.Shape) (depth : ℕ) : ∀ {cwd : ℕ} {path : UnixPath}, f.tree.Within args.root cwd →
    f.walk perm args depth cwd path = some r → f.Kept args.root r := by
  induction depth with
  | zero =>
    intro cwd path _ hr
    cases hr
  | succ depth ih =>
    intro cwd path hcwd hr
    have hstart : f.tree.Within args.root (if UnixPath.isAbsolute path then args.root else cwd) := by
      split_ifs
      · exact f.tree.within_root _
      · exact hcwd
    unfold Nodes.walk at hr
    dsimp only at hr
    by_cases hempty : path = []
    · rw [if_pos hempty] at hr
      cases hr
    rw [if_neg hempty] at hr
    by_cases hcomps : UnixPath.components path = []
    · rw [if_pos hcomps] at hr
      cases hr
      exact ⟨f.tree.within_root _, fun k hk ↦ Option.some.inj hk ▸ hstart⟩
    · rw [if_neg hcomps] at hr
      exact walkFrom_within h (fun _ _ hdir hr ↦ ih hdir hr) _ (fun _ hname ↦ Inner.components_normal hname) hstart hr

end Nodes

end LinuxFile
