import LinuxFile.Spec.Paths
import LinuxFile.Theorems.Chroot

/-!
# Symbolic links that lead on to links

Resolving a path goes through its components until it comes to a link that is to be followed; the link's target and
the components behind it are the path to resolve next. The walk nests a new walk for each link, and each of these
counts its own links only, so the limit on links is never reached: a resolution that needs more of them than the
limit is followed all the same, and one that goes on forever uses up the stack.
-/

set_option autoImplicit false

namespace LinuxFile.Inner

/-- Going through components in a state comes to a link to follow: the state after its target has been read, the
directory it is in, and the path to resolve next. -/
inductive Meets (args : WalkArgs) : Inner → ℕ → List Component → Inner → ℕ → UnixPath → Prop
  | rootDir {s t : Inner} {dir place : ℕ} {rest : List Component} {path : UnixPath}
      (h : Meets args s args.root rest t place path) : Meets args s dir (.rootDir :: rest) t place path
  | curDir {s t : Inner} {dir place : ℕ} {rest : List Component} {path : UnixPath}
      (h : Meets args s dir rest t place path) : Meets args s dir (.curDir :: rest) t place path
  | parentDir {s s₁ s₂ s₃ t : Inner} {dir up place : ℕ} {rest : List Component} {path : UnixPath} {inode : Inode}
      (hget : getInode dir s = .ok inode s₁) (haccess : accessOk inode args.creds .exec s₁ = .ok () s₂)
      (hup : climb args.root dir s₂ = .ok up s₃) (hrest : rest ≠ []) (h : Meets args s₃ up rest t place path) :
      Meets args s dir (.parentDir :: rest) t place path
  | down {s s₁ s₂ s₃ s₄ t : Inner} {dir ino place : ℕ} {name : Bytes} {ft : FileType} {rest : List Component}
      {path : UnixPath} {inode child : Inode}
      (hget : getInode dir s = .ok inode s₁) (hdir : inode.isDir = true)
      (haccess : accessOk inode args.creds .exec s₁ = .ok () s₂)
      (hlookup : dirLookup dir name s₂ = .ok (some (ino, ft)) s₃) (hchild : getInode ino s₃ = .ok child s₄)
      (hplain : child.isSymlink = false) (hrest : rest ≠ []) (h : Meets args s₄ ino rest t place path) :
      Meets args s dir (.normal name :: rest) t place path
  | link {s s₁ s₂ s₃ s₄ t : Inner} {dir ino : ℕ} {name : Bytes} {ft : FileType} {rest : List Component}
      {inode child : Inode} {target : Bytes}
      (hget : getInode dir s = .ok inode s₁) (hdir : inode.isDir = true)
      (haccess : accessOk inode args.creds .exec s₁ = .ok () s₂)
      (hlookup : dirLookup dir name s₂ = .ok (some (ino, ft)) s₃) (hchild : getInode ino s₃ = .ok child s₄)
      (hlink : child.isSymlink = true) (hfollowed : rest ≠ [] ∨ args.followLast = true)
      (hread : readData ino 0 child.size s₄ = .ok target t) :
      Meets args s dir (.normal name :: rest) t dir (joinRest (resizeBytes target child.size) rest)

/-- Where the resolution of a path starts. -/
def startOf (args : WalkArgs) (cwd : ℕ) (path : UnixPath) : ℕ := if UnixPath.isAbsolute path then args.root else cwd

/-- After some reads a read aborts, as one of a damaged inline inode does. -/
def ReadAborts (s : Inner) : Prop :=
  ∃ t, s.Reading t ∧ ((∃ ino, getInode ino t = .panic) ∨ (∃ dir name, dirLookup dir name t = .panic) ∨
    ∃ ino count, readData ino 0 count t = .panic)

variable {args : WalkArgs} {s t : Inner}

theorem Reading.trans {u : Inner} (h : s.Reading t) (hu : t.Reading u) : s.Reading u := by
  induction hu with
  | refl => exact h
  | inode _ hget ih => exact ih.inode hget
  | lookup _ hlookup ih => exact ih.lookup hlookup
  | content _ hread ih => exact ih.content hread

theorem ReadAborts.mono (h : s.Reading t) (ht : ReadAborts t) : ReadAborts s := by
  obtain ⟨u, hu, haborts⟩ := ht
  exact ⟨u, h.trans hu, haborts⟩

/-- Checking a permission changes nothing and does not abort. -/
theorem accessOk_cases (inode : Inode) (creds : Creds) (acc : Access) (s : Inner) :
    accessOk inode creds acc s = .ok () s ∨ ∃ e, accessOk inode creds acc s = .err e s := by
  unfold accessOk
  rw [Exec.bind_apply, Exec.read_apply]
  dsimp only
  split_ifs
  · exact Or.inl rfl
  · exact Or.inl rfl
  · exact Or.inr ⟨_, rfl⟩

/-- The ends of `..`: the parent, an error, or an aborted read. -/
theorem climb_cases (root dir : ℕ) (s : Inner) : (∃ up t, climb root dir s = .ok up t ∧ s.Reading t) ∨
    (∃ e t, climb root dir s = .err e t) ∨ climb root dir s = .panic ∧ ReadAborts s := by
  unfold climb
  split_ifs
  · cases hlookup : dirLookup dir dotdotName s with
    | ok found t =>
      left
      rw [Exec.bind_eq_of_ok hlookup]
      exact ⟨_, t, rfl, Reading.refl.lookup hlookup⟩
    | err e t =>
      right
      left
      rw [Exec.bind_apply, hlookup]
      exact ⟨e, t, rfl⟩
    | panic =>
      right
      right
      rw [Exec.bind_apply, hlookup]
      exact ⟨rfl, s, Reading.refl, Or.inr (Or.inl ⟨_, _, hlookup⟩)⟩
  · exact Or.inl ⟨dir, s, rfl, Reading.refl⟩

/-- The loop over the components hands over to `follow` at the link it comes to. -/
theorem walkFrom_of_meets {dir place : ℕ} {comps : List Component} {path : UnixPath}
    (h : Meets args s dir comps t place path) (follow : ℕ → UnixPath → Fs Resolved) :
    walkFrom args follow 0 dir comps s = follow place path t := by
  induction h with
  | rootDir _ ih => exact ih
  | curDir _ ih => exact ih
  | parentDir hget haccess hup hrest _ ih =>
    rw [walkFrom_parentDir, Exec.bind_eq_of_ok hget, Exec.bind_eq_of_ok haccess, Exec.bind_eq_of_ok hup, if_neg hrest]
    exact ih
  | down hget hdir haccess hlookup hchild hplain hrest _ ih =>
    unfold walkFrom
    rw [Exec.bind_eq_of_ok hget, if_neg (by rw [hdir]; decide), Exec.bind_eq_of_ok haccess, Exec.bind_eq_of_ok hlookup]
    dsimp only
    rw [Exec.bind_eq_of_ok hchild, if_neg (by rw [hplain]; simp), if_neg hrest]
    exact ih
  | link hget hdir haccess hlookup hchild hlink hfollowed hread =>
    unfold walkFrom
    rw [Exec.bind_eq_of_ok hget, if_neg (by rw [hdir]; decide), Exec.bind_eq_of_ok haccess, Exec.bind_eq_of_ok hlookup]
    dsimp only
    rw [Exec.bind_eq_of_ok hchild, if_pos ⟨hlink, hfollowed⟩, if_neg (by decide), Exec.bind_eq_of_ok hread]

/-- A loop that comes to no link aborts only in a read. -/
theorem walkFrom_ends (follow : ℕ → UnixPath → Fs Resolved) (comps : List Component) : ∀ (dir : ℕ) (s : Inner),
    (¬∃ t place path, Meets args s dir comps t place path) → walkFrom args follow 0 dir comps s = .panic →
    ReadAborts s := by
  induction comps with
  | nil =>
    intro dir s _ hpanic
    cases hpanic
  | cons c rest ih =>
    intro dir s hnone hpanic
    cases c with
    | rootDir => exact ih _ s (fun ⟨t, place, path, h⟩ ↦ hnone ⟨t, place, path, .rootDir h⟩) hpanic
    | curDir => exact ih _ s (fun ⟨t, place, path, h⟩ ↦ hnone ⟨t, place, path, .curDir h⟩) hpanic
    | parentDir =>
      rw [walkFrom_parentDir, Exec.bind_apply] at hpanic
      cases hget : getInode dir s with
      | err e t => rw [hget] at hpanic; cases hpanic
      | panic => exact ⟨s, .refl, Or.inl ⟨dir, hget⟩⟩
      | ok inode s₁ =>
        rw [hget] at hpanic
        dsimp only at hpanic
        rcases accessOk_cases inode args.creds .exec s₁ with haccess | ⟨e, haccess⟩
        swap
        · rw [Exec.bind_apply, haccess] at hpanic
          cases hpanic
        rw [Exec.bind_eq_of_ok haccess] at hpanic
        rcases climb_cases args.root dir s₁ with ⟨up, s₂, hup, hreading⟩ | ⟨e, s₂, hup⟩ | ⟨-, haborts⟩
        · rw [Exec.bind_eq_of_ok hup] at hpanic
          by_cases hlast : rest = []
          · rw [if_pos hlast] at hpanic
            cases hpanic
          · rw [if_neg hlast] at hpanic
            have hrest : ¬∃ t place path, Meets args s₂ up rest t place path :=
              fun ⟨t, place, path, h⟩ ↦ hnone ⟨t, place, path, .parentDir hget haccess hup hlast h⟩
            exact (ih up s₂ hrest hpanic).mono ((Reading.refl.inode hget).trans hreading)
        · rw [Exec.bind_apply, hup] at hpanic
          cases hpanic
        · exact haborts.mono (Reading.refl.inode hget)
    | normal name =>
      unfold walkFrom at hpanic
      rw [Exec.bind_apply] at hpanic
      cases hget : getInode dir s with
      | err e t => rw [hget] at hpanic; cases hpanic
      | panic => exact ⟨s, .refl, Or.inl ⟨dir, hget⟩⟩
      | ok inode s₁ =>
        rw [hget] at hpanic
        dsimp only at hpanic
        by_cases hdir : inode.isDir = false
        · rw [if_pos hdir] at hpanic
          cases hpanic
        rw [if_neg hdir] at hpanic
        rw [Bool.not_eq_false] at hdir
        rcases accessOk_cases inode args.creds .exec s₁ with haccess | ⟨e, haccess⟩
        swap
        · rw [Exec.bind_apply, haccess] at hpanic
          cases hpanic
        rw [Exec.bind_eq_of_ok haccess, Exec.bind_apply] at hpanic
        have hs₁ : s.Reading s₁ := Reading.refl.inode hget
        cases hlookup : dirLookup dir name s₁ with
        | err e t => rw [hlookup] at hpanic; cases hpanic
        | panic => exact ⟨s₁, hs₁, Or.inr (Or.inl ⟨dir, name, hlookup⟩)⟩
        | ok found s₂ =>
          rw [hlookup] at hpanic
          have hs₂ : s.Reading s₂ := hs₁.lookup hlookup
          cases found with
          | none =>
            dsimp only at hpanic
            split_ifs at hpanic <;> cases hpanic
          | some entry =>
            obtain ⟨ino, ft⟩ := entry
            dsimp only at hpanic
            rw [Exec.bind_apply] at hpanic
            cases hchild : getInode ino s₂ with
            | err e t => rw [hchild] at hpanic; cases hpanic
            | panic => exact ⟨s₂, hs₂, Or.inl ⟨ino, hchild⟩⟩
            | ok child s₃ =>
              rw [hchild] at hpanic
              dsimp only at hpanic
              have hs₃ : s.Reading s₃ := hs₂.inode hchild
              by_cases hlink : child.isSymlink = true ∧ (rest ≠ [] ∨ args.followLast = true)
              · rw [if_pos hlink, if_neg (by decide), Exec.bind_apply] at hpanic
                cases hread : readData ino 0 child.size s₃ with
                | err e t => rw [hread] at hpanic; cases hpanic
                | panic => exact ⟨s₃, hs₃, Or.inr (Or.inr ⟨ino, _, hread⟩)⟩
                | ok target s₄ =>
                  exact absurd ⟨_, _, _, .link hget hdir haccess hlookup hchild hlink.1 hlink.2 hread⟩ hnone
              · rw [if_neg hlink] at hpanic
                by_cases hlast : rest = []
                · rw [if_pos hlast] at hpanic
                  cases hpanic
                · rw [if_neg hlast] at hpanic
                  have hplain : child.isSymlink = false := by
                    cases hsym : child.isSymlink
                    · rfl
                    · exact absurd ⟨hsym, Or.inl hlast⟩ hlink
                  have hrest : ¬∃ t place path, Meets args s₃ ino rest t place path :=
                    fun ⟨t, place, path, h⟩ ↦ hnone ⟨t, place, path, .down hget hdir haccess hlookup hchild hplain hlast h⟩
                  exact (ih ino s₃ hrest hpanic).mono hs₃

/-- The walk of a path that is not empty. -/
theorem walk_succ {cwd depth : ℕ} {path : UnixPath} (hpath : path ≠ []) : walk args (depth + 1) cwd path s =
    walkFrom args (fun cwd path ↦ walk args depth cwd path) 0 (startOf args cwd path) (UnixPath.components path) s := by
  conv_lhs => unfold walk
  rw [if_neg hpath, if_neg (UnixPath.components_ne_nil hpath)]
  rfl

/-- A walk that comes to a link is the walk of what the link leads to. -/
theorem walk_of_meets {cwd place : ℕ} {path next : UnixPath} (depth : ℕ)
    (h : Meets args s (startOf args cwd path) (UnixPath.components path) t place next) :
    walk args (depth + 1) cwd path s = walk args depth place next t := by
  have hcomps : UnixPath.components path ≠ [] := by
    intro hnil
    rw [hnil] at h
    cases h
  have hpath : path ≠ [] := by
    intro hnil
    rw [hnil] at hcomps
    exact hcomps rfl
  conv_lhs => unfold walk
  rw [if_neg hpath, if_neg hcomps]
  exact walkFrom_of_meets h _

end LinuxFile.Inner
