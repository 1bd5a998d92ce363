import LinuxFile.Theorems.SymlinkLoops

/-!
# A dot at the end of a path

With `/.` behind it a path should stand for a directory, the one it leads to when all links are followed. The walk
passes over the dot without looking at what it has come to, and drops it when it puts the rest of the path behind the
target of a link: what the target leads to is then resolved as the last component of a path without the dot.
-/

set_option autoImplicit false

namespace LinuxFile.Inner

/-- The inode can be read and is a directory. -/
def DirectoryAt (t : Inner) (ino : ℕ) : Prop := ∃ inode u, getInode ino t = .ok inode u ∧ inode.isDir = true

/-- The inode can be read and is something else. -/
def OtherAt (t : Inner) (ino : ℕ) : Prop := ∃ inode u, getInode ino t = .ok inode u ∧ inode.isDir = false

/-- The path with `/.` behind it. -/
def dotted (p : UnixPath) : UnixPath := p ++ slash :: dotName

/-- What `/.` at the end of a path is to mean: the walk ends at a directory only, it refuses what leads to something
else, and it ends at the directory that the path leads to. -/
structure DotIsDirectory (root : ℕ) (creds : Creds) (depth : ℕ) (s : Inner) (cwd : ℕ) (p : UnixPath) : Prop where
  only : ∀ r t, walk ⟨root, false, creds⟩ depth cwd (dotted p) s = .ok r t → ∃ ino, r.ino = some ino ∧ DirectoryAt t ino
  refused : ∀ r t ino, walk ⟨root, true, creds⟩ depth cwd p s = .ok r t → r.ino = some ino → OtherAt t ino →
    ∃ message u, walk ⟨root, false, creds⟩ depth cwd (dotted p) s = .err (Error.enotdir message) u
  same : ∀ r t ino, walk ⟨root, true, creds⟩ depth cwd p s = .ok r t → r.ino = some ino → DirectoryAt t ino →
    ∃ r' u, walk ⟨root, false, creds⟩ depth cwd (dotted p) s = .ok r' u ∧ r'.ino = some ino

/-- Going through components in a state comes to no link that is to be followed and ends at an inode, or at a last
name that is missing. -/
inductive Lands (args : WalkArgs) : Inner → ℕ → List Component → Inner → Option ℕ → Prop
  | here {s : Inner} {dir : ℕ} : Lands args s dir [] s (some dir)
  | rootDir {s t : Inner} {dir : ℕ} {rest : List Component} {found : Option ℕ}
      (h : Lands args s args.root rest t found) : Lands args s dir (.rootDir :: rest) t found
  | curDir {s t : Inner} {dir : ℕ} {rest : List Component} {found : Option ℕ}
      (h : Lands args s dir rest t found) : Lands args s dir (.curDir :: rest) t found
  | parentDir {s s₁ s₂ s₃ t : Inner} {dir up : ℕ} {rest : List Component} {inode : Inode} {found : Option ℕ}
      (hget : getInode dir s = .ok inode s₁) (haccess : accessOk inode args.creds .exec s₁ = .ok () s₂)
      (hup : climb args.root dir s₂ = .ok up s₃) (h : Lands args s₃ up rest t found) :
      Lands args s dir (.parentDir :: rest) t found
  | down {s s₁ s₂ s₃ s₄ t : Inner} {dir ino : ℕ} {name : Bytes} {ft : FileType} {rest : List Component}
      {inode child : Inode} {found : Option ℕ}
      (hget : getInode dir s = .ok inode s₁) (hdir : inode.isDir = true)
      (haccess : accessOk inode args.creds .exec s₁ = .ok () s₂)
      (hlookup : dirLookup dir name s₂ = .ok (some (ino, ft)) s₃) (hchild : getInode ino s₃ = .ok child s₄)
      (hkept : ¬(child.isSymlink = true ∧ (rest ≠ [] ∨ args.followLast = true)))
      (h : Lands args s₄ ino rest t found) : Lands args s dir (.normal name :: rest) t found
  | missing {s s₁ s₂ t : Inner} {dir : ℕ} {name : Bytes} {inode : Inode}
      (hget : getInode dir s = .ok inode s₁) (hdir : inode.isDir = true)
      (haccess : accessOk inode args.creds .exec s₁ = .ok () s₂) (hlookup : dirLookup dir name s₂ = .ok none t) :
      Lands args s dir [.normal name] t none

/-- The path, its last component not followed, leads on over links to a missing name, to a link or to another inode
that is no directory. -/
inductive Strays (args : WalkArgs) : Inner → ℕ → UnixPath → Prop
  | ends {s t : Inner} {cwd : ℕ} {path : UnixPath} {found : Option ℕ} (hpath : path ≠ [])
      (h : Lands args s (startOf args cwd path) (UnixPath.components path) t found)
      (hbad : ¬∃ ino, found = some ino ∧ DirectoryAt t ino) : Strays args s cwd path
  | link {s t : Inner} {cwd place : ℕ} {path next : UnixPath}
      (h : Meets args s (startOf args cwd path) (UnixPath.components path) t place next)
      (hnext : Strays args t place next) : Strays args s cwd path

/-- The paths for which the dot goes wrong: no link is on the way and the path names something that is no directory,
or the first link on the way leads to a path that strays. -/
def Misled (root : ℕ) (creds : Creds) (s : Inner) (cwd : ℕ) (p : UnixPath) : Prop :=
  (∃ t ino, Lands ⟨root, true, creds⟩ s (startOf ⟨root, true, creds⟩ cwd p) (UnixPath.components p) t (some ino) ∧
    ¬DirectoryAt t ino) ∨
  ∃ t place next, Meets ⟨root, true, creds⟩ s (startOf ⟨root, true, creds⟩ cwd p) (UnixPath.components p) t place next ∧
    Strays ⟨root, false, creds⟩ t place next

variable {root depth cwd : ℕ} {creds : Creds} {s t : Inner} {p : UnixPath}

/-! ## The components with and without the dot -/

/-- What stands behind the components: the dot, if it is still there. -/
def trailing (dot : Bool) : List Component := if dot then [.curDir] else []

theorem joinRest_trailing (target : UnixPath) (rest : List Component) (dot : Bool) :
    joinRest target (rest ++ trailing dot) = joinRest target rest := by
  unfold joinRest trailing
  cases dot
  · rw [if_neg (by decide), List.append_nil]
  · rw [if_pos rfl, List.foldl_append]
    rfl

theorem append_trailing_ne_nil (rest : List Component) (dot : Bool) :
    rest ++ trailing dot ≠ [] ↔ rest ≠ [] ∨ dot = true := by
  cases dot <;> simp [trailing]

theorem walkFrom_trailing (args : WalkArgs) (follow : ℕ → UnixPath → Fs Resolved) (hops dir : ℕ) (dot : Bool) :
    walkFrom args follow hops dir (trailing dot) = pure ⟨dir, [], some dir⟩ := by
  cases dot <;> rfl

/-- A link is followed in front of the dot as it is where the last component is followed. -/
theorem followed_iff (child : Inode) (rest : List Component) (dot : Bool) :
    (child.isSymlink = true ∧ (rest ++ trailing dot ≠ [] ∨ false = true)) ↔
      child.isSymlink = true ∧ (rest ≠ [] ∨ dot = true) := by
  rw [append_trailing_ne_nil]
  simp

/-- The loop hands over to `follow` at the link it comes to, with the dot behind the components or without it. -/
theorem walkFrom_meets {dir place : ℕ} {comps : List Component} {next : UnixPath} {dot : Bool}
    (h : Meets ⟨root, dot, creds⟩ s dir comps t place next) (follow : ℕ → UnixPath → Fs Resolved) :
    walkFrom ⟨root, false, creds⟩ follow 0 dir (comps ++ trailing dot) s = follow place next t := by
  induction h with
  | rootDir _ ih => exact ih
  | curDir _ ih => exact ih
  | @parentDir s s₁ s₂ s₃ t dir up place rest path inode hget haccess hup hrest _ ih =>
    have hrest' : rest ++ trailing dot ≠ [] := (append_trailing_ne_nil rest dot).mpr (Or.inl hrest)
    rw [List.cons_append, walkFrom_parentDir, Exec.bind_eq_of_ok hget, Exec.bind_eq_of_ok haccess,
      Exec.bind_eq_of_ok hup, if_neg hrest']
    exact ih
  | @down s s₁ s₂ s₃ s₄ t dir ino place name ft rest path inode child hget hdir haccess hlookup hchild hplain hrest _ ih =>
    have hrest' : rest ++ trailing dot ≠ [] := (append_trailing_ne_nil rest dot).mpr (Or.inl hrest)
    rw [List.cons_append]
    unfold walkFrom
    rw [Exec.bind_eq_of_ok hget, if_neg (by rw [hdir]; decide), Exec.bind_eq_of_ok haccess, Exec.bind_eq_of_ok hlookup]
    dsimp only
    rw [Exec.bind_eq_of_ok hchild, if_neg (by rw [hplain]; simp), if_neg hrest']
    exact ih
  | @link s s₁ s₂ s₃ s₄ t dir ino name ft rest inode child target hget hdir haccess hlookup hchild hlink hfollowed hread =>
    rw [List.cons_append]
    unfold walkFrom
    rw [Exec.bind_eq_of_ok hget, if_neg (by rw [hdir]; decide), Exec.bind_eq_of_ok haccess, Exec.bind_eq_of_ok hlookup]
    dsimp only
    rw [Exec.bind_eq_of_ok hchild, if_pos ((followed_iff child rest dot).mpr ⟨hlink, hfollowed⟩), if_neg (by decide),
      Exec.bind_eq_of_ok hread, joinRest_trailing]

/-- The loop returns where the components land. With the dot a missing name is an error. -/
theorem walkFrom_lands {dir : ℕ} {comps : List Component} {found : Option ℕ} {dot : Bool}
    (h : Lands ⟨root, dot, creds⟩ s dir comps t found) (follow : ℕ → UnixPath → Fs Resolved)
    (hfound : dot = true → found ≠ none) :
    ∃ r, walkFrom ⟨root, false, creds⟩ follow 0 dir (comps ++ trailing dot) s = .ok r t ∧ r.ino = found := by
  induction h with
  | here =>
    rw [List.nil_append, walkFrom_trailing]
    exact ⟨_, rfl, rfl⟩
  | rootDir _ ih => exact ih hfound
  | curDir _ ih => exact ih hfound
  | @parentDir s s₁ s₂ s₃ t dir up rest inode found hget haccess hup hland ih =>
    rw [List.cons_append, walkFrom_parentDir, Exec.bind_eq_of_ok hget, Exec.bind_eq_of_ok haccess,
      Exec.bind_eq_of_ok hup]
    by_cases hrest : rest ++ trailing dot = []
    · rw [if_pos hrest]
      rw [(List.append_eq_nil_iff.mp hrest).1] at hland
      cases hland
      exact ⟨_, rfl, rfl⟩
    · rw [if_neg hrest]
      exact ih hfound
  | @down s s₁ s₂ s₃ s₄ t dir ino name ft rest inode child found hget hdir haccess hlookup hchild hkept hland ih =>
    rw [List.cons_append]
    unfold walkFrom
    rw [Exec.bind_eq_of_ok hget, if_neg (by rw [hdir]; decide), Exec.bind_eq_of_ok haccess, Exec.bind_eq_of_ok hlookup]
    dsimp only
    rw [Exec.bind_eq_of_ok hchild, if_neg (by rw [followed_iff]; exact hkept)]
    by_cases hrest : rest ++ trailing dot = []
    · rw [if_pos hrest]
      rw [(List.append_eq_nil_iff.mp hrest).1] at hland
      cases hland
      exact ⟨_, rfl, rfl⟩
    · rw [if_neg hrest]
      exact ih hfound
  | @missing s s₁ s₂ t dir name inode hget hdir haccess hlookup =>
    have hno : dot = false := by
      cases dot
      · rfl
      · exact absurd rfl (hfound rfl)
    subst hno
    rw [show [Component.normal name] ++ trailing false = [.normal name] from rfl]
    unfold walkFrom
    rw [Exec.bind_eq_of_ok hget, if_neg (by rw [hdir]; decide), Exec.bind_eq_of_ok haccess, Exec.bind_eq_of_ok hlookup]
    exact ⟨_, rfl, rfl⟩

/-- A loop that returns has handed over at a link, or has come to where the components land. -/
theorem walkFrom_returns (dot : Bool) (follow : ℕ → UnixPath → Fs Resolved) (comps : List Component) :
    ∀ {dir : ℕ} {s t : Inner} {r : Resolved},
      walkFrom ⟨root, false, creds⟩ follow 0 dir (comps ++ trailing dot) s = .ok r t →
      (∃ u place next, Meets ⟨root, dot, creds⟩ s dir comps u place next ∧ follow place next u = .ok r t) ∨
        Lands ⟨root, dot, creds⟩ s dir comps t r.ino ∧ (dot = true → r.ino ≠ none) := by
  induction comps with
  | nil =>
    intro dir s t r h
    rw [List.nil_append, walkFrom_trailing] at h
    cases h
    exact Or.inr ⟨.here, fun _ ↦ by simp⟩
  | cons c rest ih =>
    intro dir s t r h
    cases c with
    | rootDir =>
      rcases ih h with ⟨u, place, next, hmeets, hnext⟩ | ⟨hland, hfound⟩
      · exact Or.inl ⟨u, place, next, .rootDir hmeets, hnext⟩
      · exact Or.inr ⟨.rootDir hland, hfound⟩
    | curDir =>
      rcases ih h with ⟨u, place, next, hmeets, hnext⟩ | ⟨hland, hfound⟩
      · exact Or.inl ⟨u, place, next, .curDir hmeets, hnext⟩
      · exact Or.inr ⟨.curDir hland, hfound⟩
    | parentDir =>
      rw [List.cons_append, walkFrom_parentDir] at h
      obtain ⟨inode, s₁, hget, h⟩ := Exec.bind_ok_iff.mp h
      obtain ⟨_, s₂, haccess, h⟩ := Exec.bind_ok_iff.mp h
      obtain ⟨up, s₃, hup, h⟩ := Exec.bind_ok_iff.mp h
      by_cases hlast : rest ++ trailing dot = []
      · rw [if_pos hlast] at h
        cases h
        have hrest : rest = [] := (List.append_eq_nil_iff.mp hlast).1
        rw [hrest]
        exact Or.inr ⟨.parentDir hget haccess hup .here, fun _ ↦ by simp⟩
      · rw [if_neg hlast] at h
        rcases ih h with ⟨u, place, next, hmeets, hnext⟩ | ⟨hland, hfound⟩
        · have hrest : rest ≠ [] := by
            intro hnil
            rw [hnil] at hmeets
            cases hmeets
          exact Or.inl ⟨u, place, next, .parentDir hget haccess hup hrest hmeets, hnext⟩
        · exact Or.inr ⟨.parentDir hget haccess hup hland, hfound⟩
    | normal name =>
      rw [List.cons_append] at h
      unfold walkFrom at h
      obtain ⟨inode, s₁, hget, h⟩ := Exec.bind_ok_iff.mp h
      by_cases hdir : inode.isDir = false
      · rw [if_pos hdir] at h
        cases h
      rw [if_neg hdir] at h
      rw [Bool.not_eq_false] at hdir
      obtain ⟨_, s₂, haccess, h⟩ := Exec.bind_ok_iff.mp h
      obtain ⟨found, s₃, hlookup, h⟩ := Exec.bind_ok_iff.mp h
      cases found with
      | none =>
        dsimp only at h
        by_cases hlast : rest ++ trailing dot = []
        · rw [if_pos hlast] at h
          cases h
          obtain ⟨hrest, hdot⟩ := List.append_eq_nil_iff.mp hlast
          rw [hrest]
          refine Or.inr ⟨.missing hget hdir haccess hlookup, fun heq ↦ ?_⟩
          rw [heq] at hdot
          cases hdot
        · rw [if_neg hlast] at h
          cases h
      | some entry =>
        obtain ⟨ino, ft⟩ := entry
        dsimp only at h
        obtain ⟨child, s₄, hchild, h⟩ := Exec.bind_ok_iff.mp h
        by_cases hfollowed : child.isSymlink = true ∧ (rest ++ trailing dot ≠ [] ∨ false = true)
        · rw [if_pos hfollowed, if_neg (by decide)] at h
          obtain ⟨target, s₅, hread, h⟩ := Exec.bind_ok_iff.mp h
          obtain ⟨hlink, hnot⟩ := (followed_iff child rest dot).mp hfollowed
          rw [joinRest_trailing] at h
          exact Or.inl ⟨s₅, dir, _, .link hget hdir haccess hlookup hchild hlink hnot hread, h⟩
        · have hkept : ¬(child.isSymlink = true ∧ (rest ≠ [] ∨ dot = true)) := by
            rwa [followed_iff] at hfollowed
          rw [if_neg hfollowed] at h
          by_cases hlast : rest ++ trailing dot = []
          · rw [if_pos hlast] at h
            cases h
            have hrest : rest = [] := (List.append_eq_nil_iff.mp hlast).1
            subst hrest
            exact Or.inr ⟨.down hget hdir haccess hlookup hchild hkept .here, fun _ ↦ by simp⟩
          · rw [if_neg hlast] at h
            rcases ih h with ⟨u, place, next, hmeets, hnext⟩ | ⟨hland, hfound⟩
            · have hrest : rest ≠ [] := by
                intro hnil
                rw [hnil] at hmeets
                cases hmeets
              have hplain : child.isSymlink = false := by
                cases hsym : child.isSymlink
                · rfl
                · exact absurd ⟨hsym, Or.inl hrest⟩ hkept
              exact Or.inl ⟨u, place, next, .down hget hdir haccess hlookup hchild hplain hrest hmeets, hnext⟩
            · exact Or.inr ⟨.down hget hdir haccess hlookup hchild hkept hland, hfound⟩

/-! ## Where the walk ends -/

/-- The walk returns with something else than a directory. -/
def EndsBadly (outcome : Outcome Error Inner Resolved) : Prop :=
  ∃ r t, outcome = .ok r t ∧ ¬∃ ino, r.ino = some ino ∧ DirectoryAt t ino

theorem walk_dotted (hp : p ≠ []) : walk ⟨root, false, creds⟩ (depth + 1) cwd (dotted p) s =
    walkFrom ⟨root, false, creds⟩ (fun cwd path ↦ walk ⟨root, false, creds⟩ depth cwd path) 0
      (startOf ⟨root, true, creds⟩ cwd p) (UnixPath.components p ++ trailing true) s := by
  have hstart : startOf ⟨root, false, creds⟩ cwd (dotted p) = startOf ⟨root, true, creds⟩ cwd p := by
    unfold startOf dotted
    rw [UnixPath.isAbsolute_append hp]
  have hcomps : UnixPath.components (dotted p) = UnixPath.components p ++ trailing true :=
    UnixPath.components_append hp dotName
  rw [walk_succ (by unfold dotted; simp), hstart, hcomps]

/-- Where the last component is not followed, the paths that stray are those whose walk ends badly. -/
theorem walk_strays (hterm : walk ⟨root, false, creds⟩ depth cwd p s ≠ .panic) :
    EndsBadly (walk ⟨root, false, creds⟩ depth cwd p s) ↔ Strays ⟨root, false, creds⟩ s cwd p := by
  constructor
  · intro hbad
    clear hterm
    induction depth generalizing s cwd p with
    | zero =>
      obtain ⟨r, t, hwalk, -⟩ := hbad
      cases hwalk
    | succ depth ih =>
      obtain ⟨r, t, hwalk, hnone⟩ := hbad
      by_cases hp : p = []
      · unfold walk at hwalk
        rw [if_pos hp] at hwalk
        cases hwalk
      rw [walk_succ hp] at hwalk
      rcases walkFrom_returns false _ _ (by rw [show trailing false = [] from rfl, List.append_nil]; exact hwalk)
        with ⟨u, place, next, hmeets, hnext⟩ | ⟨hland, -⟩
      · exact .link hmeets (ih ⟨r, t, hnext, hnone⟩)
      · exact .ends hp hland hnone
  · intro hstrays
    induction hstrays generalizing depth with
    | @ends s t cwd path found hpath hland hbad =>
      obtain ⟨depth, rfl⟩ : ∃ k, depth = k + 1 := by
        cases depth with
        | zero => exact absurd rfl hterm
        | succ k => exact ⟨k, rfl⟩
      obtain ⟨r, hwalk, hfound⟩ := walkFrom_lands hland (fun cwd path ↦ walk ⟨root, false, creds⟩ depth cwd path)
        (fun h ↦ by cases h)
      rw [show trailing false = [] from rfl, List.append_nil] at hwalk
      rw [walk_succ hpath]
      exact ⟨r, t, hwalk, by rwa [hfound]⟩
    | @link s t cwd place path next hmeets hnext ih =>
      cases depth with
      | zero => exact absurd rfl hterm
      | succ depth =>
        rw [walk_of_meets depth hmeets] at hterm ⊢
        exact ih hterm

/-- The paths for which the dot goes wrong are those whose walk with the dot ends badly. -/
theorem walk_misled (hp : p ≠ []) (hterm : walk ⟨root, false, creds⟩ depth cwd (dotted p) s ≠ .panic) :
    EndsBadly (walk ⟨root, false, creds⟩ depth cwd (dotted p) s) ↔ Misled root creds s cwd p := by
  cases depth with
  | zero => exact absurd rfl hterm
  | succ depth =>
    rw [walk_dotted hp] at hterm ⊢
    constructor
    · rintro ⟨r, t, hwalk, hnone⟩
      rcases walkFrom_returns true _ _ hwalk with ⟨u, place, next, hmeets, hnext⟩ | ⟨hland, hfound⟩
      · have hend : walk ⟨root, false, creds⟩ depth place next u ≠ .panic := by
          rw [hnext]
          simp
        exact Or.inr ⟨u, place, next, hmeets, (walk_strays hend).mp ⟨r, t, hnext, hnone⟩⟩
      · cases hino : r.ino with
        | none => exact absurd hino (hfound rfl)
        | some ino =>
          rw [hino] at hland hnone
          exact Or.inl ⟨t, ino, hland, fun hdir ↦ hnone ⟨ino, rfl, hdir⟩⟩
    · rintro (⟨t, ino, hland, hnot⟩ | ⟨t, place, next, hmeets, hstrays⟩)
      · obtain ⟨r, hwalk, hfound⟩ := walkFrom_lands hland (fun cwd path ↦ walk ⟨root, false, creds⟩ depth cwd path)
          (fun _ ↦ by simp)
        refine ⟨r, t, hwalk, ?_⟩
        rintro ⟨ino', hino, hdir⟩
        rw [hfound] at hino
        cases hino
        exact hnot hdir
      · rw [walkFrom_meets hmeets] at hterm ⊢
        exact (walk_strays hterm).mpr hstrays

/-! ## The walk without the dot -/

/-- An inode that can be read is a directory or it is not. -/
theorem DirectoryAt.not_other {ino : ℕ} (h : DirectoryAt t ino) : ¬OtherAt t ino := by
  rintro ⟨other, u, hother, hnot⟩
  obtain ⟨inode, v, hget, hdir⟩ := h
  rw [hget] at hother
  cases hother
  rw [hdir] at hnot
  cases hnot

/-- A link is no directory. -/
theorem not_directoryAt_of_symlink {u : Inner} {ino : ℕ} {child : Inode} (hget : getInode ino u = .ok child t)
    (hlink : child.isSymlink = true) : ¬DirectoryAt t ino := by
  rintro ⟨inode, v, hagain, hdir⟩
  have hheld : t.inodes.find? ino = some child := (getInode_found ino u).of_ok hget
  rw [getInode_hit hheld] at hagain
  cases hagain
  unfold Inode.isSymlink FileType.isSymlink at hlink
  unfold Inode.isDir FileType.isDir at hdir
  cases hft : child.fileType <;> simp [hft] at hlink hdir

/-- What a walk with the dot says about the walk that follows every link: an error leads to no inode, and a directory
is the same one. -/
def Parallel (dotted full : Outcome Error Inner Resolved) : Prop :=
  match dotted with
  | .panic => True
  | .err _ _ => ∀ r t ino, full = .ok r t → r.ino ≠ some ino
  | .ok r t => ∀ ino, r.ino = some ino → DirectoryAt t ino → ∃ r', full = .ok r' t ∧ r'.ino = some ino

/-- Two walks that go on in parallel from every end of a step. -/
theorem Parallel.bind {α : Type} {x : Fs α} {f g : α → Fs Resolved}
    (h : ∀ a t, x s = .ok a t → Parallel (f a t) (g a t)) : Parallel ((x >>= f) s) ((x >>= g) s) := by
  rw [Exec.bind_apply, Exec.bind_apply]
  cases hx : x s with
  | ok a t => exact h a t hx
  | err e t => exact fun r t ino hok ↦ by cases hok
  | panic => trivial

theorem parallel_pure {r r' : Resolved} (h : r.ino = r'.ino) :
    Parallel ((pure r : Fs Resolved) s) ((pure r' : Fs Resolved) s) :=
  fun _ hino _ ↦ ⟨r', rfl, h ▸ hino⟩

theorem parallel_throw (e : Error) : Parallel ((Exec.throw e : Fs Resolved) s) ((Exec.throw e : Fs Resolved) s) :=
  fun r t ino hok ↦ by cases hok

/-- The loop, by induction on the components left. The walks part where only one of them follows a last link, which
then is no directory. -/
theorem walkFrom_parallel (dot : Bool) {follow other : ℕ → UnixPath → Fs Resolved}
    (hfollow : ∀ place next t, Parallel (follow place next t) (other place next t)) (comps : List Component) :
    ∀ (dir : ℕ) (s : Inner), Parallel (walkFrom ⟨root, false, creds⟩ follow 0 dir (comps ++ trailing dot) s)
      (walkFrom ⟨root, true, creds⟩ other 0 dir comps s) := by
  induction comps with
  | nil =>
    intro dir s
    rw [List.nil_append, walkFrom_trailing]
    exact parallel_pure rfl
  | cons c rest ih =>
    intro dir s
    cases c with
    | rootDir => exact ih root s
    | curDir => exact ih dir s
    | parentDir =>
      rw [List.cons_append, walkFrom_parentDir, walkFrom_parentDir]
      apply Parallel.bind
      intro inode s₁ _
      apply Parallel.bind
      intro _ s₂ _
      apply Parallel.bind
      intro up s₃ _
      by_cases hlast : rest = []
      · subst hlast
        rw [if_pos rfl, List.nil_append, walkFrom_trailing]
        split_ifs
        · exact parallel_pure rfl
        · exact parallel_pure rfl
      · have hlast' : rest ++ trailing dot ≠ [] := (append_trailing_ne_nil rest dot).mpr (Or.inl hlast)
        rw [if_neg hlast, if_neg hlast']
        exact ih up s₃
    | normal name =>
      rw [List.cons_append]
      conv in walkFrom ⟨root, false, creds⟩ _ _ _ _ => unfold walkFrom
      conv in walkFrom ⟨root, true, creds⟩ _ _ _ _ => unfold walkFrom
      apply Parallel.bind
      intro inode s₁ _
      by_cases hdir : inode.isDir = false
      · rw [if_pos hdir, if_pos hdir]
        exact parallel_throw _
      rw [if_neg hdir, if_neg hdir]
      apply Parallel.bind
      intro _ s₂ _
      apply Parallel.bind
      intro found s₃ _
      cases found with
      | none =>
        dsimp only
        by_cases hlast : rest = []
        · rw [if_pos hlast]
          split_ifs
          · exact parallel_pure rfl
          · intro r t ino hok
            cases hok
            simp
        · have hlast' : rest ++ trailing dot ≠ [] := (append_trailing_ne_nil rest dot).mpr (Or.inl hlast)
          rw [if_neg hlast, if_neg hlast']
          exact parallel_throw _
      | some entry =>
        obtain ⟨ino, ft⟩ := entry
        dsimp only
        apply Parallel.bind
        intro child s₄ hchild
        by_cases hlink : child.isSymlink = true
        · rw [if_pos (show child.isSymlink = true ∧ (rest ≠ [] ∨ true = true) from ⟨hlink, Or.inr rfl⟩)]
          by_cases hfollowed : child.isSymlink = true ∧ (rest ++ trailing dot ≠ [] ∨ false = true)
          · rw [if_pos hfollowed, if_neg (by decide), if_neg (by decide)]
            apply Parallel.bind
            intro target s₅ _
            rw [joinRest_trailing]
            exact hfollow _ _ s₅
          · rw [if_neg hfollowed]
            have hlast : rest ++ trailing dot = [] := by
              by_contra hne
              exact hfollowed ⟨hlink, Or.inl hne⟩
            rw [if_pos hlast]
            intro found hfound hdirectory
            cases hfound
            exact absurd hdirectory (not_directoryAt_of_symlink hchild hlink)
        · have hkept : ∀ followed : Prop, ¬(child.isSymlink = true ∧ followed) := fun _ h ↦ hlink h.1
          rw [if_neg (hkept (rest ++ trailing dot ≠ [] ∨ false = true)), if_neg (hkept (rest ≠ [] ∨ true = true))]
          by_cases hlast : rest = []
          · subst hlast
            rw [if_pos rfl, List.nil_append, walkFrom_trailing]
            split_ifs
            · exact parallel_pure rfl
            · exact parallel_pure rfl
          · have hlast' : rest ++ trailing dot ≠ [] := (append_trailing_ne_nil rest dot).mpr (Or.inl hlast)
            rw [if_neg hlast, if_neg hlast']
            exact ih ino s₄

/-- Walks of one path, the last component followed by one of them. -/
theorem walk_parallel (depth : ℕ) : ∀ (cwd : ℕ) (path : UnixPath) (s : Inner),
    Parallel (walk ⟨root, false, creds⟩ depth cwd path s) (walk ⟨root, true, creds⟩ depth cwd path s) := by
  induction depth with
  | zero => exact fun _ _ _ ↦ trivial
  | succ depth ih =>
    intro cwd path s
    by_cases hp : path = []
    · subst hp
      exact parallel_throw _
    · have hloop : Parallel
          (walkFrom ⟨root, false, creds⟩ (walk ⟨root, false, creds⟩ depth) 0 (startOf ⟨root, false, creds⟩ cwd path)
            (UnixPath.components path ++ trailing false) s)
          (walkFrom ⟨root, true, creds⟩ (walk ⟨root, true, creds⟩ depth) 0 (startOf ⟨root, true, creds⟩ cwd path)
            (UnixPath.components path) s) := walkFrom_parallel false ih _ _ s
      rw [show trailing false = [] from rfl, List.append_nil] at hloop
      rw [walk_succ hp, walk_succ hp]
      exact hloop

theorem walk_dotted_parallel (hp : p ≠ []) :
    Parallel (walk ⟨root, false, creds⟩ depth cwd (dotted p) s) (walk ⟨root, true, creds⟩ depth cwd p s) := by
  cases depth with
  | zero => trivial
  | succ depth =>
    rw [walk_dotted hp, walk_succ hp]
    exact walkFrom_parallel true (walk_parallel depth) _ _ s

/-- The dot means the directory exactly if the walk with the dot does not end badly. -/
theorem dotIsDirectory_iff (hp : p ≠ []) (hterm : walk ⟨root, false, creds⟩ depth cwd (dotted p) s ≠ .panic) :
    DotIsDirectory root creds depth s cwd p ↔ ¬EndsBadly (walk ⟨root, false, creds⟩ depth cwd (dotted p) s) := by
  constructor
  · rintro hdot ⟨r, t, hwalk, hnone⟩
    exact hnone (hdot.only r t hwalk)
  · intro hgood
    have hparallel : Parallel (walk ⟨root, false, creds⟩ depth cwd (dotted p) s)
        (walk ⟨root, true, creds⟩ depth cwd p s) := walk_dotted_parallel hp
    have honly : ∀ r t, walk ⟨root, false, creds⟩ depth cwd (dotted p) s = .ok r t →
        ∃ ino, r.ino = some ino ∧ DirectoryAt t ino := by
      intro r t hwalk
      by_contra hnone
      exact hgood ⟨r, t, hwalk, hnone⟩
    -- an inode that the path leads to is where the walk with the dot ends
    have hagree : ∀ r t ino, walk ⟨root, true, creds⟩ depth cwd p s = .ok r t → r.ino = some ino →
        ∃ r', walk ⟨root, false, creds⟩ depth cwd (dotted p) s = .ok r' t ∧ r'.ino = some ino ∧ DirectoryAt t ino := by
      intro r t ino hfull hino
      cases hwalk : walk ⟨root, false, creds⟩ depth cwd (dotted p) s with
      | panic => exact absurd hwalk hterm
      | err e u =>
        rw [hwalk] at hparallel
        exact absurd hino (hparallel r t ino hfull)
      | ok r' u =>
        obtain ⟨ino', hino', hdir⟩ := honly r' u hwalk
        rw [hwalk] at hparallel
        obtain ⟨r'', hsame, hend⟩ := hparallel ino' hino' hdir
        rw [hfull] at hsame
        cases hsame
        rw [hino] at hend
        cases hend
        exact ⟨r', rfl, hino', hdir⟩
    refine ⟨honly, ?_, ?_⟩
    · intro r t ino hfull hino hother
      obtain ⟨-, -, -, hdir⟩ := hagree r t ino hfull hino
      exact absurd hother hdir.not_other
    · intro r t ino hfull hino _
      obtain ⟨r', hwalk, hino', -⟩ := hagree r t ino hfull hino
      exact ⟨r', t, hwalk, hino'⟩

/-- A dot at the end of a path means the directory that the path leads to exactly if no link is on the way and the path
names no other inode, or the first link leads to a path whose own last component is neither missing nor a link nor
another inode that is no directory. -/
theorem dot_is_directory_iff (hp : p ≠ []) (hterm : walk ⟨root, false, creds⟩ depth cwd (dotted p) s ≠ .panic) :
    DotIsDirectory root creds depth s cwd p ↔ ¬Misled root creds s cwd p := by
  rw [dotIsDirectory_iff hp hterm, walk_misled hp hterm]

/-- A link with a target of one byte. -/
def shortLink (ino : ℕ) (target : UInt8) : Inode :=
  { Inode.new ⟨0, 0⟩ ino (sIflnk ||| 0o777) 0 0 with size := 1, inlineData := [target] }

/-- A root directory with a file `a`, a directory `b`, a link `c` to `b` and a link `d` to `c`. -/
def chained : Inner :=
  resident (((((KeyMap.empty.insert rootIno (residentDir rootIno 0o755
      [⟨rootIno, .directory, dotName⟩, ⟨rootIno, .directory, dotdotName⟩, ⟨11, .file, [0x61]⟩,
        ⟨12, .directory, [0x62]⟩, ⟨13, .symlink, [0x63]⟩, ⟨14, .symlink, [0x64]⟩])).insert
    11 (Inode.new ⟨0, 0⟩ 11 (sIfreg ||| 0o644) 0 0)).insert
    12 (residentDir 12 0o755 [⟨12, .directory, dotName⟩, ⟨rootIno, .directory, dotdotName⟩])).insert
    13 (shortLink 13 0x62)).insert
    14 (shortLink 14 0x63))

/-- The walk returns with an inode that is a directory or not. -/
def endsAt (outcome : Outcome Error Inner Resolved) (ino : ℕ) (isDir : Bool) : Bool :=
  outcome.okAnd fun r t ↦ decide (r.ino = some ino) && (getInode ino t).okAnd fun inode _ ↦ inode.isDir == isDir

theorem endsAt_iff {outcome : Outcome Error Inner Resolved} {ino : ℕ} {isDir : Bool} (h : endsAt outcome ino isDir = true) :
    ∃ r t, outcome = .ok r t ∧ r.ino = some ino ∧ ∃ inode u, getInode ino t = .ok inode u ∧ inode.isDir = isDir := by
  obtain ⟨r, t, hok, htest⟩ := Outcome.exists_of_okAnd h
  rw [Bool.and_eq_true] at htest
  obtain ⟨inode, u, hget, hdir⟩ := Outcome.exists_of_okAnd htest.2
  exact ⟨r, t, hok, of_decide_eq_true htest.1, inode, u, hget, eq_of_beq hdir⟩

theorem dot_is_directory_sample : walk ⟨rootIno, false, Creds.root⟩ 2 rootIno (dotted [0x63]) chained ≠ .panic ∧
    (DotIsDirectory rootIno Creds.root 2 chained rootIno [0x63] ↔
      ¬Misled rootIno Creds.root chained rootIno [0x63]) := by
  have hends : endsAt (walk ⟨rootIno, false, Creds.root⟩ 2 rootIno (dotted [0x63]) chained) 12 true = true := by
    decide +kernel
  obtain ⟨r, t, hwalk, -⟩ := endsAt_iff hends
  have hterm : walk ⟨rootIno, false, Creds.root⟩ 2 rootIno (dotted [0x63]) chained ≠ .panic := by
    rw [hwalk]
    simp
  exact ⟨hterm, dot_is_directory_iff (by simp) hterm⟩

/-- `a/.` is the file `a`. From `d/.` only the first link is followed, so that it is the link `c`, and not the
directory. -/
theorem dot_is_no_directory : ¬DotIsDirectory rootIno Creds.root 3 chained rootIno [0x61] ∧
    ¬DotIsDirectory rootIno Creds.root 3 chained rootIno [0x64] := by
  have hfile : endsAt (walk ⟨rootIno, false, Creds.root⟩ 3 rootIno (dotted [0x61]) chained) 11 false = true := by
    decide +kernel
  have hlink : endsAt (walk ⟨rootIno, false, Creds.root⟩ 3 rootIno (dotted [0x64]) chained) 13 false = true := by
    decide +kernel
  have hfull : endsAt (walk ⟨rootIno, true, Creds.root⟩ 3 rootIno [0x64] chained) 12 true = true := by
    decide +kernel
  constructor
  · intro hdot
    obtain ⟨r, t, hwalk, hino, hother⟩ := endsAt_iff hfile
    obtain ⟨ino, hfound, hdir⟩ := hdot.only r t hwalk
    rw [hino] at hfound
    cases hfound
    exact hdir.not_other hother
  · intro hdot
    obtain ⟨r, t, hwalk, hino, -⟩ := endsAt_iff hlink
    obtain ⟨r', t', hwalk', hino', hdir⟩ := endsAt_iff hfull
    obtain ⟨r'', u, hsame, hfound⟩ := hdot.same r' t' 12 hwalk' hino' hdir
    rw [hwalk] at hsame
    cases hsame
    rw [hino] at hfound
    cases hfound

end LinuxFile.Inner
