import LinuxFile.Spec.Tree

/-!
# Changes of a namespace

Each operation on names changes a few entries and link counts together, so that the counts agree again afterwards:
a file gets a name or loses one, a name moves, an inode with its first name is new, one without names is gone.
-/

namespace LinuxFile.Tree

variable {t : Tree} {k p c : ℕ} {name : Bytes} {ft : FileType}

/-! ## Names after a change -/

theorem say_names_none (t : Tree) (p : ℕ) (name : Bytes) (k : ℕ) :
    (t.say p name none).names k = t.names k \ {(p, name)} := by
  ext ⟨p', name'⟩
  by_cases h : p' = p ∧ name' = name
  · simp [names, say, h]
  · have hne : (p', name') ≠ (p, name) := fun heq ↦ h ⟨congrArg Prod.fst heq, congrArg Prod.snd heq⟩
    have hlook : (t.say p name none).look p' name' = t.look p' name' := if_neg h
    have hmem : (p', name') ∈ (t.say p name none).names k ↔ (p', name') ∈ t.names k := by
      simp only [names, Set.mem_ofPred_eq, hlook]
    rw [hmem]
    exact ⟨fun hin ↦ ⟨hin, hne⟩, fun hin ↦ hin.1⟩

theorem say_names_some (hnone : t.look p name = none) (hproper : Proper name) (k : ℕ) :
    (t.say p name (some (c, ft))).names k = if k = c then insert (p, name) (t.names c) else t.names k := by
  ext ⟨p', name'⟩
  by_cases h : p' = p ∧ name' = name
  · obtain ⟨rfl, rfl⟩ := h
    by_cases hk : k = c
    · simp [names, say, hk, hproper]
    · have hc : c ≠ k := fun hck ↦ hk hck.symm
      simp [names, say, hk, hc, hnone]
  · have hne : (p', name') ≠ (p, name) := fun heq ↦ h ⟨congrArg Prod.fst heq, congrArg Prod.snd heq⟩
    by_cases hk : k = c
    · subst hk
      simp only [names, say, h, Set.mem_ofPred_eq, if_false, if_true, Set.mem_insert_iff, hne, false_or]
    · simp only [names, say, h, Set.mem_ofPred_eq, if_false, hk]

theorem say_subdirs_none (t : Tree) (p : ℕ) (name : Bytes) (k : ℕ) :
    (t.say p name none).subdirs k = if k = p then t.subdirs p \ {name} else t.subdirs k := by
  ext name'
  by_cases hk : k = p
  · subst hk
    by_cases hname : name' = name
    · simp [subdirs, say, hname]
    · simp [subdirs, say, hname]
  · simp [subdirs, say, hk]

theorem say_subdirs_file (hnone : t.look p name = none) (hft : ft ≠ .directory) (k : ℕ) :
    (t.say p name (some (c, ft))).subdirs k = t.subdirs k := by
  ext name'
  by_cases h : k = p ∧ name' = name
  · obtain ⟨rfl, rfl⟩ := h
    simp [subdirs, say, hnone, hft]
  · simp [subdirs, say, h]

theorem say_subdirs_dir (hproper : Proper name) (k : ℕ) :
    (t.say p name (some (c, .directory))).subdirs k = if k = p then insert name (t.subdirs p) else t.subdirs k := by
  ext name'
  by_cases hk : k = p
  · subst hk
    by_cases hname : name' = name
    · simp [subdirs, say, hname, hproper]
    · simp [subdirs, say, hname]
  · simp [subdirs, say, hk]

theorem say_names_dots (hdots : ¬Proper name) (p : ℕ) (v : Option (ℕ × FileType)) :
    (t.say p name v).names = t.names := by
  funext k
  ext ⟨p', name'⟩
  have hlook : Proper name' → (t.say p name v).look p' name' = t.look p' name' := by
    intro hproper
    apply say_ne_name
    rintro rfl
    exact hdots hproper
  constructor
  · rintro ⟨hproper, ft, hentry⟩
    rw [hlook hproper] at hentry
    exact ⟨hproper, ft, hentry⟩
  · rintro ⟨hproper, ft, hentry⟩
    exact ⟨hproper, ft, (hlook hproper).trans hentry⟩

theorem say_subdirs_dots (hdots : ¬Proper name) (p : ℕ) (v : Option (ℕ × FileType)) :
    (t.say p name v).subdirs = t.subdirs := by
  funext k
  ext name'
  have hlook : Proper name' → (t.say p name v).look k name' = t.look k name' := by
    intro hproper
    apply say_ne_name
    rintro rfl
    exact hdots hproper
  constructor
  · rintro ⟨hproper, c, hentry⟩
    rw [hlook hproper] at hentry
    exact ⟨hproper, c, hentry⟩
  · rintro ⟨hproper, c, hentry⟩
    exact ⟨hproper, c, (hlook hproper).trans hentry⟩

theorem names_erase_ne (hlook : t.look p name = some (c, ft)) (hk : k ≠ c) :
    (t.say p name none).names k = t.names k := by
  rw [say_names_none]
  apply Set.sdiff_singleton_eq_self
  rintro ⟨-, ft', hlook'⟩
  rw [hlook] at hlook'
  cases hlook'
  exact hk rfl

theorem subdirs_erase_file (hlook : t.look p name = some (c, ft)) (hft : ft ≠ .directory) :
    (t.say p name none).subdirs k = t.subdirs k := by
  rw [say_subdirs_none]
  split_ifs with hk
  · rw [hk]
    apply Set.sdiff_singleton_eq_self
    rintro ⟨-, c', hlook'⟩
    rw [hlook] at hlook'
    cases hlook'
    exact hft rfl
  · rfl

theorem Shape.ncard_erase (h : t.Shape) (hlook : t.look p name = some (c, ft)) (hproper : Proper name) :
    ((t.say p name none).names c).ncard + 1 = (t.names c).ncard := by
  rw [say_names_none]
  exact Set.ncard_sdiff_singleton_add_one ⟨hproper, ft, hlook⟩ (h.names_finite c)

theorem Shape.ncard_enter (h : t.Shape) (hnone : t.look p name = none) (hproper : Proper name) :
    ((t.say p name (some (c, ft))).names c).ncard = (t.names c).ncard + 1 := by
  rw [say_names_some hnone hproper, if_pos rfl]
  apply Set.ncard_insert_of_notMem _ (h.names_finite c)
  rintro ⟨-, ft', hlook⟩
  rw [hnone] at hlook
  cases hlook

theorem Shape.subdirs_erase (h : t.Shape) (hlook : t.look p name = some (c, .directory)) (hproper : Proper name) :
    ((t.say p name none).subdirs p).ncard + 1 = (t.subdirs p).ncard := by
  rw [say_subdirs_none, if_pos rfl]
  exact Set.ncard_sdiff_singleton_add_one ⟨hproper, c, hlook⟩ (h.subdirs_finite p)

theorem Shape.subdirs_enter (h : t.Shape) (hnone : t.look p name = none) (hproper : Proper name) :
    ((t.say p name (some (c, .directory))).subdirs p).ncard = (t.subdirs p).ncard + 1 := by
  rw [say_subdirs_dir hproper, if_pos rfl]
  apply Set.ncard_insert_of_notMem _ (h.subdirs_finite p)
  rintro ⟨-, c', hlook⟩
  rw [hnone] at hlook
  cases hlook

theorem relink_self (t : Tree) (k : ℕ) (g : ℕ → ℕ) : (t.relink k g).nlink k = g (t.nlink k) := if_pos rfl

theorem relink_ne (t : Tree) (h : k ≠ c) (g : ℕ → ℕ) : (t.relink c g).nlink k = t.nlink k := if_neg h

namespace Consistent

theorem kind_ne (hc : t.kind c = some ft) (hft : ft ≠ .directory) (hk : t.kind k = some .directory) : k ≠ c := by
  rintro rfl
  rw [hk] at hc
  cases hc
  exact hft rfl

/-! ## Files -/

/-- A file gets another name. -/
theorem linkFile (h : t.Consistent) (hp : t.kind p = some .directory) (hvalid : validateName name = .ok ())
    (hfree : t.look p name = none) (hc : t.kind c = some ft) (hft : ft ≠ .directory) :
    ((t.say p name (some (c, ft))).relink c (· + 1)).Consistent where
  toShape := (h.enter hp hvalid hc fun hdir ↦ absurd hdir hft).relink c _
  files k ft' hk hft' := by
    have hproper := proper_of_valid hvalid
    change _ = ((t.say p name (some (c, ft))).names k).ncard
    by_cases hkc : k = c
    · rw [hkc, relink_self, h.ncard_enter hfree hproper, ← h.files c ft hc hft]
      rfl
    · rw [relink_ne _ hkc, say_names_some hfree hproper, if_neg hkc]
      exact h.files k ft' hk hft'
  directories k hk := by
    have hkc := kind_ne hc hft hk
    change _ = 1 + ((t.say p name (some (c, ft))).names k).ncard + ((t.say p name (some (c, ft))).subdirs k).ncard + _
    rw [relink_ne _ hkc, say_names_some hfree (proper_of_valid hvalid), if_neg hkc, say_subdirs_file hfree hft]
    exact h.directories k hk

/-- A file loses a name. -/
theorem unlinkFile (h : t.Consistent) (hlook : t.look p name = some (c, ft)) (hproper : Proper name)
    (hft : ft ≠ .directory) : ((t.say p name none).relink c (· - 1)).Consistent where
  toShape := (h.erase hproper).relink c _
  files k ft' hk hft' := by
    have hc := (h.entry p name c ft hlook hproper).2
    change _ = ((t.say p name none).names k).ncard
    by_cases hkc : k = c
    · have hcount := h.ncard_erase hlook hproper
      rw [← h.files c ft hc hft] at hcount
      rw [hkc, relink_self]
      change t.nlink c - 1 = _
      omega
    · rw [relink_ne _ hkc, names_erase_ne hlook hkc]
      exact h.files k ft' hk hft'
  directories k hk := by
    have hkc := kind_ne (h.entry p name c ft hlook hproper).2 hft hk
    change _ = 1 + ((t.say p name none).names k).ncard + ((t.say p name none).subdirs k).ncard + _
    rw [relink_ne _ hkc, names_erase_ne hlook hkc, subdirs_erase_file hlook hft]
    exact h.directories k hk

/-- A file without names is gone. -/
theorem forget (h : t.Consistent) (hc : t.kind c = some ft) (hft : ft ≠ .directory) (hlinks : t.nlink c = 0) :
    (t.forget c).Consistent := by
  have hdir : t.kind c ≠ some .directory := by
    rw [hc]
    exact fun heq ↦ hft (Option.some.inj heq)
  have hunnamed : t.names c = ∅ := by
    rw [← Set.ncard_eq_zero (h.names_finite c), ← h.files c ft hc hft, hlinks]
  have hlook := h.forget_look hdir
  have hnames : (t.forget c).names = t.names := by
    unfold names
    rw [hlook]
  have hsubdirs : (t.forget c).subdirs = t.subdirs := by
    unfold subdirs
    rw [hlook]
  have hold : ∀ {k ft}, (t.forget c).kind k = some ft → k ≠ c ∧ t.kind k = some ft := by
    intro k ft hk
    simp only [Tree.forget] at hk
    split_ifs at hk with hkc
    exact ⟨hkc, hk⟩
  refine ⟨h.toShape.forget hdir hunnamed, ?_, ?_⟩
  · intro k ft' hk hft'
    rw [hnames]
    exact (if_neg (hold hk).1).trans (h.files k ft' (hold hk).2 hft')
  · intro k hk
    rw [hnames, hsubdirs]
    exact (if_neg (hold hk).1).trans (h.directories k (hold hk).2)

/-- A new file with its name. -/
theorem makeFile (h : t.Consistent) (hp : t.kind p = some .directory) (hvalid : validateName name = .ok ())
    (hfree : t.look p name = none) (hk : t.kind k = none) (hft : ft ≠ .directory) :
    ((t.begin k ft).say p name (some (k, ft))).Consistent := by
  have hlook := h.begin_look hk ft
  have hshape := h.toShape.begin hk hft
  have hself : (t.begin k ft).kind k = some ft := if_pos rfl
  have hold : ∀ {k'}, k' ≠ k → (t.begin k ft).kind k' = t.kind k' := fun hne ↦ if_neg hne
  have hpk : p ≠ k := by
    rintro rfl
    rw [hp] at hk
    cases hk
  have hproper := proper_of_valid hvalid
  have hfree' : (t.begin k ft).look p name = none := by rw [hlook, hfree]
  have hnames : (t.begin k ft).names = t.names := by
    unfold names
    rw [hlook]
  have hsubdirs : (t.begin k ft).subdirs = t.subdirs := by
    unfold subdirs
    rw [hlook]
  refine ⟨hshape.enter ((hold hpk).trans hp) hvalid hself fun hdir ↦ absurd hdir hft, ?_, ?_⟩
  · intro k' ft' hk' hft'
    by_cases hne : k' = k
    · rw [hne, hshape.ncard_enter hfree' hproper, hnames, h.names_of_missing hk, Set.ncard_empty]
      exact if_pos rfl
    · rw [say_names_some hfree' hproper, if_neg hne, hnames, ← h.files k' ft' ((hold hne).symm.trans hk') hft']
      exact if_neg hne
  · intro k' hk'
    have hne : k' ≠ k := kind_ne hself hft hk'
    rw [say_names_some hfree' hproper, if_neg hne, say_subdirs_file hfree' hft, hnames, hsubdirs,
      ← h.directories k' ((hold hne).symm.trans hk')]
    exact if_neg hne

/-- A file moves to another name. -/
theorem moveFile {p' : ℕ} {name' : Bytes} (h : t.Consistent) (hlook : t.look p name = some (c, ft))
    (hproper : Proper name) (hp' : t.kind p' = some .directory) (hvalid : validateName name' = .ok ())
    (hfree : t.look p' name' = none) (hft : ft ≠ .directory) :
    ((t.say p name none).say p' name' (some (c, ft))).Consistent := by
  have hc := (h.entry p name c ft hlook hproper).2
  have hproper' := proper_of_valid hvalid
  have hfree' : (t.say p name none).look p' name' = none := by
    rw [say_ne, hfree]
    rintro ⟨rfl, rfl⟩
    rw [hlook] at hfree
    cases hfree
  have herased := h.erase (p := p) hproper
  refine ⟨herased.enter hp' hvalid hc fun hdir ↦ absurd hdir hft, ?_, ?_⟩
  · intro k ft' hk hft'
    by_cases hkc : k = c
    · rw [hkc, herased.ncard_enter hfree' hproper', h.ncard_erase hlook hproper]
      exact h.files c ft hc hft
    · rw [say_names_some hfree' hproper', if_neg hkc, names_erase_ne hlook hkc]
      exact h.files k ft' hk hft'
  · intro k hk
    have hkc := kind_ne hc hft hk
    rw [say_names_some hfree' hproper', if_neg hkc, names_erase_ne hlook hkc, say_subdirs_file hfree' hft,
      subdirs_erase_file hlook hft]
    exact h.directories k hk

/-! ## Directories -/

theorem ne_root (hlook : t.look p name = some (c, .directory)) (hproper : Proper name) (h : t.Consistent) :
    c ≠ rootIno := (h.up p name c hlook hproper).1

/-- An empty directory loses its name. It keeps one link, for the entry of itself. -/
theorem unlinkDir (h : t.Consistent) (hlook : t.look p name = some (c, .directory)) (hproper : Proper name)
    (hempty : ∀ name, Proper name → t.look c name = none) :
    (((t.say p name none).relink p (· - 1)).relink c (· - 1)).Consistent := by
  have hpc : p ≠ c := by
    rintro rfl
    rw [hempty name hproper] at hlook
    cases hlook
  have hc := (h.entry p name c .directory hlook hproper).2
  have hp := h.owner p name _ hlook
  refine ⟨((h.erase hproper).relink p _).relink c _, ?_, ?_⟩
  · intro k ft hk hft
    have hkp : k ≠ p := (kind_ne (t := t) hk hft hp).symm
    have hkc : k ≠ c := (kind_ne (t := t) hk hft hc).symm
    rw [relink_ne _ hkc, relink_ne _ hkp]
    exact (h.files k ft hk hft).trans (congrArg Set.ncard (names_erase_ne hlook hkc).symm)
  · intro k hk
    have hdir := h.directories k hk
    change _ = 1 + ((t.say p name none).names k).ncard + ((t.say p name none).subdirs k).ncard + _
    by_cases hkc : k = c
    · have hcount := h.ncard_erase hlook hproper
      rw [hkc] at hdir ⊢
      rw [relink_self, relink_ne _ hpc.symm, say_subdirs_none, if_neg hpc.symm]
      change t.nlink c - 1 = _
      omega
    · rw [relink_ne _ hkc, names_erase_ne hlook hkc]
      by_cases hkp : k = p
      · have hcount := h.subdirs_erase hlook hproper
        rw [hkp] at hdir ⊢
        rw [relink_self]
        change t.nlink p - 1 = _
        omega
      · rw [relink_ne _ hkp, say_subdirs_none, if_neg hkp]
        exact hdir

/-- A new directory with its name. -/
theorem makeDir (h : t.Consistent) (hp : t.kind p = some .directory) (hvalid : validateName name = .ok ())
    (hfree : t.look p name = none) (hk : t.kind k = none) :
    ((((t.beginDir k p).relink k (fun _ ↦ 2)).relink p (· + 1)).say p name (some (k, .directory))).Consistent := by
  have hshape := h.toShape.beginDir hk p
  have hproper := proper_of_valid hvalid
  have hself : (t.beginDir k p).kind k = some .directory := if_pos rfl
  have hold : ∀ {k'}, k' ≠ k → (t.beginDir k p).kind k' = t.kind k' := fun hne ↦ if_neg hne
  have hpk : p ≠ k := by
    rintro rfl
    rw [hp] at hk
    cases hk
  have hroot : k ≠ rootIno := by
    rintro rfl
    rw [h.root] at hk
    cases hk
  have hfree' : (t.beginDir k p).look p name = none := by rw [beginDir_ne h.toShape hk hpk, hfree]
  have hnames : (t.beginDir k p).names = t.names := by
    unfold beginDir
    rw [say_names_dots not_proper_dotdot, say_names_dots not_proper_dot]
    unfold names
    rw [h.begin_look hk]
  have hsubdirs : (t.beginDir k p).subdirs = t.subdirs := by
    unfold beginDir
    rw [say_subdirs_dots not_proper_dotdot, say_subdirs_dots not_proper_dot]
    unfold subdirs
    rw [h.begin_look hk]
  have hunnamed : (t.beginDir k p).names k = ∅ := by rw [hnames, h.names_of_missing hk]
  have hbare : t.subdirs k = ∅ := by
    apply Set.eq_empty_of_forall_notMem
    rintro name' ⟨-, c, hlook⟩
    rw [h.owner k name' _ hlook] at hk
    cases hk
  have hdotdot : (t.beginDir k p).look k dotdotName = some (p, .directory) := say_self ..
  have henter : ((t.beginDir k p).say p name (some (k, .directory))).Shape := by
    refine hshape.enter ((hold hpk).trans hp) hvalid hself fun _ ↦ ⟨hroot, hdotdot, ?_⟩
    intro name' ft' hlook hproper'
    have hmem : (p, name') ∈ (t.beginDir k p).names k := ⟨hproper', ft', hlook⟩
    rw [hunnamed] at hmem
    exact hmem
  refine ⟨⟨henter.finite, henter.root, henter.top, henter.owner, henter.dot, henter.dotdot, henter.entry, henter.up,
    henter.once⟩, ?_, ?_⟩
  · intro k' ft hk' hft
    have hne : k' ≠ k := by
      rintro rfl
      rw [show ((((t.beginDir k' p).relink k' (fun _ ↦ 2)).relink p (· + 1)).say p name
        (some (k', .directory))).kind k' = some .directory from hself] at hk'
      cases hk'
      exact hft rfl
    have hkind := (hold hne).symm.trans hk'
    have hnep : k' ≠ p := (kind_ne hkind hft hp).symm
    have hcount : (((t.beginDir k p).say p name (some (k, .directory))).names k') = t.names k' := by
      rw [say_names_some hfree' hproper, if_neg hne, hnames]
    have hlinks : (((t.beginDir k p).relink k (fun _ ↦ 2)).relink p (· + 1)).nlink k' = t.nlink k' := by
      rw [relink_ne _ hnep, relink_ne _ hne]
      exact if_neg hne
    exact hlinks.trans ((h.files k' ft hkind hft).trans (congrArg Set.ncard hcount.symm))
  · intro k' hk'
    change (((t.beginDir k p).relink k (fun _ ↦ 2)).relink p (· + 1)).nlink k' =
      1 + (((t.beginDir k p).say p name (some (k, .directory))).names k').ncard +
        (((t.beginDir k p).say p name (some (k, .directory))).subdirs k').ncard + _
    by_cases hne : k' = k
    · rw [hne, relink_ne _ hpk.symm, relink_self, hshape.ncard_enter hfree' hproper, hunnamed, Set.ncard_empty,
        say_subdirs_dir hproper, if_neg hpk.symm, hsubdirs, hbare, Set.ncard_empty, if_neg hroot]
    · have hdir := h.directories k' ((hold hne).symm.trans hk')
      rw [say_names_some hfree' hproper, if_neg hne, hnames]
      by_cases hnep : k' = p
      · have hcount := hshape.subdirs_enter (c := k) hfree' hproper
        rw [hsubdirs] at hcount
        have hlinks : ((t.beginDir k p).relink k (fun _ ↦ 2)).nlink p = t.nlink p := by
          rw [relink_ne _ hpk]
          exact if_neg hpk
        rw [hnep] at hdir ⊢
        rw [relink_self, hcount, hlinks, hdir]
        omega
      · rw [relink_ne _ hnep, relink_ne _ hne, say_subdirs_dir hproper, if_neg hnep, hsubdirs, ← hdir]
        exact if_neg hne

/-- A directory moves to another name in the same directory. -/
theorem moveWithin {name' : Bytes} (h : t.Consistent) (hlook : t.look p name = some (c, .directory))
    (hproper : Proper name) (hvalid : validateName name' = .ok ()) (hfree : t.look p name' = none) :
    ((t.say p name none).say p name' (some (c, .directory))).Consistent := by
  have hp := h.owner p name _ hlook
  have hc := (h.entry p name c .directory hlook hproper).2
  have hproper' := proper_of_valid hvalid
  have hup := h.up p name c hlook hproper
  have hfree' : (t.say p name none).look p name' = none := by
    rw [say_ne, hfree]
    rintro ⟨-, rfl⟩
    rw [hlook] at hfree
    cases hfree
  have herased := h.erase (p := p) hproper
  have hshape : ((t.say p name none).say p name' (some (c, .directory))).Shape := by
    refine herased.enter hp hvalid hc fun _ ↦ ⟨hup.1, ?_, ?_⟩
    · rw [say_ne_name t hproper.2.symm]
      exact hup.2
    · intro other ft' hother hproper''
      have hsame := h.once p name other c ft' hlook (look_of_say_none hother) hproper hproper''
      rw [hsame, say_self] at hother
      cases hother
  refine ⟨hshape, ?_, ?_⟩
  · intro k ft hk hft
    have hkc : k ≠ c := (kind_ne (t := t) hk hft hc).symm
    rw [say_names_some hfree' hproper', if_neg hkc, names_erase_ne hlook hkc]
    exact h.files k ft hk hft
  · intro k hk
    have hdir := h.directories k hk
    have hnames : (((t.say p name none).say p name' (some (c, .directory))).names k).ncard = (t.names k).ncard := by
      by_cases hkc : k = c
      · rw [hkc, herased.ncard_enter hfree' hproper', h.ncard_erase hlook hproper]
      · rw [say_names_some hfree' hproper', if_neg hkc, names_erase_ne hlook hkc]
    have hsubdirs : (((t.say p name none).say p name' (some (c, .directory))).subdirs k).ncard =
        (t.subdirs k).ncard := by
      by_cases hkp : k = p
      · rw [hkp, herased.subdirs_enter hfree' hproper', h.subdirs_erase hlook hproper]
      · rw [say_subdirs_dir hproper', if_neg hkp, say_subdirs_none, if_neg hkp]
    rw [hnames, hsubdirs]
    exact hdir

theorem say_comm {p' : ℕ} {name' : Bytes} (hne : ¬(p = p' ∧ name = name')) (v v' : Option (ℕ × FileType)) :
    (t.say p name v).say p' name' v' = (t.say p' name' v').say p name v := by
  apply Tree.ext
  · funext k n
    simp only [say]
    by_cases h : k = p ∧ n = name
    · have h' : ¬(k = p' ∧ n = name') := fun h' ↦ hne ⟨h.1.symm.trans h'.1, h.2.symm.trans h'.2⟩
      rw [if_neg h', if_pos h, if_pos h]
    · rw [if_neg h, if_neg h]
  · rfl
  · rfl

/-- A directory moves into another directory, and its `..` with it. -/
theorem moveAcross {p' : ℕ} {name' : Bytes} (h : t.Consistent) (hlook : t.look p name = some (c, .directory))
    (hproper : Proper name) (hp' : t.kind p' = some .directory) (hvalid : validateName name' = .ok ())
    (hfree : t.look p' name' = none) (hne : p ≠ p') :
    (((((t.say p name none).say p' name' (some (c, .directory))).say c dotdotName
      (some (p', .directory))).relink p (· - 1)).relink p' (· + 1)).Consistent := by
  have hp := h.owner p name _ hlook
  have hc := (h.entry p name c .directory hlook hproper).2
  have hproper' := proper_of_valid hvalid
  have hroot := h.ne_root hlook hproper
  have herased := h.erase (p := p) hproper
  have hfree₁ : (t.say p name none).look p' name' = none := by
    rw [say_ne _ fun hsame ↦ hne hsame.1.symm, hfree]
  have hunnamed : (t.say p name none).names c = ∅ := by
    rw [say_names_none, h.names_dir hlook hproper, Set.sdiff_self]
  have hpointed := herased.repoint hc hroot hunnamed p'
  have hfree₂ : ((t.say p name none).say c dotdotName (some (p', .directory))).look p' name' = none := by
    rw [say_ne_name _ hproper'.2, hfree₁]
  have hentered : (((t.say p name none).say c dotdotName (some (p', .directory))).say p' name'
      (some (c, .directory))).Shape := by
    refine hpointed.enter hp' hvalid hc fun _ ↦ ⟨hroot, say_self .., ?_⟩
    intro other ft' hother hproper''
    have hmem : (p', other) ∈ ((t.say p name none).say c dotdotName (some (p', .directory))).names c :=
      ⟨hproper'', ft', hother⟩
    rw [say_names_dots not_proper_dotdot, hunnamed] at hmem
    exact hmem
  have hcomm : ((t.say p name none).say p' name' (some (c, .directory))).say c dotdotName (some (p', .directory)) =
      ((t.say p name none).say c dotdotName (some (p', .directory))).say p' name' (some (c, .directory)) :=
    say_comm (fun hsame ↦ hproper'.2 hsame.2) _ _
  rw [hcomm]
  have hnames : ∀ k, (((t.say p name none).say c dotdotName (some (p', .directory))).say p' name'
      (some (c, .directory))).names k = ((t.say p name none).say p' name' (some (c, .directory))).names k := by
    intro k
    rw [← hcomm, say_names_dots not_proper_dotdot]
  have hsubdirs : ∀ k, (((t.say p name none).say c dotdotName (some (p', .directory))).say p' name'
      (some (c, .directory))).subdirs k = ((t.say p name none).say p' name' (some (c, .directory))).subdirs k := by
    intro k
    rw [← hcomm, say_subdirs_dots not_proper_dotdot]
  refine ⟨(hentered.relink p _).relink p' _, ?_, ?_⟩
  · intro k ft hk hft
    have hkdir : ∀ {d}, t.kind d = some .directory → k ≠ d := fun hd ↦ (kind_ne (t := t) hk hft hd).symm
    rw [relink_ne _ (hkdir hp'), relink_ne _ (hkdir hp)]
    have hsame := hnames k
    rw [say_names_some hfree₁ hproper', if_neg (hkdir hc), names_erase_ne hlook (hkdir hc)] at hsame
    exact (h.files k ft hk hft).trans (congrArg Set.ncard hsame.symm)
  · intro k hk
    have hdir := h.directories k hk
    have hcount : (((t.say p name none).say p' name' (some (c, .directory))).names k).ncard = (t.names k).ncard := by
      by_cases hkc : k = c
      · rw [hkc, herased.ncard_enter hfree₁ hproper', h.ncard_erase hlook hproper]
      · rw [say_names_some hfree₁ hproper', if_neg hkc, names_erase_ne hlook hkc]
    change _ = 1 + ((((t.say p name none).say c dotdotName (some (p', .directory))).say p' name'
      (some (c, .directory))).names k).ncard + ((((t.say p name none).say c dotdotName
      (some (p', .directory))).say p' name' (some (c, .directory))).subdirs k).ncard + _
    rw [hnames, hsubdirs, hcount, say_subdirs_dir hproper']
    by_cases hkp' : k = p'
    · have hgain := herased.subdirs_enter (c := c) hfree₁ hproper'
      rw [say_subdirs_dir hproper', if_pos rfl] at hgain
      rw [hkp'] at hdir ⊢
      rw [relink_self, relink_ne _ hne.symm, if_pos rfl, hgain, say_subdirs_none, if_neg hne.symm]
      change t.nlink p' + 1 = _
      omega
    · rw [relink_ne _ hkp', if_neg hkp']
      by_cases hkp : k = p
      · have hloss := h.subdirs_erase hlook hproper
        rw [hkp] at hdir ⊢
        rw [relink_self]
        change t.nlink p - 1 = _
        omega
      · rw [relink_ne _ hkp, say_subdirs_none, if_neg hkp]
        exact hdir

end Consistent

/-! ## The operations on names -/

/-- `create_child`. -/
def make (t : Tree) (p : ℕ) (name : Bytes) (k : ℕ) (ft : FileType) : Tree :=
  if ft = .directory then
    (((t.beginDir k p).relink k (fun _ ↦ 2)).relink p (· + 1)).say p name (some (k, .directory))
  else (t.begin k ft).say p name (some (k, ft))

/-- `link_into`. -/
def link (t : Tree) (p : ℕ) (name : Bytes) (v : ℕ × FileType) : Tree := (t.say p name (some v)).relink v.1 (· + 1)

/-- `unlink_name`, before an inode without names is dropped. -/
def unlink (t : Tree) (p : ℕ) (name : Bytes) (v : ℕ × FileType) : Tree :=
  (if v.2 = .directory then (t.say p name none).relink p (· - 1) else t.say p name none).relink v.1 (· - 1)

/-- `rename` to a name that is free. -/
def move (t : Tree) (p : ℕ) (name : Bytes) (p' : ℕ) (name' : Bytes) (v : ℕ × FileType) : Tree :=
  let u := (t.say p name none).say p' name' (some v)
  if v.2 = .directory ∧ p ≠ p' then
    ((u.say v.1 dotdotName (some (p', .directory))).relink p (· - 1)).relink p' (· + 1)
  else u

namespace Consistent

theorem make (h : t.Consistent) (hp : t.kind p = some .directory) (hvalid : validateName name = .ok ())
    (hfree : t.look p name = none) (hk : t.kind k = none) (ft : FileType) : (t.make p name k ft).Consistent := by
  unfold Tree.make
  split_ifs with hft
  · exact h.makeDir hp hvalid hfree hk
  · exact h.makeFile hp hvalid hfree hk hft

/-- A directory loses its name only if it is empty. -/
theorem unlink {v : ℕ × FileType} (h : t.Consistent) (hlook : t.look p name = some v) (hproper : Proper name)
    (hempty : v.2 = .directory → ∀ name, Proper name → t.look v.1 name = none) :
    (t.unlink p name v).Consistent := by
  obtain ⟨c, ft⟩ := v
  unfold Tree.unlink
  split_ifs with hft
  · dsimp only at hft
    rw [hft] at hlook
    exact h.unlinkDir hlook hproper (hempty hft)
  · exact h.unlinkFile hlook hproper hft

theorem move {v : ℕ × FileType} {p' : ℕ} {name' : Bytes} (h : t.Consistent) (hlook : t.look p name = some v)
    (hproper : Proper name) (hp' : t.kind p' = some .directory) (hvalid : validateName name' = .ok ())
    (hfree : t.look p' name' = none) : (t.move p name p' name' v).Consistent := by
  obtain ⟨c, ft⟩ := v
  unfold Tree.move
  by_cases hft : ft = .directory
  · rw [hft] at hlook ⊢
    by_cases hpp : p = p'
    · rw [if_neg fun hand ↦ hand.2 hpp, ← hpp]
      rw [← hpp] at hfree
      exact h.moveWithin hlook hproper hvalid hfree
    · rw [if_pos ⟨rfl, hpp⟩]
      exact h.moveAcross hlook hproper hp' hvalid hfree hpp
  · rw [if_neg fun hand ↦ hft hand.1]
    exact h.moveFile hlook hproper hp' hvalid hfree hft

end Consistent

end LinuxFile.Tree
