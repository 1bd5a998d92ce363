import LinuxFile.Path
import LinuxFile.Types
import Mathlib.Data.Set.Card

/-!
# Namespaces

What the directories of a filesystem say, without how they say it: under which name which inode is found and of
which type, which inodes there are, and their link counts. A namespace is consistent if these agree. The link count
of a file is the number of its names; a directory has one link for itself, one for its name (the root has no name
and one link more) and one for the `..` of each directory in it.
-/

namespace LinuxFile

structure Tree where
  look : ℕ → Bytes → Option (ℕ × FileType)
  kind : ℕ → Option FileType
  nlink : ℕ → ℕ

/-- A name other than `.` and `..`. -/
def Proper (name : Bytes) : Prop := name ≠ dotName ∧ name ≠ dotdotName

theorem not_proper_dot : ¬Proper dotName := fun h ↦ h.1 rfl

theorem not_proper_dotdot : ¬Proper dotdotName := fun h ↦ h.2 rfl

theorem proper_of_valid {name : Bytes} (h : validateName name = .ok ()) : Proper name := by
  unfold validateName at h
  split_ifs at h with hdots
  exact ⟨fun hdot ↦ hdots (Or.inr (Or.inl hdot)), fun hdot ↦ hdots (Or.inr (Or.inr hdot))⟩

namespace Tree

variable {t : Tree} {k p c : ℕ} {name : Bytes} {ft : FileType}

@[ext]
theorem ext {t u : Tree} (hlook : t.look = u.look) (hkind : t.kind = u.kind) (hlinks : t.nlink = u.nlink) : t = u := by
  cases t
  cases u
  simp only at hlook hkind hlinks
  rw [hlook, hkind, hlinks]

/-- The places where an inode has a name. -/
def names (t : Tree) (k : ℕ) : Set (ℕ × Bytes) := {p | Proper p.2 ∧ ∃ ft, t.look p.1 p.2 = some (k, ft)}

/-- The names of the directories in a directory. -/
def subdirs (t : Tree) (k : ℕ) : Set Bytes := {name | Proper name ∧ ∃ c, t.look k name = some (c, .directory)}

/-- The directories agree with each other and with the inodes. -/
structure Shape (t : Tree) : Prop where
  finite : {p : ℕ × Bytes | t.look p.1 p.2 ≠ none}.Finite
  root : t.kind rootIno = some .directory
  top : t.look rootIno dotdotName = some (rootIno, .directory)
  owner : ∀ k name v, t.look k name = some v → t.kind k = some .directory
  dot : ∀ k, t.kind k = some .directory → t.look k dotName = some (k, .directory)
  dotdot : ∀ k, t.kind k = some .directory → ∃ p, t.look k dotdotName = some (p, .directory)
  entry : ∀ p name c ft, t.look p name = some (c, ft) → Proper name → validateName name = .ok () ∧ t.kind c = some ft
  up : ∀ p name c, t.look p name = some (c, .directory) → Proper name →
    c ≠ rootIno ∧ t.look c dotdotName = some (p, .directory)
  once : ∀ p name name' c ft, t.look p name = some (c, .directory) → t.look p name' = some (c, ft) → Proper name →
    Proper name' → name' = name

/-- The link counts are the numbers of names. -/
structure Consistent (t : Tree) : Prop extends Shape t where
  files : ∀ k ft, t.kind k = some ft → ft ≠ .directory → t.nlink k = (t.names k).ncard
  directories : ∀ k, t.kind k = some .directory →
    t.nlink k = 1 + (t.names k).ncard + (t.subdirs k).ncard + if k = rootIno then 1 else 0

theorem Shape.names_finite (h : t.Shape) (k : ℕ) : (t.names k).Finite := by
  apply h.finite.subset
  rintro p ⟨-, ft, hlook⟩ hnone
  rw [hlook] at hnone
  cases hnone

theorem Shape.subdirs_finite (h : t.Shape) (k : ℕ) : (t.subdirs k).Finite := by
  have himage : (Prod.mk k '' t.subdirs k).Finite := by
    apply h.finite.subset
    rintro _ ⟨name, ⟨-, c, hlook⟩, rfl⟩ hnone
    rw [hlook] at hnone
    cases hnone
  exact himage.of_finite_image (Prod.mk_right_injective k).injOn

/-- Entries of one inode have one type. -/
theorem Shape.type_eq (h : t.Shape) {p' : ℕ} {name' : Bytes} {ft' : FileType} (hlook : t.look p name = some (c, ft))
    (hproper : Proper name) (hlook' : t.look p' name' = some (c, ft')) (hproper' : Proper name') : ft' = ft := by
  have hkind := (h.entry p name c ft hlook hproper).2
  have hkind' := (h.entry p' name' c ft' hlook' hproper').2
  exact Option.some.inj (hkind'.symm.trans hkind)

/-- A directory has one name. -/
theorem Shape.names_dir (h : t.Shape) (hlook : t.look p name = some (c, .directory)) (hproper : Proper name) :
    t.names c = {(p, name)} := by
  apply Set.eq_singleton_iff_unique_mem.mpr
  refine ⟨⟨hproper, _, hlook⟩, ?_⟩
  rintro ⟨p', name'⟩ ⟨hproper', ft', hlook'⟩
  have hft := h.type_eq hlook hproper hlook' hproper'
  subst hft
  have hup := (h.up p name c hlook hproper).2
  have hup' := (h.up p' name' c hlook' hproper').2
  rw [hup] at hup'
  cases hup'
  rw [h.once p name name' c _ hlook hlook' hproper hproper']

/-! ## Changes -/

/-- Let a directory say something else under a name. -/
def say (t : Tree) (k : ℕ) (name : Bytes) (v : Option (ℕ × FileType)) : Tree :=
  { t with look := fun k' name' ↦ if k' = k ∧ name' = name then v else t.look k' name' }

def relink (t : Tree) (k : ℕ) (g : ℕ → ℕ) : Tree :=
  { t with nlink := fun k' ↦ if k' = k then g (t.nlink k) else t.nlink k' }

/-- An inode is gone. -/
def forget (t : Tree) (k : ℕ) : Tree where
  look k' name := if k' = k then none else t.look k' name
  kind k' := if k' = k then none else t.kind k'
  nlink k' := if k' = k then 0 else t.nlink k'

/-- A new inode, which nothing names yet. -/
def begin (t : Tree) (k : ℕ) (ft : FileType) : Tree where
  look k' name := if k' = k then none else t.look k' name
  kind k' := if k' = k then some ft else t.kind k'
  nlink k' := if k' = k then 1 else t.nlink k'

/-! ## The shape after a change -/

theorem say_self (t : Tree) (p : ℕ) (name : Bytes) (v : Option (ℕ × FileType)) : (t.say p name v).look p name = v :=
  if_pos ⟨rfl, rfl⟩

theorem say_ne (t : Tree) {p' : ℕ} {name' : Bytes} (h : ¬(p' = p ∧ name' = name)) (v : Option (ℕ × FileType)) :
    (t.say p name v).look p' name' = t.look p' name' := if_neg h

theorem say_ne_name (t : Tree) {name' : Bytes} (h : name' ≠ name) (p' : ℕ) (v : Option (ℕ × FileType)) :
    (t.say p name v).look p' name' = t.look p' name' := if_neg fun hsame ↦ h hsame.2

theorem look_of_say_none {p' : ℕ} {name' : Bytes} {v : ℕ × FileType}
    (h : (t.say p name none).look p' name' = some v) : t.look p' name' = some v := by
  by_cases hsame : p' = p ∧ name' = name
  · rw [hsame.1, hsame.2, say_self] at h
    cases h
  · rw [say_ne t hsame] at h
    exact h

theorem finite_say (h : {q : ℕ × Bytes | t.look q.1 q.2 ≠ none}.Finite) (v : Option (ℕ × FileType)) :
    {q : ℕ × Bytes | (t.say p name v).look q.1 q.2 ≠ none}.Finite := by
  apply (h.insert (p, name)).subset
  rintro ⟨p', name'⟩ hne
  by_cases hsame : p' = p ∧ name' = name
  · exact Or.inl (Prod.ext hsame.1 hsame.2)
  · apply Or.inr
    rw [Set.mem_ofPred_eq, say_ne t hsame] at hne
    exact hne

namespace Shape

theorem erase (h : t.Shape) (hproper : Proper name) : (t.say p name none).Shape where
  finite := finite_say h.finite none
  root := h.root
  top := by
    rw [say_ne_name t hproper.2.symm]
    exact h.top
  owner k name' v hlook := h.owner k name' v (look_of_say_none hlook)
  dot k hk := by
    rw [say_ne_name t hproper.1.symm]
    exact h.dot k hk
  dotdot k hk := by
    rw [say_ne_name t hproper.2.symm]
    exact h.dotdot k hk
  entry p' name' c ft hlook := h.entry p' name' c ft (look_of_say_none hlook)
  up p' name' c hlook hproper' := by
    rw [say_ne_name t hproper.2.symm]
    exact h.up p' name' c (look_of_say_none hlook) hproper'
  once p' name' name'' c ft hlook hlook' :=
    h.once p' name' name'' c ft (look_of_say_none hlook) (look_of_say_none hlook')

/-- A directory gets an entry for an inode; for a directory it is the first one, and its `..` names the directory. -/
theorem enter (h : t.Shape) (hp : t.kind p = some .directory) (hvalid : validateName name = .ok ())
    (hc : t.kind c = some ft)
    (hdir : ft = .directory → c ≠ rootIno ∧ t.look c dotdotName = some (p, .directory) ∧
      ∀ name' ft', t.look p name' = some (c, ft') → ¬Proper name') :
    (t.say p name (some (c, ft))).Shape := by
  have hproper := proper_of_valid hvalid
  refine ⟨finite_say h.finite _, h.root, ?_, ?_, ?_, ?_, ?_, ?_, ?_⟩
  · rw [say_ne_name t hproper.2.symm]
    exact h.top
  · intro k name' v hlook
    by_cases hsame : k = p ∧ name' = name
    · rw [hsame.1]
      exact hp
    · rw [say_ne t hsame] at hlook
      exact h.owner k name' v hlook
  · intro k hk
    rw [say_ne_name t hproper.1.symm]
    exact h.dot k hk
  · intro k hk
    rw [say_ne_name t hproper.2.symm]
    exact h.dotdot k hk
  · intro p' name' c' ft' hlook hproper'
    by_cases hsame : p' = p ∧ name' = name
    · rw [hsame.1, hsame.2, say_self] at hlook
      cases hlook
      rw [hsame.2]
      exact ⟨hvalid, hc⟩
    · rw [say_ne t hsame] at hlook
      exact h.entry p' name' c' ft' hlook hproper'
  · intro p' name' c' hlook hproper'
    rw [say_ne_name t hproper.2.symm]
    by_cases hsame : p' = p ∧ name' = name
    · rw [hsame.1, hsame.2, say_self] at hlook
      cases hlook
      rw [hsame.1]
      exact ⟨(hdir rfl).1, (hdir rfl).2.1⟩
    · rw [say_ne t hsame] at hlook
      exact h.up p' name' c' hlook hproper'
  · intro p' name' name'' c' ft' hlook hlook' hproper' hproper''
    by_cases hsame : p' = p ∧ name' = name
    · by_cases hsame' : p' = p ∧ name'' = name
      · rw [hsame.2, hsame'.2]
      · rw [hsame.1, hsame.2, say_self] at hlook
        cases hlook
        rw [say_ne t hsame', hsame.1] at hlook'
        exact absurd hproper'' ((hdir rfl).2.2 name'' ft' hlook')
    · rw [say_ne t hsame] at hlook
      by_cases hsame' : p' = p ∧ name'' = name
      · rw [hsame'.1, hsame'.2, say_self] at hlook'
        cases hlook'
        have hkind := (h.entry p' name' c .directory hlook hproper').2
        rw [hc] at hkind
        cases hkind
        rw [hsame'.1] at hlook
        exact absurd hproper' ((hdir rfl).2.2 name' _ hlook)
      · rw [say_ne t hsame'] at hlook'
        exact h.once p' name' name'' c' ft' hlook hlook' hproper' hproper''

/-- The `..` of a directory without a name may name any directory. -/
theorem repoint (h : t.Shape) (hc : t.kind c = some .directory) (hroot : c ≠ rootIno)
    (hunnamed : t.names c = ∅) (p : ℕ) : (t.say c dotdotName (some (p, .directory))).Shape := by
  have hother : ∀ p' name', Proper name' →
      (t.say c dotdotName (some (p, .directory))).look p' name' = t.look p' name' :=
    fun p' name' hproper ↦ say_ne_name t hproper.2 p' _
  refine ⟨finite_say h.finite _, h.root, ?_, ?_, ?_, ?_, ?_, ?_, ?_⟩
  · rw [say_ne t fun hsame ↦ hroot hsame.1.symm]
    exact h.top
  · intro k name' v hlook
    by_cases hsame : k = c ∧ name' = dotdotName
    · rw [hsame.1]
      exact hc
    · rw [say_ne t hsame] at hlook
      exact h.owner k name' v hlook
  · intro k hk
    rw [say_ne_name t (show dotName ≠ dotdotName by decide)]
    exact h.dot k hk
  · intro k hk
    by_cases hsame : k = c
    · rw [hsame, say_self]
      exact ⟨p, rfl⟩
    · rw [say_ne t fun hboth ↦ hsame hboth.1]
      exact h.dotdot k hk
  · intro p' name' c' ft' hlook hproper
    rw [hother p' name' hproper] at hlook
    exact h.entry p' name' c' ft' hlook hproper
  · intro p' name' c' hlook hproper
    rw [hother p' name' hproper] at hlook
    have hne : c' ≠ c := by
      rintro rfl
      have hmem : (p', name') ∈ t.names c' := ⟨hproper, _, hlook⟩
      rw [hunnamed] at hmem
      exact hmem
    rw [say_ne t fun hsame ↦ hne hsame.1]
    exact h.up p' name' c' hlook hproper
  · intro p' name' name'' c' ft' hlook hlook' hproper hproper'
    rw [hother p' name' hproper] at hlook
    rw [hother p' name'' hproper'] at hlook'
    exact h.once p' name' name'' c' ft' hlook hlook' hproper hproper'

theorem relink (h : t.Shape) (k : ℕ) (g : ℕ → ℕ) : (t.relink k g).Shape :=
  ⟨h.finite, h.root, h.top, h.owner, h.dot, h.dotdot, h.entry, h.up, h.once⟩

/-- Only directories have entries, so the entries stay as they are when anything else comes or goes. -/
theorem forget_look (h : t.Shape) (hc : t.kind c ≠ some .directory) : (t.forget c).look = t.look := by
  funext k name
  by_cases hk : k = c
  · cases hlook : t.look k name with
    | none => exact if_pos hk
    | some v => exact absurd (hk ▸ h.owner k name v hlook) hc
  · exact if_neg hk

theorem begin_look (h : t.Shape) (hk : t.kind k = none) (ft : FileType) : (t.begin k ft).look = t.look := by
  have hdir : t.kind k ≠ some .directory := by
    rw [hk]
    exact (Option.some_ne_none _).symm
  exact h.forget_look hdir

/-- A file without a name is gone. -/
theorem forget (h : t.Shape) (hc : t.kind c ≠ some .directory) (hunnamed : t.names c = ∅) : (t.forget c).Shape := by
  have hlook := h.forget_look hc
  have hdir : ∀ {k}, t.kind k = some .directory → (t.forget c).kind k = some .directory := by
    intro k hk
    have hne : k ≠ c := by
      rintro rfl
      exact hc hk
    exact (if_neg hne).trans hk
  have hback : ∀ {k}, (t.forget c).kind k = some .directory → t.kind k = some .directory := by
    intro k hk
    simp only [Tree.forget] at hk
    split_ifs at hk
    exact hk
  refine ⟨?_, hdir h.root, ?_, ?_, ?_, ?_, ?_, ?_, ?_⟩
  · rw [hlook]
    exact h.finite
  · rw [hlook]
    exact h.top
  · intro k name v hv
    rw [hlook] at hv
    exact hdir (h.owner k name v hv)
  · intro k hk
    rw [hlook]
    exact h.dot k (hback hk)
  · intro k hk
    rw [hlook]
    exact h.dotdot k (hback hk)
  · intro p name c' ft hentry hproper
    rw [hlook] at hentry
    obtain ⟨hvalid, hkind⟩ := h.entry p name c' ft hentry hproper
    have hne : c' ≠ c := by
      rintro rfl
      have hmem : (p, name) ∈ t.names c' := ⟨hproper, _, hentry⟩
      rw [hunnamed] at hmem
      exact hmem
    exact ⟨hvalid, (if_neg hne).trans hkind⟩
  · rw [hlook]
    exact h.up
  · rw [hlook]
    exact h.once

theorem names_of_missing (h : t.Shape) (hk : t.kind k = none) : t.names k = ∅ := by
  apply Set.eq_empty_of_forall_notMem
  rintro ⟨p, name⟩ ⟨hproper, ft, hlook⟩
  have hkind := (h.entry p name k ft hlook hproper).2
  rw [hk] at hkind
  cases hkind

/-- A new file, which has no name yet. -/
theorem begin (h : t.Shape) (hk : t.kind k = none) (hft : ft ≠ .directory) : (t.begin k ft).Shape := by
  have hlook := h.begin_look hk ft
  have hold : ∀ {k'}, t.kind k' ≠ none → (t.begin k ft).kind k' = t.kind k' := by
    intro k' hk'
    have hne : k' ≠ k := by
      rintro rfl
      exact hk' hk
    exact if_neg hne
  have hdir : ∀ {k'}, t.kind k' = some .directory → (t.begin k ft).kind k' = some .directory := by
    intro k' hk'
    rw [hold (by rw [hk']; exact Option.some_ne_none _), hk']
  have hback : ∀ {k'}, (t.begin k ft).kind k' = some .directory → t.kind k' = some .directory := by
    intro k' hk'
    simp only [Tree.begin] at hk'
    split_ifs at hk'
    · exact absurd (Option.some.inj hk') hft
    · exact hk'
  refine ⟨?_, hdir h.root, ?_, ?_, ?_, ?_, ?_, ?_, ?_⟩
  · rw [hlook]
    exact h.finite
  · rw [hlook]
    exact h.top
  · intro k' name v hv
    rw [hlook] at hv
    exact hdir (h.owner k' name v hv)
  · intro k' hk'
    rw [hlook]
    exact h.dot k' (hback hk')
  · intro k' hk'
    rw [hlook]
    exact h.dotdot k' (hback hk')
  · intro p name c ft' hentry hproper
    rw [hlook] at hentry
    obtain ⟨hvalid, hkind⟩ := h.entry p name c ft' hentry hproper
    refine ⟨hvalid, ?_⟩
    rw [hold (by rw [hkind]; exact Option.some_ne_none _), hkind]
  · rw [hlook]
    exact h.up
  · rw [hlook]
    exact h.once

end Shape

/-- A new directory with its two dots, which has no name yet. -/
def beginDir (t : Tree) (k p : ℕ) : Tree :=
  ((t.begin k .directory).say k dotName (some (k, .directory))).say k dotdotName (some (p, .directory))

theorem beginDir_proper (h : t.Shape) (hk : t.kind k = none) (hproper : Proper name) (p k' : ℕ) :
    (t.beginDir k p).look k' name = t.look k' name := by
  unfold beginDir
  rw [say_ne_name _ hproper.2, say_ne_name _ hproper.1, h.begin_look hk]

theorem beginDir_ne (h : t.Shape) (hk : t.kind k = none) {k' : ℕ} (hne : k' ≠ k) (p : ℕ) (name : Bytes) :
    (t.beginDir k p).look k' name = t.look k' name := by
  unfold beginDir
  rw [say_ne _ fun hsame ↦ hne hsame.1, say_ne _ fun hsame ↦ hne hsame.1, h.begin_look hk]

theorem Shape.beginDir (h : t.Shape) (hk : t.kind k = none) (p : ℕ) : (t.beginDir k p).Shape := by
  have hself : (t.beginDir k p).kind k = some .directory := if_pos rfl
  have hold : ∀ {k'}, t.kind k' ≠ none → (t.beginDir k p).kind k' = t.kind k' := by
    intro k' hk'
    have hne : k' ≠ k := by
      rintro rfl
      exact hk' hk
    exact if_neg hne
  have hroot : rootIno ≠ k := by
    rintro rfl
    rw [h.root] at hk
    cases hk
  have hback : ∀ {k'}, k' ≠ k → (t.beginDir k p).kind k' = some .directory → t.kind k' = some .directory :=
    fun hne hk' ↦ (if_neg hne).symm.trans hk'
  refine ⟨finite_say (finite_say ?_ _) _, ?_, ?_, ?_, ?_, ?_, ?_, ?_, ?_⟩
  · rw [h.begin_look hk]
    exact h.finite
  · rw [hold (by rw [h.root]; exact Option.some_ne_none _), h.root]
  · rw [beginDir_ne h hk hroot]
    exact h.top
  · intro k' name v hv
    by_cases hne : k' = k
    · rw [hne]
      exact hself
    · rw [beginDir_ne h hk hne] at hv
      have hkind := h.owner k' name v hv
      rw [hold (by rw [hkind]; exact Option.some_ne_none _), hkind]
  · intro k' hk'
    by_cases hne : k' = k
    · unfold Tree.beginDir
      rw [say_ne_name _ (show dotName ≠ dotdotName by decide), hne, say_self]
    · rw [beginDir_ne h hk hne]
      exact h.dot k' (hback hne hk')
  · intro k' hk'
    by_cases hne : k' = k
    · unfold Tree.beginDir
      rw [hne, say_self]
      exact ⟨p, rfl⟩
    · rw [beginDir_ne h hk hne]
      exact h.dotdot k' (hback hne hk')
  · intro p' name c ft hentry hproper
    rw [beginDir_proper h hk hproper] at hentry
    obtain ⟨hvalid, hkind⟩ := h.entry p' name c ft hentry hproper
    refine ⟨hvalid, ?_⟩
    rw [hold (by rw [hkind]; exact Option.some_ne_none _), hkind]
  · intro p' name c hentry hproper
    rw [beginDir_proper h hk hproper] at hentry
    obtain ⟨hroot', hup⟩ := h.up p' name c hentry hproper
    refine ⟨hroot', ?_⟩
    have hne : c ≠ k := by
      rintro rfl
      rw [h.owner _ _ _ hup] at hk
      cases hk
    rw [beginDir_ne h hk hne]
    exact hup
  · intro p' name name' c ft hentry hentry' hproper hproper'
    rw [beginDir_proper h hk hproper] at hentry
    rw [beginDir_proper h hk hproper'] at hentry'
    exact h.once p' name name' c ft hentry hentry' hproper hproper'

end Tree

end LinuxFile
