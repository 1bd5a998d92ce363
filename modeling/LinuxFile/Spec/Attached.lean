import LinuxFile.Library.Forest
import LinuxFile.Spec.TreeRuns

/-!
# Directories attached to the root

The directories of a tree form a forest under the entries that name them. A call keeps every directory attached
that was attached, except the one it removes, as long as directories are moved to attached parents that lie within
the levels `is_ancestor` climbs.
-/

namespace LinuxFile

open Relation

namespace Tree

variable {t u : Tree} {k p p' c root : ℕ} {name name' : Bytes} {v : ℕ × FileType} {n m : ℕ}

def Child (t : Tree) (p c : ℕ) : Prop := ∃ name, Proper name ∧ t.look p name = some (c, .directory)

/-- The entries of directories lead from the root to `k`. -/
def Attached (t : Tree) (k : ℕ) : Prop := ReflTransGen t.Child rootIno k

theorem Shape.forest (h : t.Shape) : Forest.Rooted t.Child rootIno where
  unique := by
    rintro a b c ⟨name, hproper, hlook⟩ ⟨name', hproper', hlook'⟩
    have hup := (h.up a name c hlook hproper).2
    rw [(h.up b name' c hlook' hproper').2] at hup
    exact (congrArg Prod.fst (Option.some.inj hup)).symm
  top := by
    rintro a ⟨name, hproper, hlook⟩
    exact (h.up a name rootIno hlook hproper).1 rfl

theorem Shape.up_child (h : t.Shape) (hchild : t.Child p c) : t.up c = p := by
  obtain ⟨name, hproper, hlook⟩ := hchild
  unfold Tree.up
  rw [(h.up p name c hlook hproper).2]
  rfl

theorem Shape.up_root (h : t.Shape) (n : ℕ) : t.up^[n] rootIno = rootIno := by
  apply Function.iterate_fixed
  unfold Tree.up
  rw [h.top]
  rfl

/-- Following `..` from below leads back. -/
theorem Shape.climb (h : t.Shape) (hbelow : Forest.Generations t.Child p n k) : t.up^[n] k = p := by
  induction hbelow with
  | zero => rfl
  | succ _ hchild ih =>
    rw [Function.iterate_succ_apply, h.up_child hchild]
    exact ih

theorem Shape.kind_of_attached (h : t.Shape) (hk : t.Attached k) : t.kind k = some .directory := by
  rcases hk.cases_tail with heq | ⟨p, -, name, hproper, hlook⟩
  · rw [heq]
    exact h.root
  · exact (h.entry p name k _ hlook hproper).2

/-- A directory that `is_ancestor` does not meet is not above a parent that the root is close to. -/
theorem Apart.not_below (h : t.Shape) (hapart : t.Apart c p) (hn : n ≤ 4096)
    (hp : Forest.Generations t.Child rootIno n p) : ¬ReflTransGen t.Child c p := by
  intro hbelow
  obtain ⟨m, hm⟩ := Forest.exists_generations hbelow
  have hc : t.up^[m] p = c := h.climb hm
  by_cases hle : m ≤ n
  · exact hapart m (hle.trans hn) hc
  · obtain ⟨d, rfl⟩ := Nat.exists_eq_add_of_le (Nat.le_of_not_le hle)
    have hroot : t.up^[n + d] p = rootIno := by
      rw [Nat.add_comm, Function.iterate_add_apply, h.climb hp]
      exact h.up_root d
    rw [hroot] at hc
    rw [← hc] at hapart
    exact hapart n hn (h.climb hp)

/-! ## One step -/

theorem Attached.mono (hk : t.Attached k) (h : ∀ {p c}, t.Child p c → u.Child p c) : u.Attached k :=
  ReflTransGen.mono (fun _ _ hchild ↦ h hchild) _ _ hk

theorem Child.congr (hlook : u.look = t.look) (h : t.Child p c) : u.Child p c := by
  obtain ⟨name, hproper, hname⟩ := h
  refine ⟨name, hproper, ?_⟩
  rw [hlook]
  exact hname

/-- A name that was free is given to something. -/
theorem Child.say (h : t.Child p c) (hfree : t.look p' name' = none) (v : Option (ℕ × FileType)) :
    (t.say p' name' v).Child p c := by
  obtain ⟨name, hproper, hlook⟩ := h
  refine ⟨name, hproper, ?_⟩
  rw [say_ne, hlook]
  rintro ⟨rfl, rfl⟩
  rw [hfree] at hlook
  cases hlook

/-- An entry is taken away that does not name the directory. -/
theorem Child.erase (h : t.Child p c) (hlook : t.look p' name' = some v) (hne : v.2 = .directory → c ≠ v.1) :
    (t.say p' name' none).Child p c := by
  obtain ⟨name, hproper, hname⟩ := h
  refine ⟨name, hproper, ?_⟩
  rw [say_ne, hname]
  rintro ⟨rfl, rfl⟩
  rw [hlook] at hname
  cases hname
  exact hne rfl rfl

theorem Child.dots (h : t.Child p c) (hdots : ¬Proper name') (p' : ℕ) (v : Option (ℕ × FileType)) :
    (t.say p' name' v).Child p c := by
  obtain ⟨name, hproper, hname⟩ := h
  refine ⟨name, hproper, ?_⟩
  rw [say_ne, hname]
  rintro ⟨-, rfl⟩
  exact hdots hproper

theorem Child.make (h : t.Child p c) (ht : t.Shape) (hproper : Proper name') (hfree : t.look p' name' = none)
    (hnew : t.kind k = none) (ft : FileType) : (t.make p' name' k ft).Child p c := by
  unfold Tree.make
  split_ifs
  · apply Child.congr (t := (t.beginDir k p').say p' name' (some (k, .directory))) rfl
    apply Child.say
    · unfold Tree.beginDir
      apply Child.dots _ not_proper_dotdot
      apply Child.dots _ not_proper_dot
      exact h.congr (ht.begin_look hnew _)
    · rw [beginDir_proper ht hnew hproper]
      exact hfree
  · apply Child.say
    · exact h.congr (ht.begin_look hnew _)
    · rw [ht.begin_look hnew]
      exact hfree

/-- What is taken away from its parent and is not a directory, or an empty one, leads nowhere. -/
theorem Takable.ne_above (h : t.Takable p name v) (hdir : v.2 = .directory) (hk : k ≠ v.1) :
    ¬ReflTransGen t.Child v.1 k := by
  intro hbelow
  rcases hbelow.cases_head with heq | ⟨c, ⟨name', hproper', hlook⟩, -⟩
  · exact hk heq.symm
  · rw [h.empty hdir name' hproper'] at hlook
    cases hlook

theorem Attached.erased (hk : t.Attached k) (htake : t.Takable p name v)
    (hne : v.2 = .directory → k ≠ v.1) (hlook : u.look = (t.say p name none).look) : u.Attached k := by
  have hkeep : ∀ {q c}, (v.2 = .directory → c ≠ v.1) → t.Child q c → u.Child q c := by
    intro q c hc hchild
    exact (hchild.erase htake.found hc).congr hlook
  by_cases hdir : v.2 = .directory
  · exact Forest.reaches_around (fun hc hchild ↦ hkeep (fun _ ↦ hc) hchild) hk (htake.ne_above hdir (hne hdir))
  · exact hk.mono fun hchild ↦ hkeep (fun hd ↦ absurd hd hdir) hchild

/-! ## Moves -/

theorem child_of_erased (hlook : u.look = (t.say p name none).look) (h : u.Child k c) : t.Child k c := by
  obtain ⟨name', hproper, hname⟩ := h
  refine ⟨name', hproper, ?_⟩
  rw [hlook] at hname
  exact look_of_say_none hname

theorem Child.of_said (h : ((t.say p name none).say p' name' (some v)).Child k c) :
    (t.move p name p' name' v).Child k c := by
  unfold Tree.move
  dsimp only
  split_ifs
  · exact (h.dots not_proper_dotdot v.1 (some (p', .directory))).congr rfl
  · exact h

theorem Child.move (h : t.Child k c) (hlook : t.look p name = some v) (hfree : t.look p' name' = none)
    (hne : v.2 = .directory → c ≠ v.1) : (t.move p name p' name' v).Child k c := by
  apply Child.of_said
  apply (h.erase hlook hne).say
  change (if p' = p ∧ name' = name then none else t.look p' name') = none
  split_ifs
  · rfl
  · exact hfree

theorem child_moved (hproper : Proper name') (hdir : v.2 = .directory) : (t.move p name p' name' v).Child p' v.1 := by
  apply Child.of_said
  refine ⟨name', hproper, ?_⟩
  rw [say_self, ← hdir]

/-- A directory is moved below an attached one that is not below it. -/
theorem Attached.moved (hk : t.Attached k) (hlook : t.look p name = some v) (hfree : t.look p' name' = none)
    (hproper : Proper name') (hparent : v.2 = .directory → t.Attached p' ∧ ¬ReflTransGen t.Child v.1 p') :
    (t.move p name p' name' v).Attached k := by
  by_cases hdir : v.2 = .directory
  · obtain ⟨hattached, hbelow⟩ := hparent hdir
    exact Forest.reaches_moved (fun hc hchild ↦ hchild.move hlook hfree fun _ ↦ hc) (child_moved hproper hdir)
      hattached hbelow hk
  · exact hk.mono fun hchild ↦ hchild.move hlook hfree fun hd ↦ absurd hd hdir

end Tree

/-! ## Calls -/

/-- A directory is moved only to an attached parent within the levels that `is_ancestor` climbs. -/
def Operation.Near (t : Tree) : Operation → Prop
  | rename oldParent oldName newParent _ _ => ∀ c, t.look oldParent oldName = some (c, .directory) →
      ∃ n ≤ 4096, Forest.Generations t.Child rootIno n newParent
  | _ => True

/-- The call may take away the entry that names the directory `k`. -/
def Operation.Removes (t : Tree) (k : ℕ) : Operation → Prop
  | unlinkName parent name _ _ => t.look parent name = some (k, .directory)
  | rename oldParent oldName newParent newName _ =>
    t.look newParent newName = some (k, .directory) ∧ t.look oldParent oldName ≠ some (k, .directory)
  | _ => False

namespace Tree

variable {t u : Tree} {k : ℕ}

theorem Does.attached {op : Operation} (h : Does op t u) (ht : t.Consistent) (hnear : op.Near t)
    (hdrop : ∀ ino, op = .dropInode ino → t.nlink ino = 0) (hk : t.Attached k) (hkeep : ¬op.Removes t k) :
    u.Attached k := by
  cases h with
  | keeps => exact hk
  | creates hvacant hnew =>
    exact hk.mono fun hchild ↦ hchild.make ht.toShape (proper_of_valid hvacant.valid) hvacant.free hnew _
  | links hvacant => exact hk.mono fun hchild ↦ (hchild.say hvacant.free _).congr rfl
  | @unlinks parent name rmdir creds v _ _ htake hkind hrel =>
    refine hk.erased htake (fun hdir heq ↦ hkeep ?_) ((hrel.look (htake.unlink ht)).trans (unlink_look _ _ _ _))
    change t.look parent name = some (k, .directory)
    rw [htake.found, heq, ← hdir]
  | renamesSame => exact hk
  | @renames oldParent newParent oldName newName creds v _ hold hproper hvacant hapart =>
    refine hk.moved hold hvacant.free (proper_of_valid hvacant.valid) fun hdir ↦ ?_
    obtain ⟨n, hn, hdeep⟩ := hnear v.1 (by rw [hold, ← hdir])
    exact ⟨hdeep.reaches, (hapart hdir).not_below ht.toShape hn hdeep⟩
  | @replaces oldParent newParent oldName newName creds v w _ r hold hproper htake hother hkind hapart hrel =>
    have hlook : r.look = (t.say newParent newName none).look :=
      (hrel.look (htake.unlink ht)).trans (unlink_look _ _ _ _)
    have hvacant := htake.vacant ht hrel
    have hne : ¬(oldParent = newParent ∧ oldName = newName) := by
      rintro ⟨rfl, rfl⟩
      rw [htake.found] at hold
      exact hother (congrArg Prod.fst (Option.some.inj hold)).symm
    have hold' : r.look oldParent oldName = some v := by
      rw [htake.look_ne ht hrel hne]
      exact hold
    have hkr : r.Attached k := by
      refine hk.erased htake (fun hdir heq ↦ hkeep ⟨?_, fun hsame ↦ hother ?_⟩) hlook
      · rw [htake.found, heq, ← hdir]
      · rw [hold] at hsame
        rw [← heq]
        exact congrArg Prod.fst (Option.some.inj hsame)
    refine hkr.moved hold' hvacant.free (proper_of_valid hvacant.valid) fun hdir ↦ ?_
    obtain ⟨n, hn, hdeep⟩ := hnear v.1 (by rw [hold, ← hdir])
    constructor
    · refine Attached.erased hdeep.reaches htake (fun hwdir heq ↦ ?_) hlook
      have hempty := htake.empty hwdir newName htake.proper
      rw [← heq, htake.found] at hempty
      cases hempty
    · intro hbelow
      exact (hapart hdir).not_below ht.toShape hn hdeep
        (ReflTransGen.mono (fun _ _ hchild ↦ child_of_erased hlook hchild) _ _ hbelow)
  | closes hrel => exact hk.mono fun hchild ↦ hchild.congr (hrel.look ht)
  | @drops ino _ hkind =>
    have hrel : Released ino t (t.forget ino) := .goes hkind (hdrop ino rfl)
    exact hk.mono fun hchild ↦ hchild.congr (hrel.look ht)

end Tree

end LinuxFile
