import LinuxFile.Spec.Handles

/-!
# Moving a name

A rename first finds out what it has to do and changes nothing on the way; then the target loses its name,
the source's entry moves, and a directory that got another parent has its `..` rewritten.
-/

namespace LinuxFile

namespace Inner

/-- What a rename has to do. -/
inductive Renaming where
  | nothing
  | move (src : ℕ × FileType) (replaced : Option (ℕ × FileType))

/-- The target of a rename, with the checks that are made before it is removed. -/
def replaceFind (newParent : ℕ) (newName : Bytes) (src : ℕ × FileType) (creds : Creds) : Fs Renaming := do
  let found ← dirLookup newParent newName
  match found with
  | none => pure (.move src none)
  | some (destIno, destFt) =>
    if src.1 = destIno then pure .nothing
    else if src.2.isDir ≠ destFt.isDir then
      if src.2.isDir then Exec.throw (Error.enotdir "target is not a directory")
      else Exec.throw (Error.eisdir "target is a directory")
    else do
      Exec.when (destFt.isDir = true) (do
        let entries ← parseDir destIno
        if hasExtra entries then Exec.throw Error.enotempty else pure ())
      let entry ← unlinkFind newParent newName destFt.isDir creds
      pure (.move src (some entry))

/-- What `rename` does before it changes anything. -/
def renameFind (oldParent : ℕ) (oldName : Bytes) (newParent : ℕ) (newName : Bytes) (creds : Creds) :
    Fs Renaming := do
  requireWrite
  Exec.ofExcept (validateName oldName)
  Exec.ofExcept (validateName newName)
  let od ← getInode oldParent
  let nd ← getInode newParent
  accessOk od creds .write
  accessOk nd creds .write
  let found ← dirLookup oldParent oldName
  let src ← Exec.ofOption (Error.enoent "no such file or directory") found
  if oldParent = newParent ∧ oldName = newName then pure .nothing
  else do
    let inside ← if src.2.isDir then isAncestor src.1 newParent else pure false
    if inside then Exec.throw (Error.einval "rename into descendant")
    else replaceFind newParent newName src creds

/-- Take away the name of what is replaced. -/
def removeTarget (newParent : ℕ) (newName : Bytes) : Option (ℕ × FileType) → Fs Unit
  | none => pure ()
  | some entry => unlinkEntry newParent newName entry

/-- Move the entry of the source. -/
def moveEntry (oldParent : ℕ) (oldName : Bytes) (newParent : ℕ) (newName : Bytes) (src : ℕ × FileType) :
    Fs Unit := do
  let _ ← dirRemove oldParent oldName
  dirInsert newParent newName src.1 src.2
  Exec.when (src.2.isDir = true ∧ oldParent ≠ newParent) (moveDotdot src.1 oldParent newParent)

/-- What `rename` does afterwards. -/
def renameMove (oldParent : ℕ) (oldName : Bytes) (newParent : ℕ) (newName : Bytes) : Renaming → Fs Unit
  | .nothing => pure ()
  | .move src replaced => do
    removeTarget newParent newName replaced
    moveEntry oldParent oldName newParent newName src

theorem replaceTarget_eq (oldParent : ℕ) (oldName : Bytes) (newParent : ℕ) (newName : Bytes)
    (src : ℕ × FileType) (creds : Creds) :
    (do
      let proceed ← replaceTarget newParent newName src creds
      Exec.when (proceed = true) (moveEntry oldParent oldName newParent newName src)) =
      replaceFind newParent newName src creds >>= renameMove oldParent oldName newParent newName := by
  unfold replaceTarget replaceFind
  rw [bind_assoc, bind_assoc]
  congr 1
  funext found
  cases found with
  | none => rfl
  | some dest =>
    obtain ⟨destIno, destFt⟩ := dest
    dsimp only
    by_cases hsame : src.1 = destIno
    · rw [if_pos hsame, if_pos hsame]
      rfl
    rw [if_neg hsame, if_neg hsame]
    by_cases hkind : src.2.isDir ≠ destFt.isDir
    · rw [if_pos hkind, if_pos hkind]
      split_ifs
      · rfl
      · rfl
    rw [if_neg hkind, if_neg hkind, unlinkName_eq]
    simp only [bind_assoc, pure_bind]
    rfl

theorem rename_eq (oldParent : ℕ) (oldName : Bytes) (newParent : ℕ) (newName : Bytes) (creds : Creds) :
    rename oldParent oldName newParent newName creds =
      renameFind oldParent oldName newParent newName creds >>=
        renameMove oldParent oldName newParent newName := by
  have htail : ∀ src : ℕ × FileType, (do
      let inside ← if src.2.isDir then isAncestor src.1 newParent else pure false
      if inside then Exec.throw (Error.einval "rename into descendant")
      else do
        let proceed ← replaceTarget newParent newName src creds
        Exec.when (proceed = true) (moveEntry oldParent oldName newParent newName src) : Fs Unit) =
      (do
        let inside ← if src.2.isDir then isAncestor src.1 newParent else pure false
        if inside then Exec.throw (Error.einval "rename into descendant")
        else replaceFind newParent newName src creds) >>=
          renameMove oldParent oldName newParent newName := by
    intro src
    dsimp only
    by_cases hdir : src.2.isDir = true
    · rw [if_pos hdir, if_pos hdir, bind_assoc]
      congr 1
      funext inside
      cases inside with
      | true => rfl
      | false => exact replaceTarget_eq oldParent oldName newParent newName src creds
    · rw [if_neg hdir, if_neg hdir]
      exact replaceTarget_eq oldParent oldName newParent newName src creds
  unfold rename renameFind
  simp only [bind_assoc]
  congr 1
  funext _
  congr 1
  funext _
  congr 1
  funext _
  congr 1
  funext od
  congr 1
  funext nd
  congr 1
  funext _
  congr 1
  funext _
  congr 1
  funext found
  congr 1
  funext src
  by_cases hsame : oldParent = newParent ∧ oldName = newName
  · rw [if_pos hsame, if_pos hsame]
    rfl
  · rw [if_neg hsame, if_neg hsame]
    exact htail src

theorem replaceFind_calm (newParent : ℕ) (newName : Bytes) (src : ℕ × FileType) (creds : Creds) :
    (replaceFind newParent newName src creds).Respects Calm := by
  unfold replaceFind
  refine .bind (dirLookup_calm _ _) fun found ↦ ?_
  cases found with
  | none => exact .pure _
  | some dest =>
    refine .ite (.pure _) (.ite (.ite (.throw _) (.throw _)) (.bind (.when fun _ ↦ ?_) fun _ ↦ ?_))
    · exact .bind (parseDir_calm _) fun _ ↦ .ite (.throw _) (.pure _)
    · exact .bind (unlinkFind_calm _ _ _ _) fun _ ↦ .pure _

theorem renameFind_calm (oldParent : ℕ) (oldName : Bytes) (newParent : ℕ) (newName : Bytes)
    (creds : Creds) : (renameFind oldParent oldName newParent newName creds).Respects Calm := by
  unfold renameFind
  refine .bind requireWrite_calm fun _ ↦ .bind (.ofExcept _) fun _ ↦ .bind (.ofExcept _) fun _ ↦ ?_
  refine .bind (getInode_calm _) fun od ↦ .bind (getInode_calm _) fun nd ↦ ?_
  refine .bind (accessOk_respects _ _ _) fun _ ↦ .bind (accessOk_respects _ _ _) fun _ ↦ ?_
  refine .bind (dirLookup_calm _ _) fun found ↦ .bind (.ofOption _ _) fun src ↦ .ite (.pure _) ?_
  have hrest : ∀ inside : Bool, (if inside then Exec.throw (Error.einval "rename into descendant")
      else replaceFind newParent newName src creds : Fs Renaming).Respects Calm :=
    fun _ ↦ .ite (.throw _) (replaceFind_calm _ _ _ _)
  exact .ite (.bind (climbs_calm _ _ _) hrest) (.bind (.pure _) hrest)

/-- Moving the entry changes the links of the two parents. -/
theorem moveEntry_lull (oldParent : ℕ) (oldName : Bytes) (newParent : ℕ) (newName : Bytes)
    (src : ℕ × FileType) : (moveEntry oldParent oldName newParent newName src).Respects
      (Lull (fun k ↦ k = oldParent ∨ k = newParent) nothing) := by
  unfold moveEntry
  refine .bind (lull_of_calm (dirRemove_calm _ _)) fun _ ↦ .bind (lull_of_calm (dirInsert_calm _ _ _ _)) fun _ ↦ ?_
  refine .when fun _ ↦ ?_
  unfold moveDotdot
  refine .bind (lull_of_calm (parseDir_calm _)) fun entries ↦ ?_
  have hrewrite := lull_of_calm (P := fun k ↦ k = oldParent ∨ k = newParent) (G := nothing)
    (rewriteDir_calm src.1 (entries.map fun e ↦ if e.name = dotdotName then { e with ino := newParent } else e))
  have hlinks : ∀ u : Unit, (do
      dropLink oldParent (fun _ i ↦ i)
      addLink newParent (fun _ i ↦ i) : Fs Unit).Respects
      (Lull (fun k ↦ k = oldParent ∨ k = newParent) nothing) := fun _ ↦
    .bind (dropLink_lull (Or.inl rfl) fun _ _ ↦ rfl) fun _ ↦ addLink_lull (Or.inr rfl) _ fun _ _ ↦ rfl
  have hboth := hrewrite.bind hlinks
  rwa [bind_assoc] at hboth

end Inner

end LinuxFile
