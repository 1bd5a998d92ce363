import LinuxFile.Inner.Walk
import LinuxFile.Library.Respects

/-!
# Calls that only read

Reading the contents of files and directories, walking a path and climbing to the root change the state only through
three calls: reading a block through the cache, loading an inode, and fetching a record. What these three respect is
respected by all of it.
-/

namespace LinuxFile.Inner

/-- The calls behind every raw read respect `R`. -/
structure RawReads (R : Inner → Inner → Prop) : Prop where
  block : ∀ b, (onCache (BlockCache.get b)).Respects R
  inode : ∀ ino, (getInode ino).Respects R

/-- The calls behind every read respect `R`. -/
structure Reads (R : Inner → Inner → Prop) : Prop extends RawReads R where
  record : ∀ ino record, (cachedRecord ino record).Respects R

variable {R : Inner → Inner → Prop} [IsPreorder Inner R]

theorem accessOk_respects (inode : Inode) (creds : Creds) (acc : Access) :
    (accessOk inode creds acc).Respects R := by
  unfold accessOk
  refine .bind (.read _) fun checkPerm ↦ ?_
  exact .ite (.pure ()) (.ite (.pure ()) (.throw _))

theorem inlineSlice_respects (inode : Inode) (start n : ℕ) : (inlineSlice inode start n).Respects R :=
  .ite .abort (.pure _)

namespace RawReads

variable (h : RawReads R)

include h

theorem readBlocks (phys count : ℕ) : (readBlocks phys count).Respects R := by
  induction count generalizing phys with
  | zero => exact .pure _
  | succ count ih => exact .bind (h.block _) fun _ ↦ .bind (ih _) fun _ ↦ .pure _

theorem readCompressedExtent (ext : Extent) : (readCompressedExtent ext).Respects R := by
  unfold Inner.readCompressedExtent
  refine .bind (h.readBlocks _ _) fun raw ↦ .bind (.ofOption _ _) fun hdr ↦ ?_
  exact .ite (.throw _) (.ite (.throw _) (.bind (.read _) fun _ ↦ .ofExcept _))

theorem readChunks (inode : Inode) (chunks : List Chunk) : (readChunks inode chunks).Respects R := by
  induction chunks with
  | nil => exact .pure _
  | cons c rest ih =>
    unfold Inner.readChunks
    cases mapFileBlock inode c.index with
    | none => exact .bind (.pure _) fun _ ↦ .bind ih fun _ ↦ .pure _
    | some phys => exact .bind (h.block _) fun _ ↦ .bind (.pure _) fun _ ↦ .bind ih fun _ ↦ .pure _

theorem readDataRaw (ino offset count : ℕ) : (readDataRaw ino offset count).Respects R := by
  unfold Inner.readDataRaw
  refine .bind (h.inode ino) fun inode ↦ .ite (.pure _) (.ite ?_ (h.readChunks _ _))
  exact .ite (.pure _) (inlineSlice_respects _ _ _)

theorem loadRecord (ino record : ℕ) : (loadRecord ino record).Respects R := by
  have blocks : ∀ (s : Inner) (inode : Inode) (off : ℕ),
      (if off < inode.size then do
          let data ← Inner.readDataRaw ino off (min (inode.size - off) s.recordBytes)
          pure (resizeBytes data s.recordBytes)
        else pure (List.replicate s.recordBytes 0) : Fs Bytes).Respects R :=
    fun s inode off ↦ .ite (.bind (h.readDataRaw _ _ _) fun _ ↦ .pure _) (.pure _)
  unfold Inner.loadRecord
  refine .bind .get fun s ↦ .bind (h.inode ino) fun inode ↦ ?_
  dsimp only
  cases inode.extents.find? (fun e ↦ e.containsLogical (record * s.recordBlocks)) with
  | none => exact blocks _ _ _
  | some ext => exact .ite (.bind (h.readCompressedExtent _) fun _ ↦ .pure _) (blocks _ _ _)

end RawReads

namespace Reads

variable (h : Reads R)

include h

theorem readRecordChunks (ino : ℕ) (chunks : List Chunk) : (readRecordChunks ino chunks).Respects R := by
  induction chunks with
  | nil => exact .pure _
  | cons c rest ih => exact .bind (h.record _ _) fun _ ↦ .bind ih fun _ ↦ .pure _

theorem readData (ino offset count : ℕ) : (readData ino offset count).Respects R := by
  unfold Inner.readData
  refine .bind (h.inode ino) fun inode ↦ .ite (.pure _) (.ite (.pure _) (.ite ?_ (.ite ?_ ?_)))
  · exact inlineSlice_respects _ _ _
  · exact .bind (.read _) fun _ ↦ h.readRecordChunks _ _
  · exact h.toRawReads.readDataRaw _ _ _

theorem parseDir (ino : ℕ) : (parseDir ino).Respects R := by
  unfold Inner.parseDir
  refine .bind (h.inode ino) fun inode ↦ .ite (.throw _) ?_
  split_ifs
  · exact .bind (h.readData _ _ _) fun _ ↦ .ofExcept _
  · exact .bind (.pure _) fun _ ↦ .ofExcept _

theorem dirLookup (dir : ℕ) (name : Bytes) : (dirLookup dir name).Respects R :=
  .bind (h.parseDir dir) fun _ ↦ .pure _

theorem climbs (dir guard child : ℕ) : (climbs dir guard child).Respects R := by
  induction guard generalizing child with
  | zero => exact .pure _
  | succ guard ih =>
    unfold Inner.climbs
    refine .ite (.pure _) (.ite (.pure _) (.bind (h.dirLookup _ _) fun found ↦ ?_))
    cases found with
    | none => exact .pure _
    | some entry => exact ih _

theorem checkSticky (parent : ℕ) (name : Bytes) (dir : Inode) (creds : Creds) :
    (checkSticky parent name dir creds).Respects R := by
  unfold Inner.checkSticky
  refine .bind (.read _) fun checkPerm ↦ .ite (.bind (h.dirLookup _ _) fun found ↦ ?_) (.pure _)
  refine .bind (.ofOption _ _) fun entry ↦ .bind (h.inode _) fun child ↦ ?_
  exact .ite (.throw _) (.pure _)

theorem checkRemovable (rmdir : Bool) (ino : ℕ) (ft : FileType) : (checkRemovable rmdir ino ft).Respects R := by
  unfold Inner.checkRemovable
  refine .ite (.ite (.throw _) (.bind (h.parseDir ino) fun entries ↦ ?_)) ?_
  · exact .ite (.throw _) (.pure _)
  · exact .ite (.throw _) (.pure _)

theorem walkFrom {args : WalkArgs} {follow : ℕ → UnixPath → Fs Resolved} (hops : ℕ)
    (hfollow : ∀ dir path, (follow dir path).Respects R) (dir : ℕ) (comps : List Component) :
    (walkFrom args follow hops dir comps).Respects R := by
  induction comps generalizing dir with
  | nil => exact .pure _
  | cons c rest ih =>
    cases c with
    | rootDir => exact ih _
    | curDir => exact ih _
    | parentDir =>
      unfold Inner.walkFrom
      refine .bind (h.inode dir) fun inode ↦ .bind (accessOk_respects _ _ _) fun _ ↦ ?_
      dsimp only
      split_ifs
      · exact .bind (h.dirLookup _ _) fun _ ↦ .bind (.pure _) fun _ ↦ .pure _
      · exact .bind (h.dirLookup _ _) fun _ ↦ .bind (.pure _) fun _ ↦ ih _
      · exact .bind (.pure _) fun _ ↦ .pure _
      · exact .bind (.pure _) fun _ ↦ ih _
    | normal name =>
      unfold Inner.walkFrom
      refine .bind (h.inode dir) fun inode ↦ .ite (.throw _) (.bind (accessOk_respects _ _ _) fun _ ↦ ?_)
      refine .bind (h.dirLookup _ _) fun found ↦ ?_
      cases found with
      | none => exact .ite (.pure _) (.throw _)
      | some entry =>
        refine .bind (h.inode _) fun child ↦ .ite (.ite (.throw _) ?_) (.ite (.pure _) (ih _))
        exact .bind (h.readData _ _ _) fun target ↦ hfollow _ _

theorem walk (args : WalkArgs) (depth start : ℕ) (path : UnixPath) : (walk args depth start path).Respects R := by
  induction depth generalizing start path with
  | zero => exact .abort
  | succ depth ih =>
    unfold Inner.walk
    refine .ite (.throw _) (.ite (.pure _) ?_)
    exact h.walkFrom 0 (fun dir path ↦ ih dir path) _ _

end Reads

end LinuxFile.Inner
