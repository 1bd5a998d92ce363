import LinuxFile.Spec.Making
import LinuxFile.Spec.TreeView

/-!
# The operations on names over a namespace

What `create_child`, `link_into`, `unlink_name` and `rename` do to the nodes is what the operations of a namespace
do, as long as no directory has 2^32 entries.
-/

namespace LinuxFile

namespace Nodes

variable {f g : Nodes} {k p c parent ino : ℕ} {entries : List DirEntry} {name : Bytes}

theorem isDir_iff {ft : FileType} : ft.isDir = true ↔ ft = .directory := beq_iff_eq

/-- The directory can take another entry: the count of its entries has 32 bits. -/
def Roomy (f : Nodes) (parent : ℕ) : Prop := ∀ entries, f.dir parent = some entries → entries.length + 1 < 2 ^ 32

/-- The names of a consistent namespace have legal lengths. -/
theorem name_length_le (h : f.tree.Consistent) (hdir : f.dir k = some entries)
    (hdistinct : (entries.map DirEntry.name).Nodup) {e : DirEntry} (he : e ∈ entries) :
    e.name.length ≤ nameMax := by
  by_cases hproper : Proper e.name
  · have hlook : f.tree.look k e.name = some (e.ino, e.fileType) := lookup_of_mem hdir hdistinct he
    exact Inner.validateName_length (h.entry k e.name _ _ hlook hproper).1
  · unfold Proper at hproper
    rw [not_and_or, not_not, not_not] at hproper
    rcases hproper with hdot | hdot
    · rw [hdot]
      decide
    · rw [hdot]
      decide

theorem Roomy.fits (hroom : f.Roomy parent) (h : f.tree.Consistent)
    (hdistinct : ∀ entries, f.dir parent = some entries → (entries.map DirEntry.name).Nodup)
    (hvalid : validateName name = .ok ()) : f.Fits parent name := by
  intro entries hdir ino ft
  apply encodeDir_length_le
  · intro e he
    rcases List.mem_append.mp he with he | he
    · exact name_length_le h hdir (hdistinct entries hdir) he
    · rw [List.mem_singleton.mp he]
      exact Inner.validateName_length hvalid
  · rw [List.length_append]
    exact (hroom entries hdir).le

theorem ne_none_of_dir (h : f.dir k = some entries) : f k ≠ none := by
  intro hnone
  rw [dir_of_none hnone] at h
  cases h

theorem list_ne_none (h : f c ≠ none) (k : ℕ) (entries : List DirEntry) : f.list k entries c ≠ none :=
  edit_ne_none h k _

theorem links_ne_none (h : f c ≠ none) (k : ℕ) (g : ℕ → ℕ) : f.links k g c ≠ none := edit_ne_none h k _

/-! ## A new inode -/

theorem tree_born (hnew : f ino = none) (hparent : f parent ≠ none) (hino : ino < 2 ^ 64) (hsmall : parent < 2 ^ 64)
    (mode : UInt16) (uid gid : UInt32) :
    (f.born parent ino (Inner.newNode mode uid gid)).tree =
      if FileType.fromMode mode = .directory then
        ((f.tree.beginDir ino parent).relink ino (fun _ ↦ 2)).relink parent (· + 1)
      else f.tree.begin ino (FileType.fromMode mode) := by
  have hne : parent ≠ ino := fun heq ↦ hparent (heq ▸ hnew)
  have hbegin : tree (Function.update f ino (some (Inner.newNode mode uid gid))) =
      f.tree.begin ino (FileType.fromMode mode) := tree_begin f ino rfl rfl
  unfold born
  dsimp only
  rw [Inner.newNode_isDir]
  by_cases hdir : FileType.fromMode mode = .directory
  · rw [if_pos (isDir_iff.mpr hdir), if_pos hdir]
    set n₂ : Node := { Inner.newNode mode uid gid with nlink := 2 } with hn₂
    have hlinked : edit (Function.update f ino (some (Inner.newNode mode uid gid))) ino
        (fun n ↦ { n with nlink := if n.isDir then 2 else n.nlink }) =
        links (Function.update f ino (some (Inner.newNode mode uid gid))) ino (fun _ ↦ 2) := by
      have hisDir : (Inner.newNode mode uid gid).isDir = true := isDir_iff.mpr hdir
      unfold links
      rw [edit_of_some (n := Inner.newNode mode uid gid) (Function.update_self ..),
        edit_of_some (n := Inner.newNode mode uid gid) (Function.update_self ..), hisDir]
      rfl
    rw [hlinked]
    set g := links (Function.update f ino (some (Inner.newNode mode uid gid))) ino (fun _ ↦ 2) with hg
    have hgdir : g.dir ino = some [] := by
      rw [hg, dir_links]
      unfold dir
      rw [Function.update_self, Option.bind_some, Node.entries_of_dir (isDir_iff.mpr hdir)]
      rfl
    have hgtree : g.tree = (f.tree.begin ino .directory).relink ino (fun _ ↦ 2) := by
      rw [hg, tree_links (by rw [Function.update_self]; exact Option.some_ne_none _), hbegin, hdir]
    have hlive : g.list ino [⟨ino, .directory, dotName⟩, ⟨parent, .directory, dotdotName⟩] parent ≠ none := by
      apply edit_ne_none
      rw [hg]
      apply edit_ne_none
      rw [Function.update_of_ne hne]
      exact hparent
    have hlisted : (g.list ino [⟨ino, .directory, dotName⟩, ⟨parent, .directory, dotdotName⟩]).tree =
        (g.tree.say ino dotName (some (ino, .directory))).say ino dotdotName (some (parent, .directory)) := by
      have hfits : ∀ e ∈ ([⟨ino, .directory, dotName⟩, ⟨parent, .directory, dotdotName⟩] : List DirEntry), e.Fits := by
        intro e he
        rcases List.mem_pair.mp he with rfl | rfl
        · exact ⟨hino, show dotName.length < 2 ^ 16 by decide⟩
        · exact ⟨hsmall, show dotdotName.length < 2 ^ 16 by decide⟩
      have hmid : (g.list ino [⟨ino, .directory, dotName⟩]).tree =
          g.tree.say ino dotName (some (ino, .directory)) := by
        refine tree_list hgdir (fun e he ↦ hfits e ?_) (by simp) ?_ fun name' hne' ↦ ?_
        · rw [List.mem_singleton.mp he]
          exact List.mem_cons_self
        · rw [entryNamed_cons, if_pos rfl]
        · rw [entryNamed_cons, if_neg hne'.symm]
      rw [← hmid]
      have hmidDir : (g.list ino [⟨ino, .directory, dotName⟩]).dir ino = some [⟨ino, .directory, dotName⟩] := by
        refine dir_list hgdir (fun e he ↦ hfits e ?_) (by simp)
        rw [List.mem_singleton.mp he]
        exact List.mem_cons_self
      have htwice : g.list ino [⟨ino, .directory, dotName⟩, ⟨parent, .directory, dotdotName⟩] =
          (g.list ino [⟨ino, .directory, dotName⟩]).list ino
            [⟨ino, .directory, dotName⟩, ⟨parent, .directory, dotdotName⟩] := by
        unfold list edit
        rw [Function.update_self, Function.update_idem, Option.map_map]
        rfl
      rw [htwice]
      refine tree_list hmidDir hfits (by simp) ?_ fun name' hne' ↦ ?_
      · rw [entryNamed_cons, if_neg (show dotName ≠ dotdotName by decide), entryNamed_cons, if_pos rfl]
      · rw [entryNamed_cons, entryNamed_cons, entryNamed_cons]
        by_cases hdot : dotName = name'
        · rw [if_pos hdot, if_pos hdot]
        · rw [if_neg hdot, if_neg hdot, if_neg hne'.symm]
    rw [tree_links hlive, hlisted, hgtree]
    rfl
  · rw [if_neg (fun h ↦ hdir (isDir_iff.mp h)), if_neg hdir]
    have hisDir : (Inner.newNode mode uid gid).isDir = false := Bool.eq_false_iff.mpr fun h ↦ hdir (isDir_iff.mp h)
    have hsame : edit (Function.update f ino (some (Inner.newNode mode uid gid))) ino
        (fun n ↦ { n with nlink := if n.isDir then 2 else n.nlink }) =
        Function.update f ino (some (Inner.newNode mode uid gid)) := by
      rw [edit_of_some (n := Inner.newNode mode uid gid) (Function.update_self ..), hisDir, Function.update_idem]
      rfl
    rw [hsame, hbegin]

theorem tree_made (hnew : f ino = none) (hdir : f.dir parent = some entries) (hfree : entryNamed entries name = none)
    (hroom : f.Roomy parent) (hino : ino < 2 ^ 64) (hsmall : parent < 2 ^ 64) (hname : name.length < 2 ^ 16)
    (mode : UInt16) (uid gid : UInt32) :
    ((f.born parent ino (Inner.newNode mode uid gid)).list parent
      (entries ++ [⟨ino, FileType.fromMode mode, name⟩])).tree =
      f.tree.make parent name ino (FileType.fromMode mode) := by
  rw [tree_list_append (dir_born hnew hdir _) hfree (hroom entries hdir) ⟨hino, hname⟩,
    tree_born hnew (ne_none_of_dir hdir) hino hsmall]
  unfold Tree.make
  by_cases hft : FileType.fromMode mode = .directory
  · rw [if_pos hft, if_pos hft, hft]
  · rw [if_neg hft, if_neg hft]

/-! ## Names that go and names that move -/

theorem tree_linked {n : Node} {target : ℕ} (htarget : f target = some n) (hdir : f.dir parent = some entries)
    (hfree : entryNamed entries name = none) (hroom : f.Roomy parent) (hsmall : target < 2 ^ 64)
    (hname : name.length < 2 ^ 16) :
    ((f.list parent (entries ++ [⟨target, FileType.fromMode n.mode, name⟩])).links target (· + 1)).tree =
      f.tree.link parent name (target, FileType.fromMode n.mode) := by
  have hlive : f target ≠ none := by
    rw [htarget]
    exact Option.some_ne_none n
  rw [tree_links (list_ne_none hlive _ _), tree_list_append hdir hfree (hroom entries hdir) ⟨hsmall, hname⟩]
  rfl

theorem tree_unnamed {entry : ℕ × FileType} (hdir : f.dir parent = some entries)
    (hdistinct : (entries.map DirEntry.name).Nodup) (hlive : f entry.1 ≠ none) :
    (f.unnamed parent entries name entry).tree = f.tree.unlink parent name entry := by
  have hparent := ne_none_of_dir hdir
  unfold unnamed Tree.unlink
  dsimp only
  by_cases hft : entry.2 = .directory
  · rw [if_pos (isDir_iff.mpr hft), if_pos hft, tree_links (links_ne_none (list_ne_none hlive _ _) _ _),
      tree_links (list_ne_none hparent _ _), tree_list_erase hdir hdistinct]
  · rw [if_neg (fun h ↦ hft (isDir_iff.mp h)), if_neg hft, tree_links (list_ne_none hlive _ _),
      tree_list_erase hdir hdistinct]

/-- The entry of a directory that is rewritten and lengthened keeps its place. -/
theorem tree_moved {oldParent newParent : ℕ} {oldName newName : Bytes} {src : ℕ × FileType}
    {target : List DirEntry} (hdir : f.dir oldParent = some entries) (hdistinct : (entries.map DirEntry.name).Nodup)
    (htarget : (f.list oldParent (entries.eraseP (fun e ↦ e.name == oldName))).dir newParent = some target)
    (hfree : entryNamed target newName = none) (hcount : target.length + 1 < 2 ^ 32) (hsrc : src.1 < 2 ^ 64)
    (hname : newName.length < 2 ^ 16) :
    (f.moved oldParent entries oldName newParent target newName src).tree =
      (f.tree.say oldParent oldName none).say newParent newName (some src) := by
  unfold moved
  rw [tree_list_append htarget hfree hcount ⟨hsrc, hname⟩, tree_list_erase hdir hdistinct]

theorem tree_adopted {src oldParent newParent : ℕ} {own : List DirEntry} (hown : f.dir src = some own)
    {v : ℕ × FileType} (hup : entryNamed own dotdotName = some v) (hnew : newParent < 2 ^ 64)
    (hold : f oldParent ≠ none) (hlive : f newParent ≠ none) :
    (f.adopted src oldParent newParent own).tree =
      ((f.tree.say src dotdotName (some (newParent, v.2))).relink oldParent (· - 1)).relink newParent (· + 1) := by
  unfold adopted
  rw [tree_links (links_ne_none (list_ne_none hlive _ _) _ _), tree_links (list_ne_none hold _ _),
    tree_list_repointed hown hup hnew]

end Nodes

end LinuxFile
