import LinuxFile.Spec.Effects
import LinuxFile.Spec.TreeLinks
import LinuxFile.Library.Forest

/-!
# Nodes as a namespace

The namespace that nodes stand for, and what each change of the nodes is as a change of the namespace.
-/

namespace LinuxFile

namespace Nodes

variable {f : Nodes} {k c : ℕ} {entries : List DirEntry} {name : Bytes} {n : Node}

def tree (f : Nodes) : Tree where
  look := f.lookup
  kind k := (f k).map fun n ↦ FileType.fromMode n.mode
  nlink k := ((f k).map Node.nlink).getD 0

theorem tree_kind (h : f k = some n) : f.tree.kind k = some (FileType.fromMode n.mode) := by
  change (f k).map _ = _
  rw [h, Option.map_some]

theorem tree_kind_none : f.tree.kind k = none ↔ f k = none := Option.map_eq_none_iff

theorem tree_nlink (h : f k = some n) : f.tree.nlink k = n.nlink := by
  change ((f k).map Node.nlink).getD 0 = _
  rw [h, Option.map_some, Option.getD_some]

theorem tree_dir : f.tree.kind k = some .directory ↔ ∃ n, f k = some n ∧ n.isDir = true := by
  change (f k).map _ = _ ↔ _
  rw [Option.map_eq_some_iff]
  constructor
  · rintro ⟨n, hn, hft⟩
    refine ⟨n, hn, ?_⟩
    unfold Node.isDir FileType.isDir
    rw [hft]
    rfl
  · rintro ⟨n, hn, hdir⟩
    exact ⟨n, hn, beq_iff_eq.mp hdir⟩

theorem entryNamed_cons (e : DirEntry) (entries : List DirEntry) (name : Bytes) :
    entryNamed (e :: entries) name =
      if e.name = name then some (e.ino, e.fileType) else entryNamed entries name := by
  unfold entryNamed
  rw [List.find?_cons]
  by_cases h : e.name = name
  · rw [beq_iff_eq.mpr h, if_pos h]
    rfl
  · rw [beq_eq_false_iff_ne.mpr h, if_neg h]

/-- An entry is found under its name where no name stands twice. -/
theorem lookup_of_mem (hdir : f.dir k = some entries) (hdistinct : (entries.map DirEntry.name).Nodup)
    {e : DirEntry} (he : e ∈ entries) : f.lookup k e.name = some (e.ino, e.fileType) := by
  rw [lookup_of_dir hdir]
  clear hdir
  induction entries with
  | nil => cases he
  | cons x entries ih =>
    rw [List.map_cons, List.nodup_cons] at hdistinct
    rw [entryNamed_cons]
    rcases List.mem_cons.mp he with rfl | he
    · exact if_pos rfl
    · have hne : x.name ≠ e.name := fun heq ↦ hdistinct.1 (heq ▸ List.mem_map_of_mem he)
      rw [if_neg hne]
      exact ih hdistinct.2 he

theorem entryNamed_mem {v : ℕ × FileType} (h : entryNamed entries name = some v) :
    ∃ e ∈ entries, e.name = name ∧ v = (e.ino, e.fileType) := by
  obtain ⟨e, he, rfl⟩ := Option.map_eq_some_iff.mp h
  have hname := List.find?_some he
  simp only [beq_iff_eq] at hname
  exact ⟨e, List.mem_of_find?_eq_some he, hname, rfl⟩

/-! ## Nodes that change -/

/-- A change that keeps the type, the links and the entries of a node is none of the namespace. -/
theorem tree_edit (f : Nodes) (k : ℕ) {g : Node → Node} (hentries : ∀ n, f k = some n → (g n).entries = n.entries)
    (htype : ∀ n, FileType.fromMode (g n).mode = FileType.fromMode n.mode) (hlinks : ∀ n, (g n).nlink = n.nlink) :
    (f.edit k g).tree = f.tree := by
  apply Tree.ext
  · funext k' name
    by_cases hk : k' = k
    · have hdir : (f.edit k g).dir k = f.dir k := by
        unfold dir
        rw [edit_self]
        cases hn : f k with
        | none => rfl
        | some n => exact hentries n hn
      change ((f.edit k g).dir k').bind _ = (f.dir k').bind _
      rw [hk, hdir]
    · change ((f.edit k g).dir k').bind _ = (f.dir k').bind _
      rw [dir_edit_of_ne hk]
  · funext k'
    change (f.edit k g k').map _ = (f k').map _
    by_cases hk : k' = k
    · rw [hk, edit_self, Option.map_map]
      cases f k with
      | none => rfl
      | some n => exact congrArg some (htype n)
    · rw [edit_of_ne hk]
  · funext k'
    change ((f.edit k g k').map _).getD 0 = ((f k').map _).getD 0
    by_cases hk : k' = k
    · rw [hk, edit_self, Option.map_map]
      cases f k with
      | none => rfl
      | some n => exact hlinks n
    · rw [edit_of_ne hk]

theorem tree_links (h : f k ≠ none) (g : ℕ → ℕ) : (f.links k g).tree = f.tree.relink k g := by
  apply Tree.ext
  · funext k' name
    change ((f.links k g).dir k').bind _ = (f.dir k').bind _
    rw [dir_links]
  · funext k'
    change (f.links k g k').map _ = (f k').map _
    unfold links
    by_cases hk : k' = k
    · rw [hk, edit_self, Option.map_map]
      rfl
    · rw [edit_of_ne hk]
  · funext k'
    change ((f.links k g k').map _).getD 0 = if k' = k then g (f.tree.nlink k) else f.tree.nlink k'
    obtain ⟨n, hn⟩ := Option.ne_none_iff_exists'.mp h
    unfold links
    by_cases hk : k' = k
    · rw [if_pos hk, hk, edit_self, hn, tree_nlink hn]
      rfl
    · rw [if_neg hk, edit_of_ne hk]
      rfl

/-- Only what a directory says can change when it is rewritten. -/
theorem tree_list {v : Option (ℕ × FileType)} {new : List DirEntry} (hdir : f.dir k = some entries)
    (hfits : ∀ e ∈ new, e.Fits) (hcount : new.length < 2 ^ 32) (hself : entryNamed new name = v)
    (hother : ∀ name', name' ≠ name → entryNamed new name' = entryNamed entries name') :
    (f.list k new).tree = f.tree.say k name v := by
  apply Tree.ext
  · funext k' name'
    change (f.list k new).lookup k' name' = if k' = k ∧ name' = name then v else f.lookup k' name'
    by_cases hk : k' = k
    · rw [hk, lookup_of_dir (dir_list hdir hfits hcount), lookup_of_dir hdir]
      by_cases hname : name' = name
      · rw [if_pos ⟨rfl, hname⟩, hname, hself]
      · rw [if_neg fun hsame ↦ hname hsame.2, hother name' hname]
    · rw [if_neg fun hsame ↦ hk hsame.1]
      unfold lookup
      rw [dir_list_of_ne hk]
  · funext k'
    change (f.list k new k').map _ = (f k').map _
    unfold list
    by_cases hk : k' = k
    · rw [hk, edit_self, Option.map_map]
      rfl
    · rw [edit_of_ne hk]
  · funext k'
    change ((f.list k new k').map _).getD 0 = ((f k').map _).getD 0
    unfold list
    by_cases hk : k' = k
    · rw [hk, edit_self, Option.map_map]
      rfl
    · rw [edit_of_ne hk]

theorem tree_list_erase (hdir : f.dir k = some entries) (hdistinct : (entries.map DirEntry.name).Nodup) (name : Bytes) :
    (f.list k (entries.eraseP (fun e ↦ e.name == name))).tree = f.tree.say k name none := by
  have hfits := Inner.fits_of_dir hdir
  refine tree_list hdir (fun e he ↦ hfits.2 e (List.mem_of_mem_eraseP he))
    ((List.length_eraseP_le).trans_lt hfits.1) ?_ fun name' hne ↦ Inner.entryNamed_eraseP hne
  rw [entryNamed_eq_none, List.any_eq_true]
  rintro ⟨e, he, heq⟩
  exact name_ne_of_mem_eraseP hdistinct e he (beq_iff_eq.mp heq)

theorem entryNamed_append (entries : List DirEntry) (e : DirEntry) (name : Bytes) :
    entryNamed (entries ++ [e]) name =
      (entryNamed entries name).or (if e.name = name then some (e.ino, e.fileType) else none) := by
  have hsingle : entryNamed [e] name = if e.name = name then some (e.ino, e.fileType) else none :=
    entryNamed_cons e [] name
  rw [← hsingle]
  unfold entryNamed
  rw [List.find?_append, Option.map_or]

theorem tree_list_append (hdir : f.dir k = some entries) (hfree : entryNamed entries name = none)
    (hcount : entries.length + 1 < 2 ^ 32) {ft : FileType} (hfits : DirEntry.Fits ⟨c, ft, name⟩) :
    (f.list k (entries ++ [⟨c, ft, name⟩])).tree = f.tree.say k name (some (c, ft)) := by
  refine tree_list hdir (fun e he ↦ ?_) (by rw [List.length_append]; exact hcount) ?_ fun name' hne ↦ ?_
  · rcases List.mem_append.mp he with he | he
    · exact (Inner.fits_of_dir hdir).2 e he
    · rw [List.mem_singleton.mp he]
      exact hfits
  · rw [entryNamed_append, hfree, if_pos rfl]
    rfl
  · rw [entryNamed_append, if_neg hne.symm, Option.or_none]

theorem entryNamed_repointed (newParent : ℕ) (entries : List DirEntry) (name : Bytes) :
    entryNamed (repointed newParent entries) name =
      (entryNamed entries name).map fun v ↦ if name = dotdotName then (newParent, v.2) else v := by
  induction entries with
  | nil => rfl
  | cons e entries ih =>
    have hcons : repointed newParent (e :: entries) =
        (if e.name = dotdotName then { e with ino := newParent } else e) :: repointed newParent entries := rfl
    rw [hcons, entryNamed_cons, entryNamed_cons, ih]
    by_cases hdots : e.name = dotdotName
    · rw [if_pos hdots]
      by_cases h : e.name = name
      · rw [if_pos h, if_pos h, Option.map_some, ← h, if_pos hdots]
      · rw [if_neg h, if_neg h]
    · rw [if_neg hdots]
      by_cases h : e.name = name
      · rw [if_pos h, if_pos h, Option.map_some, ← h, if_neg hdots]
      · rw [if_neg h, if_neg h]

theorem tree_list_repointed (hdir : f.dir k = some entries) {v : ℕ × FileType}
    (hup : entryNamed entries dotdotName = some v) {newParent : ℕ} (hnew : newParent < 2 ^ 64) :
    (f.list k (repointed newParent entries)).tree = f.tree.say k dotdotName (some (newParent, v.2)) := by
  have hfits := Inner.fits_of_dir hdir
  refine tree_list hdir (fun e he ↦ ?_) (by unfold repointed; rw [List.length_map]; exact hfits.1) ?_ fun name' hne ↦ ?_
  · obtain ⟨x, hx, rfl⟩ := List.mem_map.mp he
    have hfit := hfits.2 x hx
    split_ifs
    · exact ⟨hnew, hfit.name⟩
    · exact hfit
  · rw [entryNamed_repointed, hup, Option.map_some, if_pos rfl]
  · rw [entryNamed_repointed]
    simp only [if_neg hne, Option.map_id']

theorem tree_forget (f : Nodes) (k : ℕ) : tree (Function.update f k none) = f.tree.forget k := by
  apply Tree.ext
  · funext k' name
    change lookup (Function.update f k none) k' name = if k' = k then none else f.lookup k' name
    unfold lookup dir
    by_cases hk : k' = k
    · rw [if_pos hk, hk, Function.update_self]
      rfl
    · rw [if_neg hk, Function.update_of_ne hk]
  · funext k'
    change (Function.update f k none k').map _ = if k' = k then none else (f k').map _
    by_cases hk : k' = k
    · rw [if_pos hk, hk, Function.update_self]
      rfl
    · rw [if_neg hk, Function.update_of_ne hk]
  · funext k'
    change ((Function.update f k none k').map _).getD 0 = if k' = k then 0 else ((f k').map _).getD 0
    by_cases hk : k' = k
    · rw [if_pos hk, hk, Function.update_self]
      rfl
    · rw [if_neg hk, Function.update_of_ne hk]

/-- A node without bytes has no entries. -/
theorem tree_begin (f : Nodes) (k : ℕ) (hbytes : n.bytes = []) (hlinks : n.nlink = 1) :
    tree (Function.update f k (some n)) = f.tree.begin k (FileType.fromMode n.mode) := by
  apply Tree.ext
  · funext k' name
    change lookup (Function.update f k (some n)) k' name = if k' = k then none else f.lookup k' name
    unfold lookup dir
    by_cases hk : k' = k
    · rw [if_pos hk, hk, Function.update_self, Option.bind_some]
      unfold Node.entries
      rw [hbytes]
      split_ifs <;> rfl
    · rw [if_neg hk, Function.update_of_ne hk]
  · funext k'
    change (Function.update f k (some n) k').map _ = if k' = k then some _ else (f k').map _
    by_cases hk : k' = k
    · rw [if_pos hk, hk, Function.update_self]
      rfl
    · rw [if_neg hk, Function.update_of_ne hk]
  · funext k'
    change ((Function.update f k (some n) k').map _).getD 0 = if k' = k then 1 else ((f k').map _).getD 0
    by_cases hk : k' = k
    · rw [if_pos hk, hk, Function.update_self, Option.map_some, Option.getD_some, hlinks]
    · rw [if_neg hk, Function.update_of_ne hk]

end Nodes

end LinuxFile
