import LinuxFile.Spec.Checks

/-!
# What removing and moving a name leaves

The nodes after a name has been removed or moved, and what is left when a step fails on the way.
-/

namespace LinuxFile

open LinuxFile.Inner

namespace Nodes

variable {f : Nodes} {k k' : ℕ} {entries : List DirEntry}

/-! ## Directories after a change -/

theorem dir_edit_of_ne (h : k' ≠ k) (f : Nodes) (g : Node → Node) : (f.edit k g).dir k' = f.dir k' := by
  unfold dir
  rw [edit_of_ne h]

theorem entries_of_dir (h : f.dir k = some entries) :
    ∃ n, f k = some n ∧ n.isDir = true ∧ decodeDir n.bytes = .ok entries := by
  unfold dir at h
  obtain ⟨n, hn, hentries⟩ := Option.bind_eq_some_iff.mp h
  unfold Node.entries at hentries
  split_ifs at hentries with hdir
  cases hdecode : decodeDir n.bytes with
  | error e =>
    rw [hdecode] at hentries
    cases hentries
  | ok es =>
    rw [hdecode] at hentries
    cases hentries
    exact ⟨n, hn, hdir, hdecode⟩

/-- A change that keeps what makes a directory keeps its entries. -/
theorem dir_edit (f : Nodes) (k : ℕ) {g : Node → Node} (h : ∀ n, (g n).entries = n.entries) (k' : ℕ) :
    (f.edit k g).dir k' = f.dir k' := by
  by_cases hk : k' = k
  · unfold dir
    rw [hk, edit_self]
    cases f k with
    | none => rfl
    | some n => exact h n
  · exact dir_edit_of_ne hk f g

theorem dir_links (f : Nodes) (k : ℕ) (g : ℕ → ℕ) (k' : ℕ) : (f.links k g).dir k' = f.dir k' :=
  dir_edit f k (g := fun n ↦ { n with nlink := g n.nlink }) (fun _ ↦ rfl) k'

theorem dir_list_of_ne (h : k' ≠ k) (f : Nodes) (entries : List DirEntry) :
    (f.list k entries).dir k' = f.dir k' := dir_edit_of_ne h f _

/-- The count of the entries has 32 bits. -/
theorem dir_list_take {old : List DirEntry} (h : f.dir k = some old) (hfits : ∀ e ∈ entries, e.Fits) :
    (f.list k entries).dir k = some (entries.take (entries.length % 2 ^ 32)) := by
  obtain ⟨n, hn, hdir, -⟩ := entries_of_dir h
  have hlisted : f.list k entries k = some { n with bytes := encodeDir entries } := by
    unfold list
    rw [edit_self, hn, Option.map_some]
  have hdir' : Node.isDir { n with bytes := encodeDir entries } = true := hdir
  rw [dir_of_some hlisted, Node.entries_of_dir hdir', decodeDir_encodeDir hfits]
  rfl

theorem dir_list {old : List DirEntry} (h : f.dir k = some old) (hfits : ∀ e ∈ entries, e.Fits)
    (hcount : entries.length < 2 ^ 32) : (f.list k entries).dir k = some entries := by
  rw [dir_list_take h hfits, Nat.mod_eq_of_lt hcount, List.take_length]

/-! ## Names after a change -/

theorem lookup_eq_none_of_dir (h : ∀ entries, f.dir k = some entries → ∀ e ∈ entries, e.name ≠ name) :
    f.lookup k name = none := by
  unfold lookup
  cases hdir : f.dir k with
  | none => rfl
  | some entries =>
    rw [Option.bind_some, entryNamed_eq_none, List.any_eq_true]
    rintro ⟨e, he, heq⟩
    exact h entries hdir e he (beq_iff_eq.mp heq)

theorem name_ne_of_lookup {name : Bytes} (h : f.lookup k name = none) (hdir : f.dir k = some entries) :
    ∀ e ∈ entries, e.name ≠ name := by
  rw [lookup_of_dir hdir, entryNamed_eq_none, List.any_eq_true] at h
  exact fun e he heq ↦ h ⟨e, he, beq_iff_eq.mpr heq⟩

end Nodes

/-- Where no name stands twice, an erased entry leaves no other of its name. -/
theorem name_ne_of_mem_eraseP {entries : List DirEntry} (h : (entries.map DirEntry.name).Nodup) {name : Bytes} :
    ∀ e ∈ entries.eraseP (fun e ↦ e.name == name), e.name ≠ name := by
  induction entries with
  | nil =>
    intro e he
    cases he
  | cons x entries ih =>
    rw [List.map_cons, List.nodup_cons] at h
    intro e he
    by_cases hx : x.name = name
    · rw [List.eraseP_cons_of_pos (p := fun (e : DirEntry) ↦ e.name == name) (beq_iff_eq.mpr hx)] at he
      rintro rfl
      exact h.1 (hx ▸ List.mem_map_of_mem he)
    · rw [List.eraseP_cons_of_neg (p := fun (e : DirEntry) ↦ e.name == name) (by rw [beq_iff_eq]; exact hx)] at he
      rcases List.mem_cons.mp he with rfl | he
      · exact hx
      · exact ih h.2 e he

namespace Nodes

variable {f : Nodes} {k k' : ℕ}

/-- The nodes once a name is gone: the directory is rewritten, and the links are counted down. -/
def unnamed (f : Nodes) (parent : ℕ) (entries : List DirEntry) (name : Bytes) (entry : ℕ × FileType) : Nodes :=
  let g := f.list parent (entries.eraseP (fun e ↦ e.name == name))
  let g := if entry.2.isDir = true then g.links parent (· - 1) else g
  g.links entry.1 (· - 1)

/-- The nodes once a name has moved, but for the `..` of a directory. -/
def moved (f : Nodes) (oldParent : ℕ) (entries : List DirEntry) (oldName : Bytes) (newParent : ℕ)
    (target : List DirEntry) (newName : Bytes) (src : ℕ × FileType) : Nodes :=
  (f.list oldParent (entries.eraseP (fun e ↦ e.name == oldName))).list newParent (target ++ [⟨src.1, src.2, newName⟩])

/-- The `..` of a moved directory names its new parent. -/
def repointed (newParent : ℕ) (entries : List DirEntry) : List DirEntry :=
  entries.map (fun e ↦ if e.name = dotdotName then { e with ino := newParent } else e)

/-- A directory has moved below another parent. -/
def adopted (f : Nodes) (src oldParent newParent : ℕ) (entries : List DirEntry) : Nodes :=
  ((f.list src (repointed newParent entries)).links oldParent (· - 1)).links newParent (· + 1)

/-- The target directory takes the name, and the `..` of a directory can be rewritten. -/
def MoveFits (f : Nodes) (oldParent : ℕ) (oldName : Bytes) (newParent : ℕ) (newName : Bytes)
    (src : ℕ × FileType) : Prop :=
  ∃ entries target, f.dir oldParent = some entries ∧ entryNamed entries oldName ≠ none ∧
    (f.list oldParent (entries.eraseP (fun e ↦ e.name == oldName))).dir newParent = some target ∧
    entryNamed target newName = none ∧ validateName newName = .ok () ∧
    (encodeDir (target ++ [⟨src.1, src.2, newName⟩])).length ≤ maxFileSize ∧
    (src.2.isDir = true → oldParent ≠ newParent → ∃ own,
      (f.moved oldParent entries oldName newParent target newName src).dir src.1 = some own ∧
      (encodeDir (repointed newParent own)).length ≤ maxFileSize)

theorem repointed_name {newParent : ℕ} {entries : List DirEntry} {name : Bytes}
    (h : ∀ e ∈ entries, e.name ≠ name) : ∀ e ∈ repointed newParent entries, e.name ≠ name := by
  intro e he
  obtain ⟨x, hx, rfl⟩ := List.mem_map.mp he
  split_ifs
  · exact h x hx
  · exact h x hx

/-- A directory that is rewritten without a name does not have it afterwards. -/
theorem lookup_list_none {name : Bytes} (h : f.lookup k name = none) {entries : List DirEntry}
    (hfits : ∀ e ∈ entries, e.Fits) (hdir : ∃ old, f.dir k' = some old)
    (hname : k' = k → ∀ e ∈ entries, e.name ≠ name) : (f.list k' entries).lookup k name = none := by
  by_cases hk : k = k'
  · apply lookup_eq_none_of_dir
    intro es hes
    obtain ⟨old, hold⟩ := hdir
    rw [hk, dir_list_take hold hfits] at hes
    cases hes
    exact fun e he ↦ hname hk.symm e (List.mem_of_mem_take he)
  · unfold lookup
    rw [dir_list_of_ne hk]
    exact h

theorem lookup_edit_none {name : Bytes} (h : f.lookup k name = none) {g : Node → Node}
    (hg : ∀ n, (g n).entries = n.entries ∨ (g n).bytes = []) : (f.edit k' g).lookup k name = none := by
  apply lookup_eq_none_of_dir
  intro es hes
  by_cases hk : k = k'
  · rw [← hk] at hes
    obtain ⟨n, hn, hdir, hdecode⟩ := entries_of_dir hes
    rw [edit_self] at hn
    obtain ⟨m, hm, rfl⟩ := Option.map_eq_some_iff.mp hn
    rcases hg m with hsame | hempty
    · have hentries : f.dir k = some es := by
        rw [dir_of_some hm, ← hsame, Node.entries_of_dir hdir, hdecode]
        rfl
      exact name_ne_of_lookup h hentries
    · rw [hempty] at hdecode
      cases hdecode
      intro e he
      cases he
  · rw [dir_edit_of_ne hk] at hes
    exact name_ne_of_lookup h hes

theorem lookup_links_none {name : Bytes} (h : f.lookup k name = none) (g : ℕ → ℕ) :
    (f.links k' g).lookup k name = none := by
  unfold lookup
  rw [dir_links]
  exact h

end Nodes

namespace Inner

variable {s t u : Inner} {k : ℕ}

/-! ## Removing a name -/

/-- An inode that has lost a name: kept while it has others, an orphan while it is open, and dropped otherwise. -/
inductive Releases (k : ℕ) (s t : Inner) : Prop
  | named {n : Node} (hn : s.node k = some n) (hlinks : n.nlink ≠ 0) (h : t = s)
  | orphaned {n : Node} (hn : s.node k = some n) (hlinks : n.nlink = 0) (hopen : 0 < s.opens k)
      (h : t = { s with orphans := s.orphans.insert k () })
  | dropped {n : Node} (hn : s.node k = some n) (hlinks : n.nlink = 0) (hclosed : s.opens k = 0)
      (h : Drops s k t)

theorem releaseIfUnlinked_releases (h : s.Sound) (hwritable : s.writable = true) (hk : k < s.sb.nextInode) :
    (releaseIfUnlinked k).Holds s (fun _ t ↦ Releases k s t)
      (fun e t ↦ e.IsHost ∨ s.node k = none ∧ Becomes s s.node t) := by
  unfold releaseIfUnlinked
  refine (h.getInode_finds hk).bind ?_ ?_
  · rintro i t ⟨hi, rfl⟩
    have hn := node_of_mem hi
    rw [Exec.holds_bind, Exec.holds_read]
    split_ifs with hlinks hopen
    · refine (dropInode_drops h hwritable hk).mono ?_ (fun _ _ he ↦ he)
      rintro _ t ⟨-, hdrops⟩
      exact .dropped hn hlinks hopen hdrops
    · exact .orphaned hn hlinks (Nat.pos_of_ne_zero hopen) rfl
    · exact .named hn hlinks rfl
  · rintro e t (he | ⟨hnone, ht⟩)
    · exact Or.inl he
    · exact Or.inr ⟨node_eq_none.mpr hnone, ht⟩

/-- The name is gone from the directory, and the inode has one link less. -/
structure Unlinked (s : Inner) (parent : ℕ) (name : Bytes) (entry : ℕ × FileType) (t : Inner) : Prop where
  removed : ∃ entries u, s.node.dir parent = some entries ∧ Steady s u ∧
    u.node = s.node.unnamed parent entries name entry ∧ Releases entry.1 u t

theorem unlinkEntry_unlinks (h : s.Sound) (hwritable : s.writable = true) {parent : ℕ}
    (hparent : parent < s.sb.nextInode) (name : Bytes) {entry : ℕ × FileType} (hentry : entry.1 < s.sb.nextInode)
    (hlive : s.node entry.1 ≠ none) (hfound : s.node.lookup parent name ≠ none) :
    (unlinkEntry parent name entry).Holds s (fun _ t ↦ Unlinked s parent name entry t) (fun e _ ↦ e.IsHost) := by
  have htake : Acts (do
      let _ ← dirRemove parent name
      Exec.when (entry.2.isDir = true) (dropLink parent (fun _ i ↦ i))
      dropLink entry.1 (fun now i ↦ i.touchCtime now)) s
      (fun _ g ↦ ∃ entries, s.node.dir parent = some entries ∧ g = s.node.unnamed parent entries name entry)
      (fun _ ↦ False) := by
    refine ((dirRemove_acts h hwritable hparent name).mono (fun _ _ hq ↦ hq) fun g hg ↦ hfound hg.2).bind ?_
    rintro _ t ht ⟨entries, hdir, -, hlisted⟩
    have hsome : s.node parent ≠ none := by
      intro hnone
      rw [Nodes.dir_of_none hnone] at hdir
      cases hdir
    have hwhen : Acts (Exec.when (entry.2.isDir = true) (dropLink parent (fun _ i ↦ i))) t
        (fun _ g ↦ g = if entry.2.isDir = true then t.node.links parent (· - 1) else t.node) (fun _ ↦ False) := by
      unfold Exec.when
      by_cases hdir : entry.2.isDir = true
      · rw [if_pos hdir, if_pos hdir]
        refine (dropLink_acts (fun _ i ↦ i) (fun _ _ ↦ rfl) (fun _ _ _ ↦ rfl) ht.sound (ht.next hparent)).mono
          (fun _ _ hq ↦ hq.1) fun g hg ↦ ?_
        have hnone := hg.2
        rw [hlisted] at hnone
        exact Nodes.edit_ne_none hsome _ _ hnone
      · rw [if_neg hdir, if_neg hdir]
        exact Acts.pure ht.sound rfl
    refine hwhen.bind fun _ u hu hnode ↦ ?_
    have hall := ht.trans hu
    refine (dropLink_acts (fun now i ↦ i.touchCtime now) (fun _ _ ↦ rfl) (fun _ _ _ ↦ rfl) hall.sound
      (hall.next hentry)).mono (fun _ g hq ↦ ⟨entries, hdir, ?_⟩) fun g hg ↦ ?_
    · rw [hq.1, hnode, hlisted]
      rfl
    · have hnone := hg.2
      rw [hnode, hlisted] at hnone
      split_ifs at hnone
      · exact Nodes.edit_ne_none (Nodes.edit_ne_none hlive _ _) _ _ hnone
      · exact Nodes.edit_ne_none hlive _ _ hnone
  have heq : unlinkEntry parent name entry = (do
      let _ ← dirRemove parent name
      Exec.when (entry.2.isDir = true) (dropLink parent (fun _ i ↦ i))
      dropLink entry.1 (fun now i ↦ i.touchCtime now)) >>= fun _ ↦ releaseIfUnlinked entry.1 := by
    unfold unlinkEntry
    simp only [bind_assoc]
  rw [heq]
  refine Exec.Holds.bind htake ?_ fun e t he ↦ he.resolve_right fun hf ↦ hf.2
  rintro _ t ⟨ht, entries, hdir, hnode⟩
  refine (releaseIfUnlinked_releases ht.sound (ht.writable hwritable) (ht.next hentry)).mono ?_ ?_
  · intro _ u hu
    exact ⟨entries, t, hdir, ht, hnode, hu⟩
  · rintro e u (he | ⟨hnone, -⟩)
    · exact he
    · rw [hnode] at hnone
      unfold Nodes.unnamed at hnone
      split_ifs at hnone
      · exact absurd hnone (Nodes.edit_ne_none (Nodes.edit_ne_none (Nodes.edit_ne_none hlive _ _) _ _) _ _)
      · exact absurd hnone (Nodes.edit_ne_none (Nodes.edit_ne_none hlive _ _) _ _)

theorem entryNamed_eraseP {entries : List DirEntry} {name other : Bytes} (h : other ≠ name) :
    entryNamed (entries.eraseP (fun e ↦ e.name == name)) other = entryNamed entries other := by
  unfold entryNamed
  congr 1
  induction entries with
  | nil => rfl
  | cons e entries ih =>
    by_cases hname : e.name = name
    · have hother : (e.name == other) = false := by
        rw [beq_eq_false_iff_ne, hname]
        exact h.symm
      rw [List.eraseP_cons_of_pos (p := fun (e : DirEntry) ↦ e.name == name) (beq_iff_eq.mpr hname), List.find?_cons, hother]
    · have hkept : ¬(e.name == name) = true := by
        rw [beq_iff_eq]
        exact hname
      rw [List.eraseP_cons_of_neg (p := fun (e : DirEntry) ↦ e.name == name) hkept, List.find?_cons, List.find?_cons, ih]

/-- An entry for a file that is not there is taken out before that is noticed; the other names stay. -/
theorem unlinkEntry_dangles (h : s.Sound) (hwritable : s.writable = true) {parent : ℕ}
    (hparent : parent < s.sb.nextInode) (name : Bytes) {entry : ℕ × FileType} (hentry : entry.1 < s.sb.nextInode)
    (hfile : ¬entry.2.isDir = true) (hnone : s.node entry.1 = none) :
    Acts (unlinkEntry parent name entry) s (fun _ _ ↦ False)
      (fun g ↦ ∀ k other, ¬(k = parent ∧ other = name) → g.lookup k other = s.node.lookup k other) := by
  unfold unlinkEntry
  apply ((dirRemove_acts h hwritable hparent name).mono (fun _ _ hq ↦ hq)
    fun g hg k other _ ↦ by rw [hg.1]).bind
  rintro _ t ht ⟨entries, hdir, -, hlisted⟩
  have hothers : ∀ k other, ¬(k = parent ∧ other = name) → t.node.lookup k other = s.node.lookup k other := by
    intro k other hne
    rw [hlisted]
    by_cases hk : k = parent
    · have hfits := fits_of_dir hdir
      have hcount : (entries.eraseP (fun e ↦ e.name == name)).length < 2 ^ 32 :=
        (List.length_eraseP_le).trans_lt hfits.1
      have herased := Nodes.dir_list hdir (fun e he ↦ hfits.2 e (List.mem_of_mem_eraseP he)) hcount
      rw [hk, Nodes.lookup_of_dir herased, Nodes.lookup_of_dir hdir]
      exact entryNamed_eraseP fun hother ↦ hne ⟨hk, hother⟩
    · unfold Nodes.lookup
      rw [Nodes.dir_list_of_ne hk]
  have hmissing : t.node entry.1 = none := by
    rw [hlisted]
    unfold Nodes.list Nodes.edit
    by_cases hk : entry.1 = parent
    · rw [hk, Function.update_self, ← hk, hnone]
      rfl
    · rw [Function.update_of_ne hk, hnone]
  unfold Exec.when
  rw [if_neg hfile]
  apply Acts.pure_bind
  apply ((dropLink_acts (fun now i ↦ i.touchCtime now) (fun _ _ ↦ rfl) (fun _ _ _ ↦ rfl) ht.sound
    (ht.next hentry)).mono (fun _ _ hq ↦ hq.2) fun g hg k other hne ↦ by rw [hg.1, hothers k other hne]).bind
  intro _ u _ hlive
  exact absurd hmissing hlive

/-! ## Moving a name -/

theorem moveDotdot_acts (h : s.Sound) (hwritable : s.writable = true) {src oldParent newParent : ℕ}
    (hsrc : src < s.sb.nextInode) (hold : oldParent < s.sb.nextInode) (hnew : newParent < s.sb.nextInode)
    (holdLive : s.node oldParent ≠ none) (hnewLive : s.node newParent ≠ none) :
    Acts (moveDotdot src oldParent newParent) s
      (fun _ g ↦ ∃ own, s.node.dir src = some own ∧ g = s.node.adopted src oldParent newParent own)
      (fun g ↦ g = s.node ∧ s.node.dir src = none ∨
        ∃ own, s.node.dir src = some own ∧ Overfull s.node src (Nodes.repointed newParent own) g) := by
  unfold moveDotdot
  refine Acts.parseDir h hsrc (fun hnone ↦ Or.inl ⟨rfl, hnone⟩) fun own t ht hsame hown ↦ ?_
  have hlive : s.node src ≠ none := by
    intro hnone
    rw [Nodes.dir_of_none hnone] at hown
    cases hown
  refine Acts.getInode ht.sound (ht.next hsrc) (fun hnone ↦ absurd (hsame ▸ hnone) hlive) fun i hi ↦ ?_
  apply Acts.bind ((writeDirEntries_acts ht.sound (ht.writable hwritable) hi _).mono (fun _ _ hq ↦ hq)
    fun g hg ↦ Or.inr ⟨own, hown, hg.1, hsame ▸ hg.2⟩)
  intro _ u hu hlisted
  have htu := ht.trans hu
  apply Acts.bind ((dropLink_acts (fun _ i ↦ i) (fun _ _ ↦ rfl) (fun _ _ _ ↦ rfl) htu.sound (htu.next hold)).mono
    (fun _ _ hq ↦ hq) fun g hg ↦ ?_)
  · rintro _ v hv ⟨hdropped, -⟩
    have hall := htu.trans hv
    refine (addLink_acts (fun _ i ↦ i) (fun _ _ ↦ rfl) (fun _ _ _ ↦ rfl) hall.sound (hall.next hnew)).mono
      (fun _ g hq ↦ ⟨own, hown, ?_⟩) fun g hg ↦ ?_
    · rw [hq.1, hdropped, hlisted, hsame]
      rfl
    · have hnone := hg.2
      rw [hdropped, hlisted, hsame] at hnone
      exact absurd hnone (Nodes.edit_ne_none (Nodes.edit_ne_none hnewLive _ _) _ _)
  · have hnone := hg.2
    rw [hlisted, hsame] at hnone
    exact absurd hnone (Nodes.edit_ne_none holdLive _ _)

/-- The entry of the source has moved. -/
structure EntryMoved (f : Nodes) (oldParent : ℕ) (oldName : Bytes) (newParent : ℕ) (newName : Bytes)
    (src : ℕ × FileType) (entries target : List DirEntry) (g : Nodes) : Prop where
  source : f.dir oldParent = some entries
  place : (f.list oldParent (entries.eraseP (fun e ↦ e.name == oldName))).dir newParent = some target
  fresh : entryNamed target newName = none
  nodes : if src.2.isDir = true ∧ oldParent ≠ newParent then
      ∃ own, (f.moved oldParent entries oldName newParent target newName src).dir src.1 = some own ∧
        g = (f.moved oldParent entries oldName newParent target newName src).adopted src.1 oldParent newParent own
    else g = f.moved oldParent entries oldName newParent target newName src

theorem moveEntry_acts (h : s.Tidy) {oldParent newParent : ℕ} (hold : oldParent < s.sb.nextInode)
    (hnew : newParent < s.sb.nextInode) {oldName newName : Bytes} (hne : ¬(oldParent = newParent ∧ oldName = newName))
    {src : ℕ × FileType} (hsrc : src.1 < s.sb.nextInode) :
    Acts (moveEntry oldParent oldName newParent newName src) s
      (fun _ g ↦ g.lookup oldParent oldName = none ∧
        ∃ entries target, EntryMoved s.node oldParent oldName newParent newName src entries target g)
      (fun g ↦ g.lookup oldParent oldName = none ∧
        ¬s.node.MoveFits oldParent oldName newParent newName src) := by
  unfold moveEntry
  apply Acts.bind ((dirRemove_acts h.sound h.writable hold oldName).mono (fun _ _ hq ↦ hq) fun g hg ↦ ?_)
  · rintro _ t ht ⟨entries, hdir, hentry, hlisted⟩
    have hfits := fits_of_dir hdir
    set erased := entries.eraseP (fun e ↦ e.name == oldName) with herased
    have herasedFits : ∀ e ∈ erased, e.Fits := fun e he ↦ hfits.2 e (List.mem_of_mem_eraseP he)
    have hgone : t.node.lookup oldParent oldName = none := by
      apply Nodes.lookup_eq_none_of_dir
      intro es hes
      rw [hlisted, Nodes.dir_list_take hdir herasedFits] at hes
      cases hes
      exact fun e he ↦ name_ne_of_mem_eraseP (h.names oldParent entries hdir).distinct e (List.mem_of_mem_take he)
    -- a failure from here on finds the old name gone, and contradicts what was asked for
    have hfail : (∀ target, t.node.dir newParent = some target → entryNamed target newName = none →
        validateName newName = .ok () →
        (encodeDir (target ++ [⟨src.1, src.2, newName⟩])).length ≤ maxFileSize →
        (src.2.isDir = true → oldParent ≠ newParent → ∃ own,
          (s.node.moved oldParent entries oldName newParent target newName src).dir src.1 = some own ∧
          (encodeDir (Nodes.repointed newParent own)).length ≤ maxFileSize) → False) →
        ¬s.node.MoveFits oldParent oldName newParent newName src := by
      rintro hP ⟨entries', target, hdir', -, htarget, hfresh, hvalid, hroom, hown⟩
      rw [hdir] at hdir'
      cases hdir'
      rw [← hlisted] at htarget
      exact hP target htarget hfresh hvalid hroom hown
    apply Acts.bind ((dirInsert_acts ht.sound (ht.writable h.writable) (ht.next hnew) newName src.1 src.2).mono
      (fun _ _ hq ↦ hq) fun g hg ↦ ?_)
    · rintro _ u hu ⟨target, htarget, hfresh, hvalid, hmoved⟩
      have htu := ht.trans hu
      have hnewFits : DirEntry.Fits ⟨src.1, src.2, newName⟩ :=
        ⟨hsrc.trans h.inRange.nextInode, (validateName_length hvalid).trans_lt (by decide)⟩
      have htargetFits : ∀ e ∈ target ++ [⟨src.1, src.2, newName⟩], e.Fits := by
        intro e he
        rcases List.mem_append.mp he with he | he
        · exact (fits_of_dir htarget).2 e he
        · rw [List.mem_singleton.mp he]
          exact hnewFits
      have hnode : u.node = s.node.moved oldParent entries oldName newParent target newName src := by
        rw [hmoved, hlisted]
        rfl
      have hgone' : u.node.lookup oldParent oldName = none := by
        rw [hmoved]
        apply Nodes.lookup_list_none hgone htargetFits ⟨target, htarget⟩
        intro hparent e he
        rcases List.mem_append.mp he with he | he
        · exact Nodes.name_ne_of_lookup hgone (hparent ▸ htarget) e he
        · rw [List.mem_singleton.mp he]
          exact fun hname ↦ hne ⟨hparent.symm, hname.symm⟩
      have hplace : (s.node.list oldParent erased).dir newParent = some target := hlisted ▸ htarget
      unfold Exec.when
      by_cases hmove : src.2.isDir = true ∧ oldParent ≠ newParent
      · rw [if_pos hmove]
        have hlive : ∀ k, s.node k ≠ none → u.node k ≠ none := by
          intro k hk
          rw [hnode]
          exact Nodes.edit_ne_none (Nodes.edit_ne_none hk _ _) _ _
        have holdLive : s.node oldParent ≠ none := by
          intro hnone
          rw [Nodes.dir_of_none hnone] at hdir
          cases hdir
        have hnewLive : u.node newParent ≠ none := by
          intro hnone
          rw [hmoved] at hnone
          refine Nodes.edit_ne_none ?_ _ _ hnone
          intro hnone'
          rw [Nodes.dir_of_none hnone'] at htarget
          cases htarget
        refine (moveDotdot_acts htu.sound (htu.writable h.writable) (htu.next hsrc) (htu.next hold) (htu.next hnew)
          (hlive _ holdLive) hnewLive).mono (fun _ g hq ↦ ?_) fun g hg ↦ ?_
        · obtain ⟨own, hown, rfl⟩ := hq
          have hadopted : (u.node.adopted src.1 oldParent newParent own).lookup oldParent oldName = none := by
            unfold Nodes.adopted
            apply Nodes.lookup_links_none
            apply Nodes.lookup_links_none
            refine Nodes.lookup_list_none hgone' (fun e he ↦ ?_) ⟨own, hown⟩ fun hk ↦
              Nodes.repointed_name (Nodes.name_ne_of_lookup hgone' (hk ▸ hown))
            obtain ⟨x, hx, rfl⟩ := List.mem_map.mp he
            have hxfits := (fits_of_dir hown).2 x hx
            split_ifs
            · exact ⟨hnew.trans h.inRange.nextInode, hxfits.name⟩
            · exact hxfits
          refine ⟨hadopted, entries, target, hdir, hplace, hfresh, ?_⟩
          rw [if_pos hmove]
          exact ⟨own, hnode ▸ hown, by rw [hnode]⟩
        · rcases hg with ⟨rfl, hunread⟩ | ⟨own, hown, hlong, rfl⟩
          · refine ⟨hgone', hfail fun target' htarget' hfresh' _ _ hown ↦ ?_⟩
            rw [htarget] at htarget'
            cases htarget'
            obtain ⟨own, hown, -⟩ := hown hmove.1 hmove.2
            rw [← hnode, hunread] at hown
            cases hown
          · refine ⟨Nodes.lookup_edit_none hgone' fun n ↦ Or.inr rfl,
              hfail fun target' htarget' hfresh' _ _ hown' ↦ ?_⟩
            rw [htarget] at htarget'
            cases htarget'
            obtain ⟨own', hown', hroom⟩ := hown' hmove.1 hmove.2
            rw [← hnode, hown] at hown'
            cases hown'
            omega
      · rw [if_neg hmove]
        refine Acts.pure hu.sound ⟨hgone', entries, target, hdir, hplace, hfresh, ?_⟩
        rw [if_neg hmove]
        exact hnode
    · rcases hg with ⟨rfl, hwhy⟩ | ⟨target, htarget, hlong, rfl⟩
      · refine ⟨hgone, hfail fun target htarget hfresh hvalid _ _ ↦ ?_⟩
        rcases hwhy with hbad | hunread | hexists
        · exact hbad hvalid
        · rw [hunread] at htarget
          cases htarget
        · rw [Nodes.lookup_of_dir htarget] at hexists
          exact hexists hfresh
      · refine ⟨Nodes.lookup_edit_none hgone fun n ↦ Or.inr rfl,
          hfail fun target' htarget' _ _ hroom _ ↦ ?_⟩
        rw [htarget] at htarget'
        cases htarget'
        omega
  · refine ⟨by rw [hg.1]; exact hg.2, ?_⟩
    rintro ⟨entries, target, hentries, hfound, -⟩
    rw [← Nodes.lookup_of_dir hentries] at hfound
    exact hfound hg.2

end Inner

end LinuxFile
