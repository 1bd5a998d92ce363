import LinuxFile.Spec.Names
import LinuxFile.Spec.Rename

/-!
# What is checked before a name is removed or moved

`unlink_name` and `rename` look before they change anything. The looks are a condition on the nodes: if it holds
the operation goes on, and if it does not the call fails and leaves all nodes as they were.
-/

namespace LinuxFile

open LinuxFile.Inner

namespace Nodes

/-- The sticky bit of the directory keeps the user from removing the name of `child`: the user owns neither the
directory nor the file. -/
def Guarded (f : Nodes) (perm : Bool) (parent child : ℕ) (creds : Creds) : Prop :=
  perm = true ∧ creds.isSuperuser = false ∧ ∃ d, f parent = some d ∧ d.mode &&& sIsvtx ≠ 0 ∧
    ∀ c, f child = some c → creds.fsuid ≠ d.uid ∧ creds.fsuid ≠ c.uid

/-- `rmdir` takes empty directories, `unlink` everything else. -/
def Removable (f : Nodes) (rmdir : Bool) (entry : ℕ × FileType) : Prop :=
  if rmdir = true then entry.2.isDir = true ∧ ∃ entries, f.dir entry.1 = some entries ∧ hasExtra entries = false
  else entry.2.isDir = false

/-- The user may write to the node. -/
def Writable (f : Nodes) (perm : Bool) (k : ℕ) (creds : Creds) : Prop :=
  ∃ n, f k = some n ∧ n.allows perm creds .write

structure MayUnlink (f : Nodes) (perm : Bool) (parent : ℕ) (name : Bytes) (rmdir : Bool) (creds : Creds)
    (entry : ℕ × FileType) : Prop where
  valid : validateName name = .ok ()
  access : f.Writable perm parent creds
  found : f.lookup parent name = some entry
  sticky : ¬f.Guarded perm parent entry.1 creds
  removable : f.Removable rmdir entry

/-- The climb of `is_ancestor`; nothing if a directory on the way cannot be read. -/
def climb (f : Nodes) (dir : ℕ) : ℕ → ℕ → Option Bool
  | 0, child => some (child == dir)
  | guard + 1, child =>
    if child = rootIno then some (child == dir)
    else if child = dir then some true
    else
      match f.dir child with
      | none => none
      | some entries =>
        match entryNamed entries dotdotName with
        | some (p, _) => f.climb dir guard p
        | none => some (child == dir)

/-- A directory does not move below itself. -/
def Outside (f : Nodes) (src : ℕ × FileType) (newParent : ℕ) : Prop :=
  src.2.isDir = true → f.climb src.1 4096 newParent = some false

structure RenameChecked (f : Nodes) (perm : Bool) (oldParent : ℕ) (oldName : Bytes) (newParent : ℕ)
    (newName : Bytes) (creds : Creds) (src : ℕ × FileType) : Prop where
  oldValid : validateName oldName = .ok ()
  newValid : validateName newName = .ok ()
  oldAccess : f.Writable perm oldParent creds
  newAccess : f.Writable perm newParent creds
  found : f.lookup oldParent oldName = some src

/-- What a rename does about the target: nothing if both names are the same inode, else the target loses its name. -/
inductive MayReplace (f : Nodes) (perm : Bool) (newParent : ℕ) (newName : Bytes) (creds : Creds)
    (src : ℕ × FileType) : Renaming → Prop
  | linked {dest : ℕ × FileType} (hdest : f.lookup newParent newName = some dest) (hsame : src.1 = dest.1) :
      MayReplace f perm newParent newName creds src .nothing
  | fresh {entries : List DirEntry} (hdir : f.dir newParent = some entries)
      (hnone : entryNamed entries newName = none) : MayReplace f perm newParent newName creds src (.move src none)
  | replaces {dest : ℕ × FileType} (hother : src.1 ≠ dest.1) (hkind : src.2.isDir = dest.2.isDir)
      (hmay : f.MayUnlink perm newParent newName dest.2.isDir creds dest) :
      MayReplace f perm newParent newName creds src (.move src (some dest))

/-- What a rename goes on to do. -/
inductive MayRename (f : Nodes) (perm : Bool) (oldParent : ℕ) (oldName : Bytes) (newParent : ℕ) (newName : Bytes)
    (creds : Creds) : Renaming → Prop
  | same {src : ℕ × FileType} (h : f.RenameChecked perm oldParent oldName newParent newName creds src)
      (hsame : oldParent = newParent ∧ oldName = newName) :
      MayRename f perm oldParent oldName newParent newName creds .nothing
  | proceeds {src : ℕ × FileType} {r : Renaming}
      (h : f.RenameChecked perm oldParent oldName newParent newName creds src)
      (hne : ¬(oldParent = newParent ∧ oldName = newName)) (hout : f.Outside src newParent)
      (hr : f.MayReplace perm newParent newName creds src r) :
      MayRename f perm oldParent oldName newParent newName creds r

theorem RenameChecked.src_eq {f : Nodes} {perm : Bool} {oldParent newParent : ℕ} {oldName newName : Bytes}
    {creds : Creds} {src src' : ℕ × FileType}
    (h : f.RenameChecked perm oldParent oldName newParent newName creds src)
    (h' : f.RenameChecked perm oldParent oldName newParent newName creds src') : src = src' :=
  Option.some.inj (h.found.symm.trans h'.found)

/-- A rename that was checked in vain. -/
theorem not_mayRename {f : Nodes} {perm : Bool} {oldParent newParent : ℕ} {oldName newName : Bytes} {creds : Creds}
    (h : ∀ src, ¬f.RenameChecked perm oldParent oldName newParent newName creds src) :
    ∀ r, ¬f.MayRename perm oldParent oldName newParent newName creds r := by
  rintro r (⟨hchecked, -⟩ | ⟨hchecked, -, -, -⟩)
  · exact h _ hchecked
  · exact h _ hchecked

end Nodes

namespace Inner

variable {α β : Type} {s t : Inner} {i : Inode} {k : ℕ}

/-- The entries of every directory name numbers that were given out. -/
def NamesBelow (s : Inner) : Prop :=
  ∀ k entries, s.node.dir k = some entries → ∀ e ∈ entries, e.ino < s.sb.nextInode

theorem Tidy.namesBelow (h : s.Tidy) : s.NamesBelow := fun k entries hk ↦ (h.names k entries hk).below

theorem NamesBelow.kept (h : s.NamesBelow) (ht : Steady s t) (hnode : t.node = s.node) : t.NamesBelow := by
  intro k entries hk
  rw [hnode] at hk
  rw [ht.shell.sb]
  exact h k entries hk

theorem NamesBelow.lookup (h : s.NamesBelow) {entries : List DirEntry} (hdir : s.node.dir k = some entries)
    {name : Bytes} {entry : ℕ × FileType} (hentry : entryNamed entries name = some entry) :
    entry.1 < s.sb.nextInode := by
  obtain ⟨e, he, rfl⟩ := Option.map_eq_some_iff.mp hentry
  exact h k entries hdir e (List.mem_of_find?_eq_some he)

section Rules

variable {R : β → Nodes → Prop} {E : Nodes → Prop} {f : Unit → Fs β}

theorem Acts.checkSticky {parent : ℕ} {name : Bytes} {dir : Inode} {creds : Creds} (h : s.Sound)
    (hbelow : s.NamesBelow) (hparent : parent < s.sb.nextInode) (hmem : s.inodes.find? parent = some dir)
    (hbad : (∀ entry, s.node.lookup parent name = some entry →
      s.node.Guarded s.checkPerm parent entry.1 creds) → E s.node)
    (hok : ∀ t, Steady s t → t.node = s.node → (∀ entry, s.node.lookup parent name = some entry →
      ¬s.node.Guarded s.checkPerm parent entry.1 creds) → Acts (f ()) t R E) :
    Acts (Inner.checkSticky parent name dir creds >>= f) s R E := by
  have hnode := node_of_mem hmem
  unfold Inner.checkSticky
  rw [bind_assoc]
  apply Acts.read
  by_cases hactive : s.checkPerm = true ∧ dir.mode &&& sIsvtx ≠ 0 ∧ creds.isSuperuser = false
  · rw [if_pos hactive, bind_assoc]
    refine Acts.dirLookup h hparent (fun hdir ↦ hbad fun entry hentry ↦ ?_) fun entries t ht hsame hdir ↦ ?_
    · unfold Nodes.lookup at hentry
      rw [hdir] at hentry
      cases hentry
    · have hlookup := Nodes.lookup_of_dir hdir name
      rw [bind_assoc]
      refine Acts.ofOption ht.sound (fun hnone ↦ ?_) fun entry hentry ↦ ?_
      · rw [hsame]
        refine hbad fun entry hentry ↦ ?_
        rw [hlookup, hnone] at hentry
        cases hentry
      · have hlt := ht.next (hbelow.lookup hdir hentry)
        have hfound := hlookup.trans hentry
        rw [bind_assoc]
        refine Acts.getInode ht.sound hlt (fun hnone ↦ ?_) fun child hchild ↦ ?_
        · rw [hsame] at hnone ⊢
          refine hbad fun entry' hentry' ↦ ?_
          rw [hfound] at hentry'
          cases hentry'
          refine ⟨hactive.1, hactive.2.2, _, hnode, hactive.2.1, fun c hc ↦ ?_⟩
          rw [hnone] at hc
          cases hc
        · have hchild' : s.node entry.1 = some (child.toNode (t.contents entry.1)) := by
            rw [← hsame]
            exact node_of_mem hchild
          by_cases howner : creds.fsuid ≠ dir.uid ∧ creds.fsuid ≠ child.uid
          · rw [if_pos howner]
            refine Acts.bind (Q := fun _ _ ↦ False) (Acts.throw ht.sound ?_) (fun _ _ _ hf ↦ hf.elim)
            rw [hsame]
            refine hbad fun entry' hentry' ↦ ?_
            rw [hfound] at hentry'
            cases hentry'
            refine ⟨hactive.1, hactive.2.2, _, hnode, hactive.2.1, fun c hc ↦ ?_⟩
            rw [hchild'] at hc
            cases hc
            exact howner
          · rw [if_neg howner]
            apply Acts.pure_bind
            refine hok t ht hsame fun entry' hentry' hguard ↦ howner ?_
            rw [hfound] at hentry'
            cases hentry'
            obtain ⟨-, -, d, hd, -, hown⟩ := hguard
            rw [hnode] at hd
            cases hd
            exact hown _ hchild'
  · rw [if_neg hactive]
    apply Acts.pure_bind
    refine hok s h.kept rfl fun entry _ hguard ↦ hactive ?_
    obtain ⟨hperm, hsuper, d, hd, hsticky, -⟩ := hguard
    rw [hnode] at hd
    cases hd
    exact ⟨hperm, hsticky, hsuper⟩

theorem Acts.checkRemovable {rmdir : Bool} {entry : ℕ × FileType} (h : s.Sound)
    (hentry : entry.1 < s.sb.nextInode) (hbad : ¬s.node.Removable rmdir entry → E s.node)
    (hok : ∀ t, Steady s t → t.node = s.node → s.node.Removable rmdir entry → Acts (f ()) t R E) :
    Acts (Inner.checkRemovable rmdir entry.1 entry.2 >>= f) s R E := by
  have hthrow : ∀ {e : Error} {t : Inner}, Steady s t → t.node = s.node → ¬s.node.Removable rmdir entry →
      Acts ((Exec.throw e : Fs Unit) >>= f) t R E := by
    intro e t ht hsame hnot
    refine Acts.bind (Q := fun _ _ ↦ False) (Acts.throw ht.sound ?_) (fun _ _ _ hf ↦ hf.elim)
    rw [hsame]
    exact hbad hnot
  unfold Inner.checkRemovable Nodes.Removable at *
  cases rmdir with
  | true =>
    rw [if_pos rfl] at hok hbad hthrow ⊢
    by_cases hdir : entry.2.isDir = false
    · rw [if_pos hdir]
      refine hthrow h.kept rfl fun hand ↦ ?_
      rw [hdir] at hand
      cases hand.1
    · rw [if_neg hdir, bind_assoc]
      refine Acts.parseDir h hentry (fun hnone ↦ hbad ?_) fun entries t ht hsame hes ↦ ?_
      · rintro ⟨-, entries, hentries, -⟩
        rw [hnone] at hentries
        cases hentries
      · cases hextra : hasExtra entries with
        | true =>
          refine hthrow ht hsame ?_
          rintro ⟨-, entries', hentries', hextra'⟩
          rw [hes] at hentries'
          cases hentries'
          rw [hextra] at hextra'
          cases hextra'
        | false => exact hok t ht hsame ⟨Bool.eq_true_of_not_eq_false hdir, entries, hes, hextra⟩
  | false =>
    rw [if_neg Bool.false_ne_true] at hok hbad hthrow ⊢
    by_cases hdir : entry.2.isDir = true
    · rw [if_pos hdir]
      refine hthrow h.kept rfl fun hfalse ↦ ?_
      rw [hdir] at hfalse
      cases hfalse
    · rw [if_neg hdir]
      exact hok s h.kept rfl (Bool.eq_false_iff.mpr hdir)

end Rules

/-! ## Removing a name -/

theorem writable_of_allows {perm : Bool} {creds : Creds} (hmem : s.inodes.find? k = some i)
    (h : ∀ n, s.node k = some n → n.allows perm creds .write) : s.node.Writable perm k creds :=
  ⟨_, node_of_mem hmem, h _ (node_of_mem hmem)⟩

theorem not_writable_of_refused {perm : Bool} {creds : Creds}
    (h : ∀ n, s.node k = some n → ¬n.allows perm creds .write) : ¬s.node.Writable perm k creds := by
  rintro ⟨n, hn, hallows⟩
  exact h n hn hallows

theorem unlinkFind_acts (h : s.Sound) (hwritable : s.writable = true) (hbelow : s.NamesBelow) {parent : ℕ}
    (hparent : parent < s.sb.nextInode) (name : Bytes) (rmdir : Bool) (creds : Creds) :
    Acts (unlinkFind parent name rmdir creds) s
      (fun entry g ↦ g = s.node ∧ s.node.MayUnlink s.checkPerm parent name rmdir creds entry)
      (fun g ↦ g = s.node ∧ ∀ entry, ¬s.node.MayUnlink s.checkPerm parent name rmdir creds entry) := by
  unfold unlinkFind
  apply Acts.requireWrite hwritable
  refine Acts.validName h (fun hbad ↦ ⟨rfl, fun entry hmay ↦ hbad hmay.valid⟩) fun hvalid ↦ ?_
  refine Acts.getInode h hparent (fun hnone ↦ ⟨rfl, fun entry hmay ↦ ?_⟩) fun dir hdir ↦ ?_
  · obtain ⟨n, hn, -⟩ := hmay.access
    rw [hnone] at hn
    cases hn
  refine Acts.accessOk h hdir (fun hno ↦ ⟨rfl, fun entry hmay ↦ not_writable_of_refused hno hmay.access⟩) fun hyes ↦ ?_
  have haccess := writable_of_allows hdir hyes
  refine Acts.checkSticky h hbelow hparent hdir (fun hguard ↦ ⟨rfl, fun entry hmay ↦ ?_⟩) fun t ht hsame hfree ↦ ?_
  · exact hmay.sticky (hguard entry hmay.found)
  refine Acts.dirLookup ht.sound (ht.next hparent) (fun hnone ↦ ⟨hsame, fun entry hmay ↦ ?_⟩)
    fun entries u hu hsame' hentries ↦ ?_
  · have hfound := hmay.found
    unfold Nodes.lookup at hfound
    rw [← hsame, hnone] at hfound
    cases hfound
  have hnode := hsame'.trans hsame
  rw [hsame] at hentries
  have hlookup := Nodes.lookup_of_dir hentries name
  refine Acts.ofOption hu.sound (fun hnone ↦ ⟨hnode, fun entry hmay ↦ ?_⟩) fun entry hentry ↦ ?_
  · have hfound := hmay.found
    rw [hlookup.trans hnone] at hfound
    cases hfound
  have hlt := (ht.trans hu).next (hbelow.lookup hentries hentry)
  refine Acts.checkRemovable hu.sound hlt (fun hnot ↦ ⟨hnode, fun entry' hmay ↦ ?_⟩) fun v hv hsame'' hremovable ↦ ?_
  · have hfound := hmay.found
    rw [hlookup.trans hentry] at hfound
    cases hfound
    rw [hnode] at hnot
    exact hnot hmay.removable
  rw [hnode] at hremovable
  have hfound := hlookup.trans hentry
  exact Acts.pure hv.sound ⟨hsame''.trans hnode, hvalid, haccess, hfound, hfree entry hfound, hremovable⟩

/-! ## Moving a name -/

theorem climbs_acts (dir : ℕ) (guard : ℕ) : ∀ (s : Inner) (child : ℕ), s.Sound → s.NamesBelow →
    child < s.sb.nextInode → Acts (climbs dir guard child) s
      (fun inside g ↦ g = s.node ∧ s.node.climb dir guard child = some inside)
      (fun g ↦ g = s.node ∧ s.node.climb dir guard child = none) := by
  induction guard with
  | zero =>
    intro s child h _ _
    exact Acts.pure h ⟨rfl, rfl⟩
  | succ guard ih =>
    intro s child h hbelow hchild
    unfold climbs Nodes.climb
    by_cases hroot : child = rootIno
    · rw [if_pos hroot, if_pos hroot]
      exact Acts.pure h ⟨rfl, rfl⟩
    by_cases hself : child = dir
    · rw [if_neg hroot, if_neg hroot, if_pos hself, if_pos hself]
      exact Acts.pure h ⟨rfl, rfl⟩
    rw [if_neg hroot, if_neg hroot, if_neg hself, if_neg hself]
    refine Acts.dirLookup h hchild (fun hnone ↦ ⟨rfl, by rw [hnone]⟩) fun entries t ht hsame hdir ↦ ?_
    rw [hdir]
    dsimp only
    cases hentry : entryNamed entries dotdotName with
    | none => exact Acts.pure ht.sound ⟨hsame, rfl⟩
    | some entry =>
      have hlt := ht.next (hbelow.lookup hdir hentry)
      have hrest := ih t entry.1 ht.sound (hbelow.kept ht hsame) hlt
      rw [hsame] at hrest
      exact hrest

theorem replaceFind_acts (h : s.Sound) (hwritable : s.writable = true) (hbelow : s.NamesBelow) {newParent : ℕ}
    (hnew : newParent < s.sb.nextInode) (newName : Bytes) (src : ℕ × FileType) (creds : Creds) :
    Acts (replaceFind newParent newName src creds) s
      (fun r g ↦ g = s.node ∧ s.node.MayReplace s.checkPerm newParent newName creds src r)
      (fun g ↦ g = s.node ∧ ∀ r, ¬s.node.MayReplace s.checkPerm newParent newName creds src r) := by
  unfold replaceFind
  refine Acts.dirLookup h hnew (fun hnone ↦ ⟨rfl, ?_⟩) fun entries t ht hsame hdir ↦ ?_
  · have hlookup : s.node.lookup newParent newName = none := by
      unfold Nodes.lookup
      rw [hnone, Option.bind_none]
    rintro r (⟨hdest, -⟩ | ⟨hdir, -⟩ | ⟨-, -, hmay⟩)
    · rw [hlookup] at hdest
      cases hdest
    · rw [hnone] at hdir
      cases hdir
    · have hfound := hmay.found
      rw [hlookup] at hfound
      cases hfound
  have hlookup := Nodes.lookup_of_dir hdir newName
  cases hdest : entryNamed entries newName with
  | none => exact Acts.pure ht.sound ⟨hsame, .fresh hdir hdest⟩
  | some dest =>
    have hfound := hlookup.trans hdest
    -- every way to go on agrees about the target
    have hinv : ∀ r, s.node.MayReplace s.checkPerm newParent newName creds src r → src.1 = dest.1 ∨
        src.2.isDir = dest.2.isDir ∧
          s.node.MayUnlink s.checkPerm newParent newName dest.2.isDir creds dest := by
      rintro r (⟨hdest', hsrc⟩ | ⟨hdir', hnone⟩ | ⟨-, hkind, hmay⟩)
      · rw [hfound] at hdest'
        cases hdest'
        exact Or.inl hsrc
      · rw [hdir] at hdir'
        cases hdir'
        rw [hdest] at hnone
        cases hnone
      · have hmay' := hmay.found
        rw [hfound] at hmay'
        cases hmay'
        exact Or.inr ⟨hkind, hmay⟩
    dsimp only
    by_cases hsrc : src.1 = dest.1
    · rw [if_pos hsrc]
      exact Acts.pure ht.sound ⟨hsame, .linked hfound hsrc⟩
    rw [if_neg hsrc]
    by_cases hkind : src.2.isDir ≠ dest.2.isDir
    · rw [if_pos hkind]
      have hnot : ∀ r, ¬s.node.MayReplace s.checkPerm newParent newName creds src r :=
        fun r hr ↦ (hinv r hr).elim hsrc fun hr ↦ hkind hr.1
      split_ifs
      · exact Acts.throw ht.sound ⟨hsame, hnot⟩
      · exact Acts.throw ht.sound ⟨hsame, hnot⟩
    rw [if_neg hkind]
    have hlt := ht.next (hbelow.lookup hdir hdest)
    have hempty : Acts (Exec.when (dest.2.isDir = true) (do
        let entries ← parseDir dest.1
        if hasExtra entries then Exec.throw Error.enotempty else pure ())) t (fun _ g ↦ g = s.node)
        (fun g ↦ g = s.node ∧ ∀ r, ¬s.node.MayReplace s.checkPerm newParent newName creds src r) := by
      unfold Exec.when
      by_cases hisDir : dest.2.isDir = true
      · have hremovable : ∀ r, s.node.MayReplace s.checkPerm newParent newName creds src r →
            ∃ es, s.node.dir dest.1 = some es ∧ hasExtra es = false := by
          intro r hr
          have hmay := ((hinv r hr).resolve_left hsrc).2.removable
          unfold Nodes.Removable at hmay
          rw [if_pos hisDir] at hmay
          exact hmay.2
        rw [if_pos hisDir]
        refine Acts.parseDir ht.sound hlt (fun hnone ↦ ⟨hsame, fun r hr ↦ ?_⟩) fun es u hu hsame' hes ↦ ?_
        · obtain ⟨es, hes, -⟩ := hremovable r hr
          rw [← hsame, hnone] at hes
          cases hes
        · have hnode := hsame'.trans hsame
          rw [hsame] at hes
          cases hextra : hasExtra es with
          | true =>
            refine Acts.throw hu.sound ⟨hnode, fun r hr ↦ ?_⟩
            obtain ⟨es', hes', hextra'⟩ := hremovable r hr
            rw [hes] at hes'
            cases hes'
            rw [hextra] at hextra'
            cases hextra'
          | false => exact Acts.pure hu.sound hnode
      · rw [if_neg hisDir]
        exact Acts.pure ht.sound hsame
    refine hempty.bind fun _ u hu hnode ↦ ?_
    have hall := ht.trans hu
    have hfind := unlinkFind_acts hu.sound (hall.writable hwritable) (hbelow.kept hall hnode) (hall.next hnew)
      newName dest.2.isDir creds
    rw [hnode, hall.checkPerm] at hfind
    apply Acts.bind (hfind.mono (fun _ _ hq ↦ hq) fun g hg ↦
      ⟨hg.1, fun r hr ↦ hg.2 dest ((hinv r hr).resolve_left hsrc).2⟩)
    rintro entry v hv ⟨hnode', hmay⟩
    have hentry := hmay.found
    rw [hfound] at hentry
    cases hentry
    exact Acts.pure hv.sound ⟨hnode', .replaces hsrc (not_not.mp hkind) hmay⟩

theorem renameFind_acts (h : s.Sound) (hwritable : s.writable = true) (hbelow : s.NamesBelow)
    {oldParent newParent : ℕ} (hold : oldParent < s.sb.nextInode) (hnew : newParent < s.sb.nextInode)
    (oldName newName : Bytes) (creds : Creds) :
    Acts (renameFind oldParent oldName newParent newName creds) s
      (fun r g ↦ g = s.node ∧ s.node.MayRename s.checkPerm oldParent oldName newParent newName creds r)
      (fun g ↦ g = s.node ∧
        ∀ r, ¬s.node.MayRename s.checkPerm oldParent oldName newParent newName creds r) := by
  unfold renameFind
  apply Acts.requireWrite hwritable
  refine Acts.validName h (fun hbad ↦ ⟨rfl, Nodes.not_mayRename fun src hc ↦ hbad hc.oldValid⟩) fun hvalid ↦ ?_
  refine Acts.validName h (fun hbad ↦ ⟨rfl, Nodes.not_mayRename fun src hc ↦ hbad hc.newValid⟩) fun hvalid' ↦ ?_
  refine Acts.getInode h hold (fun hnone ↦ ⟨rfl, Nodes.not_mayRename fun src hc ↦ ?_⟩) fun od hod ↦ ?_
  · obtain ⟨n, hn, -⟩ := hc.oldAccess
    rw [hnone] at hn
    cases hn
  refine Acts.getInode h hnew (fun hnone ↦ ⟨rfl, Nodes.not_mayRename fun src hc ↦ ?_⟩) fun nd hnd ↦ ?_
  · obtain ⟨n, hn, -⟩ := hc.newAccess
    rw [hnone] at hn
    cases hn
  refine Acts.accessOk h hod (fun hno ↦ ⟨rfl, Nodes.not_mayRename fun src hc ↦
    not_writable_of_refused hno hc.oldAccess⟩) fun hyes ↦ ?_
  refine Acts.accessOk h hnd (fun hno ↦ ⟨rfl, Nodes.not_mayRename fun src hc ↦
    not_writable_of_refused hno hc.newAccess⟩) fun hyes' ↦ ?_
  refine Acts.dirLookup h hold (fun hnone ↦ ⟨rfl, Nodes.not_mayRename fun src hc ↦ ?_⟩)
    fun entries t ht hsame hdir ↦ ?_
  · have hfound := hc.found
    unfold Nodes.lookup at hfound
    rw [hnone] at hfound
    cases hfound
  have hlookup := Nodes.lookup_of_dir hdir oldName
  refine Acts.ofOption ht.sound (fun hnone ↦ ⟨hsame, Nodes.not_mayRename fun src hc ↦ ?_⟩) fun src hsrc ↦ ?_
  · have hfound := hc.found
    rw [hlookup, hnone] at hfound
    cases hfound
  have hchecked : s.node.RenameChecked s.checkPerm oldParent oldName newParent newName creds src :=
    ⟨hvalid, hvalid', writable_of_allows hod hyes, writable_of_allows hnd hyes', hlookup.trans hsrc⟩
  by_cases hself : oldParent = newParent ∧ oldName = newName
  · rw [if_pos hself]
    exact Acts.pure ht.sound ⟨hsame, .same hchecked hself⟩
  rw [if_neg hself]
  -- a rename that goes on moves this source, and not below itself
  have hinv : ∀ r, s.node.MayRename s.checkPerm oldParent oldName newParent newName creds r →
      s.node.Outside src newParent ∧ s.node.MayReplace s.checkPerm newParent newName creds src r := by
    rintro r (⟨-, hsame⟩ | ⟨hc, -, hout, hr⟩)
    · exact absurd hsame hself
    · rw [hchecked.src_eq hc]
      exact ⟨hout, hr⟩
  have hreplace : ∀ u, Steady s u → u.node = s.node → s.node.Outside src newParent →
      Acts (replaceFind newParent newName src creds) u
        (fun r g ↦ g = s.node ∧ s.node.MayRename s.checkPerm oldParent oldName newParent newName creds r)
        (fun g ↦ g = s.node ∧
          ∀ r, ¬s.node.MayRename s.checkPerm oldParent oldName newParent newName creds r) := by
    intro u hu hnode hout
    have hfind := replaceFind_acts hu.sound (hu.writable hwritable) (hbelow.kept hu hnode) (hu.next hnew) newName src creds
    rw [hnode, hu.checkPerm] at hfind
    exact hfind.mono (fun r g hq ↦ ⟨hq.1, .proceeds hchecked hself hout hq.2⟩)
      (fun g hg ↦ ⟨hg.1, fun r hr ↦ hg.2 r (hinv r hr).2⟩)
  by_cases hisDir : src.2.isDir = true
  · rw [if_pos hisDir]
    have hclimb := climbs_acts src.1 4096 t newParent ht.sound (hbelow.kept ht hsame) (ht.next hnew)
    rw [hsame] at hclimb
    have hblocked : s.node.climb src.1 4096 newParent ≠ some false →
        ∀ r, ¬s.node.MayRename s.checkPerm oldParent oldName newParent newName creds r :=
      fun hne r hr ↦ hne ((hinv r hr).1 hisDir)
    apply Acts.bind (hclimb.mono (fun _ _ hq ↦ hq) fun g hg ↦
      ⟨hg.1, hblocked (by rw [hg.2]; exact fun hf ↦ by cases hf)⟩)
    rintro inside u hu ⟨hnode, hinside⟩
    cases inside with
    | true => exact Acts.throw hu.sound ⟨hnode, hblocked (by rw [hinside]; decide)⟩
    | false => exact hreplace u (ht.trans hu) hnode fun _ ↦ hinside
  · rw [if_neg hisDir]
    exact hreplace t ht hsame fun hf ↦ absurd hf hisDir

end Inner

end LinuxFile
