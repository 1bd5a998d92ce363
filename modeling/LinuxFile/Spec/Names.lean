import LinuxFile.Spec.Tidy

/-!
# What the name operations do to the nodes

The operations on names are sequences of a few steps: look a name up, check a permission, rewrite a directory,
change a link count. Each step has a rule that says which nodes it leaves, when it returns and when it fails, and
the operations are put together from the rules.
-/

namespace LinuxFile

/-! ## Nodes -/

namespace Nodes

variable {f : Nodes} {k : ℕ} {n : Node}

/-- The entry a directory has under a name. -/
def lookup (f : Nodes) (k : ℕ) (name : Bytes) : Option (ℕ × FileType) := (f.dir k).bind (entryNamed · name)

/-- Change a node that is there. -/
def edit (f : Nodes) (k : ℕ) (g : Node → Node) : Nodes := Function.update f k ((f k).map g)

/-- Give a directory other entries. -/
def list (f : Nodes) (k : ℕ) (entries : List DirEntry) : Nodes :=
  f.edit k (fun n ↦ { n with bytes := encodeDir entries })

def links (f : Nodes) (k : ℕ) (g : ℕ → ℕ) : Nodes := f.edit k (fun n ↦ { n with nlink := g n.nlink })

theorem edit_self (f : Nodes) (k : ℕ) (g : Node → Node) : f.edit k g k = (f k).map g := Function.update_self ..

theorem edit_of_ne {k' : ℕ} (h : k' ≠ k) (f : Nodes) (g : Node → Node) : f.edit k g k' = f k' :=
  Function.update_of_ne h ..

theorem edit_of_some (h : f k = some n) (g : Node → Node) : f.edit k g = Function.update f k (some (g n)) := by
  unfold edit
  rw [h, Option.map_some]

theorem edit_id (f : Nodes) (k : ℕ) : f.edit k id = f := by
  unfold edit
  rw [Option.map_id, id_eq, Function.update_eq_self]

theorem edit_ne_none (h : f k ≠ none) (k' : ℕ) (g : Node → Node) : f.edit k' g k ≠ none := by
  by_cases hk : k = k'
  · rw [hk, edit_self, ne_eq, Option.map_eq_none_iff, ← hk]
    exact h
  · rw [edit_of_ne hk]
    exact h

theorem lookup_of_dir {entries : List DirEntry} (h : f.dir k = some entries) (name : Bytes) :
    f.lookup k name = entryNamed entries name := by
  unfold lookup
  rw [h, Option.bind_some]

theorem dir_of_lookup {name : Bytes} {v : ℕ × FileType} (h : f.lookup k name = some v) :
    ∃ entries, f.dir k = some entries := by
  unfold lookup at h
  obtain ⟨entries, hdir, -⟩ := Option.bind_eq_some_iff.mp h
  exact ⟨entries, hdir⟩

end Nodes

theorem entryNamed_eq_none {entries : List DirEntry} {name : Bytes} :
    entryNamed entries name = none ↔ ¬entries.any (fun e ↦ e.name == name) = true := by
  unfold entryNamed
  rw [Option.map_eq_none_iff, List.find?_eq_none, List.any_eq_true]
  exact ⟨fun h ⟨e, he, heq⟩ ↦ h e he heq, fun h e he heq ↦ h ⟨e, he, heq⟩⟩

/-- The permission check of `access_ok`. -/
def Node.allows (n : Node) (perm : Bool) (creds : Creds) (acc : Access) : Prop :=
  perm = true → checkAccess n.mode n.uid n.gid creds acc = true

namespace Inner

variable {α β : Type} {s t u : Inner} {i : Inode} {k : ℕ}

/-! ## Steps -/

/-- A sound state with everything outside inodes, blocks and caches as before. -/
structure Steady (s t : Inner) : Prop where
  sound : t.Sound
  shell : SameShell s t

theorem Sound.kept (h : s.Sound) : Steady s s := ⟨h, SameShell.refl s⟩

theorem Steady.trans (hst : Steady s t) (htu : Steady t u) : Steady s u := ⟨htu.sound, hst.shell.trans htu.shell⟩

theorem Steady.next (h : Steady s t) (hk : k < s.sb.nextInode) : k < t.sb.nextInode := by
  rw [h.shell.sb]
  exact hk

theorem Steady.writable (h : Steady s t) (hwritable : s.writable = true) : t.writable = true := by
  rw [h.shell.writable]
  exact hwritable

theorem Steady.checkPerm (h : Steady s t) : t.checkPerm = s.checkPerm := by rw [h.shell]

theorem Becomes.kept {f : Nodes} (h : Becomes s f t) : Steady s t := ⟨h.sound, h.shell⟩

theorem Steady.becomes (h : Steady s t) : Becomes s t.node t := ⟨h.sound, h.shell, rfl⟩

/-- The call leaves a sound state whose nodes are as `Q` says if it returns, and as `E` says if it fails without
the host's fault. -/
def Acts (x : Fs α) (s : Inner) (Q : α → Nodes → Prop) (E : Nodes → Prop) : Prop :=
  x.Holds s (fun a t ↦ Steady s t ∧ Q a t.node) (fun e t ↦ e.IsHost ∨ Steady s t ∧ E t.node)

section Rules

variable {x : Fs α} {f : α → Fs β} {Q Q' : α → Nodes → Prop} {R : β → Nodes → Prop} {E E' : Nodes → Prop}

theorem Acts.mono (h : Acts x s Q E) (hQ : ∀ a g, Q a g → Q' a g) (hE : ∀ g, E g → E' g) : Acts x s Q' E' :=
  Exec.Holds.mono h (fun a _ ht ↦ ⟨ht.1, hQ a _ ht.2⟩) (fun _ _ he ↦ he.imp_right fun ht ↦ ⟨ht.1, hE _ ht.2⟩)

theorem Acts.bind (h : Acts x s Q E) (hf : ∀ a t, Steady s t → Q a t.node → Acts (f a) t R E) :
    Acts (x >>= f) s R E := by
  refine Exec.Holds.bind h ?_ (fun _ _ he ↦ he)
  rintro a t ⟨ht, hq⟩
  refine Exec.Holds.mono (hf a t ht hq) ?_ ?_
  · rintro b u ⟨hu, hr⟩
    exact ⟨ht.trans hu, hr⟩
  · rintro e u (he | ⟨hu, hr⟩)
    · exact Or.inl he
    · exact Or.inr ⟨ht.trans hu, hr⟩

theorem Acts.pure {a : α} (h : s.Sound) (hq : Q a s.node) : Acts (Pure.pure a) s Q E := ⟨h.kept, hq⟩

theorem Acts.throw {e : Error} (h : s.Sound) (he : E s.node) : Acts (Exec.throw e) s Q E := Or.inr ⟨h.kept, he⟩

theorem Acts.abort : Acts Exec.abort s Q E := trivial

theorem Acts.read {γ : Type} {v : Inner → γ} {f : γ → Fs β} (h : Acts (f (v s)) s R E) :
    Acts (Exec.read v >>= f) s R E := by
  unfold Acts
  rw [Exec.holds_bind, Exec.holds_read]
  exact h

theorem Acts.pure_bind {a : α} (h : Acts (f a) s R E) : Acts (Pure.pure a >>= f) s R E := by
  unfold Acts
  rw [Exec.holds_bind, Exec.holds_pure]
  exact h

theorem Acts.ofOption {e : Error} {a : Option α} (h : s.Sound) (hnone : a = none → E s.node)
    (hsome : ∀ v, a = some v → Acts (f v) s R E) : Acts (Exec.ofOption e a >>= f) s R E := by
  cases a with
  | none => exact Or.inr ⟨h.kept, hnone rfl⟩
  | some v => exact hsome v rfl

theorem Acts.requireWrite {f : Unit → Fs β} (hwritable : s.writable = true) (h : Acts (f ()) s R E) :
    Acts (Inner.requireWrite >>= f) s R E := by
  unfold Acts
  rw [Exec.holds_bind_of_ok (requireWrite_ok hwritable)]
  exact h

theorem Acts.validName {name : Bytes} {f : Unit → Fs β} (h : s.Sound)
    (hbad : validateName name ≠ .ok () → E s.node) (hok : validateName name = .ok () → Acts (f ()) s R E) :
    Acts (Exec.ofExcept (validateName name) >>= f) s R E := by
  cases hname : validateName name with
  | ok v => exact hok hname
  | error e => exact Or.inr ⟨h.kept, hbad (by rw [hname]; exact fun hf ↦ by cases hf)⟩

theorem Acts.getInode {f : Inode → Fs β} (h : s.Sound) (hk : k < s.sb.nextInode)
    (hnone : s.node k = none → E s.node) (hsome : ∀ i, s.inodes.find? k = some i → Acts (f i) s R E) :
    Acts (Inner.getInode k >>= f) s R E := by
  refine Exec.Holds.bind (h.getInode_finds hk) ?_ ?_
  · rintro i t ⟨hi, ht⟩
    rw [ht]
    exact hsome i hi
  · rintro e t (he | ⟨hi, ht⟩)
    · exact Or.inl he
    · refine Or.inr ⟨ht.kept, ?_⟩
      rw [ht.node]
      exact hnone (node_eq_none.mpr hi)

theorem Acts.parseDir {f : List DirEntry → Fs β} (h : s.Sound) (hk : k < s.sb.nextInode)
    (hnone : s.node.dir k = none → E s.node)
    (hsome : ∀ entries t, Steady s t → t.node = s.node → s.node.dir k = some entries → Acts (f entries) t R E) :
    Acts (Inner.parseDir k >>= f) s R E := by
  have hparse : Acts (Inner.parseDir k) s (fun entries g ↦ g = s.node ∧ s.node.dir k = some entries) E := by
    refine Exec.Holds.mono (parseDir_reads h hk) ?_ ?_
    · rintro entries t ⟨hes, ht⟩
      exact ⟨ht.kept, ht.node, hes⟩
    · rintro e t (he | ⟨hdir, ht⟩)
      · exact Or.inl he
      · refine Or.inr ⟨ht.kept, ?_⟩
        rw [ht.node]
        exact hnone hdir
  exact hparse.bind fun entries t ht hq ↦ hsome entries t ht hq.1 hq.2

theorem Acts.dirLookup {name : Bytes} {f : Option (ℕ × FileType) → Fs β} (h : s.Sound) (hk : k < s.sb.nextInode)
    (hnone : s.node.dir k = none → E s.node)
    (hsome : ∀ entries t, Steady s t → t.node = s.node → s.node.dir k = some entries →
      Acts (f (entryNamed entries name)) t R E) :
    Acts (Inner.dirLookup k name >>= f) s R E := by
  have hlookup : Acts (Inner.dirLookup k name) s
      (fun found g ↦ g = s.node ∧ ∃ entries, s.node.dir k = some entries ∧ found = entryNamed entries name) E := by
    refine Exec.Holds.mono (dirLookup_reads h hk name) ?_ ?_
    · rintro found t ⟨hes, ht⟩
      exact ⟨ht.kept, ht.node, hes⟩
    · rintro e t (he | ⟨hdir, ht⟩)
      · exact Or.inl he
      · refine Or.inr ⟨ht.kept, ?_⟩
        rw [ht.node]
        exact hnone hdir
  refine hlookup.bind ?_
  rintro _ t ht ⟨hnode, entries, hes, rfl⟩
  exact hsome entries t ht hnode hes

theorem Acts.accessOk {creds : Creds} {acc : Access} {f : Unit → Fs β} (h : s.Sound)
    (hmem : s.inodes.find? k = some i)
    (hno : (∀ n, s.node k = some n → ¬n.allows s.checkPerm creds acc) → E s.node)
    (hyes : (∀ n, s.node k = some n → n.allows s.checkPerm creds acc) → Acts (f ()) s R E) :
    Acts (Inner.accessOk i creds acc >>= f) s R E := by
  have hnode := node_of_mem hmem
  unfold Inner.accessOk
  unfold Acts
  rw [Exec.holds_bind, Exec.holds_bind, Exec.holds_read]
  split_ifs with hperm haccess
  · refine hyes fun n _ hp ↦ ?_
    rw [hperm] at hp
    cases hp
  · refine hyes fun n hn _ ↦ ?_
    rw [hnode] at hn
    cases hn
    exact haccess
  · refine Or.inr ⟨h.kept, hno fun n hn hallows ↦ ?_⟩
    rw [hnode] at hn
    cases hn
    exact haccess (hallows (Bool.eq_true_of_not_eq_false hperm))

end Rules

/-! ## Changes of one node -/

theorem Sound.bytes_length (h : s.Sound) {n : Node} (hn : s.node k = some n) : n.bytes.length ≤ maxFileSize := by
  obtain ⟨i, hi, rfl⟩ := mem_of_node hn
  have hlen : (s.contents k).length = i.size := contents_length hi
  exact hlen.le.trans (h.wf hi).size_le

theorem getInodeMut_acts (h : s.Sound) (hk : k < s.sb.nextInode) {change : Inode → Inode} {g : Node → Node}
    (hbody : ∀ i : Inode, i.SameBody (change i))
    (hg : ∀ (i : Inode) bytes, (change i).toNode bytes = g (i.toNode bytes)) :
    Acts (getInodeMut k change) s (fun _ f ↦ f = s.node.edit k g ∧ s.node k ≠ none)
      (fun f ↦ f = s.node ∧ s.node k = none) := by
  refine Exec.Holds.mono (getInodeMut_touches h hk hbody hg) ?_ ?_
  · rintro _ t ⟨n, hn, ht⟩
    refine ⟨ht.kept, ?_, by rw [hn]; exact Option.some_ne_none n⟩
    rw [ht.node, Nodes.edit_of_some hn]
  · rintro e t (he | ⟨hn, ht⟩)
    · exact Or.inl he
    · exact Or.inr ⟨ht.kept, ht.node, hn⟩

theorem touchDir_acts (h : s.Sound) (hk : k < s.sb.nextInode) :
    Acts (touchDir k) s (fun _ f ↦ f = s.node) (fun f ↦ f = s.node ∧ s.node k = none) := by
  unfold touchDir
  apply Acts.read
  have htouch : Acts (getInodeMut k (fun i ↦ i.touchMtime s.env.now)) s
      (fun _ f ↦ f = s.node.edit k id ∧ s.node k ≠ none) (fun f ↦ f = s.node ∧ s.node k = none) :=
    getInodeMut_acts h hk (fun _ ↦ rfl) (fun _ _ ↦ rfl)
  refine htouch.mono ?_ (fun _ he ↦ he)
  rintro _ f ⟨rfl, -⟩
  exact Nodes.edit_id _ _

section Links

variable (touch : Timespec → Inode → Inode) (hbody : ∀ now (i : Inode), i.SameBody (touch now i))
  (hnode : ∀ now (i : Inode) bytes, (touch now i).toNode bytes = i.toNode bytes)

include hbody hnode

theorem dropLink_acts (h : s.Sound) (hk : k < s.sb.nextInode) :
    Acts (dropLink k touch) s (fun _ f ↦ f = s.node.links k (· - 1) ∧ s.node k ≠ none)
      (fun f ↦ f = s.node ∧ s.node k = none) := by
  unfold dropLink
  apply Acts.read
  refine getInodeMut_acts h hk (fun i ↦ ?_) (fun i bytes ↦ ?_)
  · rw [hbody s.env.now { i with nlink := i.nlink - 1 }]
    rfl
  · rw [hnode]
    rfl

theorem addLink_acts (h : s.Sound) (hk : k < s.sb.nextInode) :
    Acts (addLink k touch) s (fun _ f ↦ f = s.node.links k (· + 1) ∧ s.node k ≠ none)
      (fun f ↦ f = s.node ∧ s.node k = none) := by
  unfold addLink
  refine Acts.getInode h hk (fun hn ↦ ⟨rfl, hn⟩) fun i hi ↦ ?_
  unfold addU32
  by_cases hlimit : u32Limit ≤ i.nlink + 1
  · rw [if_pos hlimit]
    exact Acts.abort
  · rw [if_neg hlimit]
    apply Acts.pure_bind
    apply Acts.read
    refine (getInodeMut_acts h hk (g := fun n ↦ { n with nlink := i.nlink + 1 }) (fun j ↦ ?_)
      (fun j bytes ↦ ?_)).mono ?_ (fun _ he ↦ he)
    · rw [hbody s.env.now { j with nlink := i.nlink + 1 }]
      rfl
    · rw [hnode]
      rfl
    · rintro _ f ⟨rfl, hne⟩
      refine ⟨?_, hne⟩
      unfold Nodes.links
      rw [Nodes.edit_of_some (node_of_mem hi), Nodes.edit_of_some (node_of_mem hi)]
      rfl

end Links

/-! ## Changes of a directory -/

theorem writeDirEntries_acts (h : s.Sound) (hwritable : s.writable = true) (hmem : s.inodes.find? k = some i)
    (entries : List DirEntry) :
    Acts (writeDirEntries k i entries) s (fun _ f ↦ f = s.node.list k entries)
      (fun f ↦ maxFileSize < (encodeDir entries).length ∧ f = s.node.edit k (fun n ↦ { n with bytes := [] })) := by
  have hnode := node_of_mem hmem
  refine Exec.Holds.mono (writeDirEntries_writes h hwritable hmem hnode entries) ?_ ?_
  · rintro _ t ⟨-, ht⟩
    refine ⟨ht.kept, ?_⟩
    unfold Nodes.list
    rw [ht.node, Nodes.edit_of_some hnode]
  · rintro e t (he | ⟨hlong, ht⟩)
    · exact Or.inl he
    · refine Or.inr ⟨ht.kept, hlong, ?_⟩
      rw [ht.node, Nodes.edit_of_some hnode]

/-- A directory whose entries do not fit into a file is left empty. -/
def Overfull (f : Nodes) (k : ℕ) (entries : List DirEntry) (g : Nodes) : Prop :=
  maxFileSize < (encodeDir entries).length ∧ g = f.edit k (fun n ↦ { n with bytes := [] })

theorem dirInsert_acts (h : s.Sound) (hwritable : s.writable = true) (hk : k < s.sb.nextInode) (name : Bytes)
    (child : ℕ) (ft : FileType) :
    Acts (dirInsert k name child ft) s
      (fun _ f ↦ ∃ entries, s.node.dir k = some entries ∧ entryNamed entries name = none ∧
        validateName name = .ok () ∧ f = s.node.list k (entries ++ [⟨child, ft, name⟩]))
      (fun f ↦ f = s.node ∧ (validateName name ≠ .ok () ∨ s.node.dir k = none ∨ s.node.lookup k name ≠ none) ∨
        ∃ entries, s.node.dir k = some entries ∧
          Overfull s.node k (entries ++ [⟨child, ft, name⟩]) f) := by
  unfold dirInsert
  refine Acts.validName h (fun hbad ↦ Or.inl ⟨rfl, Or.inl hbad⟩) fun hname ↦ ?_
  refine Acts.parseDir h hk (fun hdir ↦ Or.inl ⟨rfl, Or.inr (Or.inl hdir)⟩) fun entries t ht hnode hdir ↦ ?_
  split_ifs with hexists
  · refine Acts.throw ht.sound (Or.inl ⟨hnode, Or.inr (Or.inr ?_)⟩)
    rw [Nodes.lookup_of_dir hdir, ne_eq, entryNamed_eq_none, not_not]
    exact hexists
  · have hsome : s.node k ≠ none := by
      intro hnone
      rw [Nodes.dir_of_none hnone] at hdir
      cases hdir
    refine Acts.getInode ht.sound (ht.next hk) (fun hnone ↦ absurd (hnode ▸ hnone) hsome) fun i hi ↦ ?_
    refine ((writeDirEntries_acts ht.sound (ht.writable hwritable) hi _).mono (fun _ _ hf ↦ hf) fun f hf ↦
      Or.inr ⟨entries, hdir, hf.1, hnode ▸ hf.2⟩).bind ?_
    intro _ u hu hlisted
    refine (touchDir_acts hu.sound (hu.next (ht.next hk))).mono ?_ ?_
    · rintro _ f rfl
      refine ⟨entries, hdir, entryNamed_eq_none.mpr hexists, hname, ?_⟩
      rw [hlisted, hnode]
    · rintro f ⟨-, hnone⟩
      rw [hlisted, hnode] at hnone
      exact absurd hnone (Nodes.edit_ne_none hsome k _)

theorem dirRemove_acts (h : s.Sound) (hwritable : s.writable = true) (hk : k < s.sb.nextInode) (name : Bytes) :
    Acts (dirRemove k name) s
      (fun entry f ↦ ∃ entries, s.node.dir k = some entries ∧ entryNamed entries name = some entry ∧
        f = s.node.list k (entries.eraseP (fun e ↦ e.name == name)))
      (fun f ↦ f = s.node ∧ s.node.lookup k name = none) := by
  unfold dirRemove
  refine Acts.parseDir h hk (fun hdir ↦ ⟨rfl, by unfold Nodes.lookup; rw [hdir]; rfl⟩) fun entries t ht hnode hdir ↦ ?_
  refine Acts.ofOption ht.sound (fun hnone ↦ ⟨hnode, ?_⟩) fun entry hentry ↦ ?_
  · rw [Nodes.lookup_of_dir hdir]
    unfold entryNamed
    rw [hnone, Option.map_none]
  · obtain ⟨n, hn⟩ : ∃ n, s.node k = some n := by
      cases hn : s.node k with
      | none =>
        rw [Nodes.dir_of_none hn] at hdir
        cases hdir
      | some n => exact ⟨n, rfl⟩
    have hsome : s.node k ≠ none := by rw [hn]; exact Option.some_ne_none n
    have hroom : (encodeDir (entries.eraseP (fun e ↦ e.name == name))).length ≤ maxFileSize := by
      rw [Nodes.dir_of_some hn] at hdir
      unfold Node.entries at hdir
      split_ifs at hdir
      cases hdecode : decodeDir n.bytes with
      | error e =>
        rw [hdecode] at hdir
        cases hdir
      | ok es =>
        rw [hdecode] at hdir
        cases hdir
        exact (encodeDir_eraseP_length hdecode hentry).trans (h.bytes_length hn)
    refine Acts.getInode ht.sound (ht.next hk) (fun hnone ↦ absurd (hnode ▸ hnone) hsome) fun i hi ↦ ?_
    refine ((writeDirEntries_acts ht.sound (ht.writable hwritable) hi _).mono (fun _ _ hf ↦ hf) fun f hf ↦
      absurd hf.1 (by omega)).bind ?_
    intro _ u hu hlisted
    refine ((touchDir_acts hu.sound (hu.next (ht.next hk))).mono (fun _ _ hf ↦ hf) fun f hf ↦ ?_).bind ?_
    · obtain ⟨-, hnone⟩ := hf
      rw [hlisted, hnode] at hnone
      exact absurd hnone (Nodes.edit_ne_none hsome k _)
    · intro _ v hv htouched
      refine Acts.pure hv.sound ⟨entries, hdir, ?_, ?_⟩
      · unfold entryNamed
        rw [hentry, Option.map_some]
      · rw [htouched, hlisted, hnode]

end Inner

end LinuxFile
