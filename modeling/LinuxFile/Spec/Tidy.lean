import LinuxFile.Spec.Listing
import LinuxFile.Spec.Syncing

/-!
# States whose directories name numbers that were given out

`Tidy` is what a run keeps: the state is sound, every entry of every directory names a number below the next
one, no directory has a name twice, and an inode kept for its open files is there. A call that `Stays` keeps the state tidy, whether it returns
or fails, as long as the host does not fail.
-/

namespace LinuxFile

namespace Inner

variable {α β : Type} {s t u : Inner} {i i' : Inode} {ino k : ℕ}

/-- The entries name numbers that were given out, and no name stands twice. -/
structure Listed (next : ℕ) (entries : List DirEntry) : Prop where
  below : ∀ e ∈ entries, e.ino < next
  distinct : (entries.map DirEntry.name).Nodup

theorem Listed.sublist {next : ℕ} {entries part : List DirEntry} (h : Listed next entries)
    (hpart : part.Sublist entries) : Listed next part :=
  ⟨fun e he ↦ h.below e (hpart.mem he), h.distinct.sublist (hpart.map _)⟩

theorem Listed.mono {next next' : ℕ} {entries : List DirEntry} (h : Listed next entries) (hle : next ≤ next') :
    Listed next' entries :=
  ⟨fun e he ↦ (h.below e he).trans_le hle, h.distinct⟩

theorem Listed.append {next child : ℕ} {entries : List DirEntry} (h : Listed next entries) {name : Bytes}
    {ft : FileType} (hchild : child < next) (hnew : ¬entries.any (fun e ↦ e.name == name) = true) :
    Listed next (entries ++ [⟨child, ft, name⟩]) := by
  refine ⟨fun e he ↦ ?_, ?_⟩
  · rcases List.mem_append.mp he with he | he
    · exact h.below e he
    · rw [List.mem_singleton.mp he]
      exact hchild
  · rw [List.map_append, List.nodup_append]
    refine ⟨h.distinct, List.nodup_singleton _, fun a ha b hb ↦ ?_⟩
    obtain ⟨e, he, rfl⟩ := List.mem_map.mp ha
    rw [List.map_singleton, List.mem_singleton] at hb
    rintro rfl
    exact hnew (List.any_eq_true.mpr ⟨e, he, beq_iff_eq.mpr hb⟩)

theorem Listed.rename {next : ℕ} {entries : List DirEntry} (h : Listed next entries) {g : DirEntry → DirEntry}
    (hname : ∀ e, (g e).name = e.name) (hino : ∀ e ∈ entries, (g e).ino < next) : Listed next (entries.map g) := by
  refine ⟨fun e he ↦ ?_, ?_⟩
  · obtain ⟨x, hx, rfl⟩ := List.mem_map.mp he
    exact hino x hx
  · rw [List.map_map]
    have hsame : DirEntry.name ∘ g = DirEntry.name := funext hname
    rw [hsame]
    exact h.distinct

structure Tidy (s : Inner) : Prop where
  sound : s.Sound
  writable : s.writable = true
  inRange : s.sb.InRange
  names : ∀ k entries, s.node.dir k = some entries → Listed s.sb.nextInode entries
  orphans : ∀ k, s.orphans.contains k = true → 0 < s.opens k ∧ ∃ n, s.node k = some n

/-- A later tidy state. -/
def Onward (s t : Inner) : Prop := t.Tidy ∧ s.sb.nextInode ≤ t.sb.nextInode

theorem Tidy.onward (h : s.Tidy) : Onward s s := ⟨h, le_rfl⟩

theorem Onward.trans (hst : Onward s t) (htu : Onward t u) : Onward s u := ⟨htu.1, hst.2.trans htu.2⟩

theorem Onward.lt (h : Onward s t) (hk : k < s.sb.nextInode) : k < t.sb.nextInode := hk.trans_le h.2

/-- The call keeps the state tidy unless the host fails; `Q` holds of what it answers. -/
def Stays (x : Fs α) (s : Inner) (Q : α → Inner → Prop) : Prop :=
  x.Holds s (fun a t ↦ Onward s t ∧ Q a t) (fun e t ↦ e.IsHost ∨ Onward s t)

section Rules

variable {x : Fs α} {f : α → Fs β} {Q Q' : α → Inner → Prop} {R : β → Inner → Prop}

theorem Stays.bind (h : Stays x s Q) (hf : ∀ a t, Onward s t → Q a t → Stays (f a) t R) :
    Stays (x >>= f) s R := by
  refine Exec.Holds.bind h ?_ (fun _ _ he ↦ he)
  rintro a t ⟨ht, hq⟩
  refine Exec.Holds.mono (hf a t ht hq) ?_ ?_
  · rintro b u ⟨hu, hr⟩
    exact ⟨ht.trans hu, hr⟩
  · rintro e u (he | hu)
    · exact Or.inl he
    · exact Or.inr (ht.trans hu)

theorem Stays.pure {a : α} (h : s.Tidy) (hq : Q a s) : Stays (Pure.pure a) s Q := ⟨h.onward, hq⟩

theorem Stays.throw {e : Error} (h : s.Tidy) : Stays (Exec.throw e) s Q := Or.inr h.onward

theorem Stays.abort : Stays Exec.abort s Q := trivial

theorem Stays.read {γ : Type} {g : Inner → γ} {f : γ → Fs β} (h : Stays (f (g s)) s R) :
    Stays (Exec.read g >>= f) s R := by
  unfold Stays
  rw [Exec.holds_bind, Exec.holds_read]
  exact h

theorem Stays.get {f : Inner → Fs β} (h : Stays (f s) s R) : Stays (Exec.get >>= f) s R := by
  unfold Stays
  rw [Exec.holds_bind, Exec.holds_get]
  exact h

theorem Stays.ofExcept {a : Except Error α} (h : s.Tidy) (hq : ∀ v, a = .ok v → Q v s) :
    Stays (Exec.ofExcept a) s Q := by
  cases a with
  | ok v => exact ⟨h.onward, hq v rfl⟩
  | error e => exact Or.inr h.onward

theorem Stays.ofOption {e : Error} {a : Option α} (h : s.Tidy) (hq : ∀ v, a = some v → Q v s) :
    Stays (Exec.ofOption e a) s Q := by
  cases a with
  | some v => exact ⟨h.onward, hq v rfl⟩
  | none => exact Or.inr h.onward

theorem Stays.when {c : Prop} [Decidable c] {y : Fs Unit} {R : Unit → Inner → Prop} (h : s.Tidy)
    (hy : c → Stays y s R) (hn : ¬c → R () s) : Stays (Exec.when c y) s R := by
  unfold Exec.when
  split_ifs with hc
  · exact hy hc
  · exact ⟨h.onward, hn hc⟩

end Rules

/-! ## Calls that look -/

/-- The state outside of inodes, blocks and caches is as before, and so are the names. -/
theorem Tidy.becomes (h : s.Tidy) {f : Nodes} (ht : Becomes s f t)
    (hnames : ∀ k entries, f.dir k = some entries → Listed s.sb.nextInode entries)
    (hlive : ∀ k n, s.node k = some n → ∃ n', f k = some n') : Onward s t := by
  have hsb : t.sb = s.sb := ht.shell.sb
  have horphans : t.orphans = s.orphans := by rw [ht.shell]
  have hopens : t.openCount = s.openCount := by rw [ht.shell]
  refine ⟨⟨ht.sound, by rw [ht.shell.writable]; exact h.writable, by rw [hsb]; exact h.inRange, ?_, ?_⟩, by rw [hsb]⟩
  · rw [ht.node, hsb]
    exact hnames
  · intro k hk
    rw [horphans] at hk
    unfold opens
    rw [hopens, ht.node]
    obtain ⟨hopen, n, hn⟩ := h.orphans k hk
    exact ⟨hopen, hlive k n hn⟩

theorem Tidy.looked (h : s.Tidy) (ht : Becomes s s.node t) : Onward s t :=
  h.becomes ht h.names fun _ n hn ↦ ⟨n, hn⟩

/-- One node changes. -/
theorem Tidy.changed (h : s.Tidy) {n : Node} (ht : Becomes s (Function.update s.node k (some n)) t)
    (hn : ∀ entries, n.entries = some entries → Listed s.sb.nextInode entries) : Onward s t := by
  refine h.becomes ht (fun k' entries hk' ↦ ?_) (fun k' n' hn' ↦ ?_)
  · unfold Nodes.dir at hk'
    by_cases hk : k' = k
    · rw [hk, Function.update_self] at hk'
      exact hn entries hk'
    · rw [Function.update_of_ne hk] at hk'
      exact h.names k' entries hk'
  · by_cases hk : k' = k
    · exact ⟨n, by rw [hk, Function.update_self]⟩
    · exact ⟨n', by rw [Function.update_of_ne hk]; exact hn'⟩

/-- A node that differs in its attributes only. -/
theorem Tidy.touched (h : s.Tidy) {n n' : Node} (hn : s.node k = some n) (hdir : n'.isDir = n.isDir)
    (hbytes : n'.bytes = n.bytes) (ht : Becomes s (Function.update s.node k (some n')) t) : Onward s t := by
  refine h.changed ht fun entries hentries ↦ h.names k entries ?_
  rw [Nodes.dir_of_some hn, ← hentries]
  unfold Node.entries
  rw [hdir, hbytes]

theorem getInode_stays (h : s.Tidy) (hk : k < s.sb.nextInode) :
    Stays (getInode k) s (fun i t ↦ t = s ∧ s.inodes.find? k = some i) := by
  refine (h.sound.getInode_finds hk).mono ?_ ?_
  · rintro i t ⟨hi, rfl⟩
    exact ⟨h.onward, rfl, hi⟩
  · rintro e t (he | ⟨-, ht⟩)
    · exact Or.inl he
    · exact Or.inr (h.looked ht)

/-- Entries that were read fit their fields. -/
theorem fits_of_dir {f : Nodes} {entries : List DirEntry} (h : f.dir k = some entries) :
    entries.length < 2 ^ 32 ∧ ∀ e ∈ entries, e.Fits := by
  unfold Nodes.dir at h
  obtain ⟨n, -, hn⟩ := Option.bind_eq_some_iff.mp h
  unfold Node.entries at hn
  split_ifs at hn
  cases hd : decodeDir n.bytes with
  | error e =>
    rw [hd] at hn
    cases hn
  | ok es =>
    rw [hd] at hn
    cases hn
    exact decodeDir_fits hd

theorem parseDir_stays (h : s.Tidy) (hk : k < s.sb.nextInode) :
    Stays (parseDir k) s (fun es t ↦ Listed t.sb.nextInode es ∧ (∀ e ∈ es, e.Fits) ∧ SameShell s t) := by
  refine (parseDir_reads h.sound hk).mono ?_ ?_
  · rintro es t ⟨hes, ht⟩
    have honward := h.looked ht
    exact ⟨honward, (h.names k es hes).mono honward.2, (fits_of_dir hes).2, ht.shell⟩
  · rintro e t (he | ⟨-, ht⟩)
    · exact Or.inl he
    · exact Or.inr (h.looked ht)

theorem dirLookup_stays (h : s.Tidy) (hk : k < s.sb.nextInode) (name : Bytes) :
    Stays (dirLookup k name) s (fun found t ↦ ∀ x, found = some x → x.1 < t.sb.nextInode) := by
  unfold dirLookup
  refine (parseDir_stays h hk).bind ?_
  rintro es t ht ⟨hes, -, -⟩
  refine Stays.pure ht.1 ?_
  rintro x hx
  obtain ⟨e, he, rfl⟩ := Option.map_eq_some_iff.mp hx
  exact hes.below e (List.mem_of_find?_eq_some he)

theorem requireWrite_stays (h : s.Tidy) : Stays requireWrite s (fun _ t ↦ t = s) := by
  unfold Stays
  rw [Exec.holds_iff_of_ok (requireWrite_ok h.writable)]
  exact ⟨h.onward, rfl⟩

theorem accessOk_stays (h : s.Tidy) (inode : Inode) (creds : Creds) (acc : Access) :
    Stays (accessOk inode creds acc) s (fun _ t ↦ t = s) := by
  unfold accessOk
  apply Stays.read
  split_ifs
  · exact Stays.pure h rfl
  · exact Stays.pure h rfl
  · exact Stays.throw h

/-! ## Calls that change a directory or an attribute -/

theorem getInodeMut_stays (h : s.Tidy) (hk : k < s.sb.nextInode) {change : Inode → Inode} (g : Node → Node)
    (hbody : ∀ i : Inode, i.SameBody (change i))
    (hg : ∀ (i : Inode) bytes, (change i).toNode bytes = g (i.toNode bytes))
    (hdir : ∀ n, (g n).isDir = n.isDir) (hbytes : ∀ n, (g n).bytes = n.bytes) :
    Stays (getInodeMut k change) s (fun _ _ ↦ True) := by
  refine (getInodeMut_touches h.sound hk hbody hg).mono ?_ ?_
  · rintro _ t ⟨n, hn, ht⟩
    exact ⟨h.touched hn (hdir n) (hbytes n) ht, trivial⟩
  · rintro e t (he | ⟨-, ht⟩)
    · exact Or.inl he
    · exact Or.inr (h.looked ht)

theorem touchDir_stays (h : s.Tidy) (hk : k < s.sb.nextInode) : Stays (touchDir k) s (fun _ _ ↦ True) := by
  unfold touchDir
  apply Stays.read
  exact getInodeMut_stays h hk id (fun _ ↦ rfl) (fun _ _ ↦ rfl) (fun _ ↦ rfl) (fun _ ↦ rfl)

theorem dropLink_stays (h : s.Tidy) (hk : k < s.sb.nextInode) (touch : Timespec → Inode → Inode)
    (hbody : ∀ now (i : Inode), i.SameBody (touch now i))
    (hnode : ∀ now (i : Inode) bytes, (touch now i).toNode bytes = i.toNode bytes) :
    Stays (dropLink k touch) s (fun _ _ ↦ True) := by
  unfold dropLink
  apply Stays.read
  refine getInodeMut_stays h hk (fun n ↦ { n with nlink := n.nlink - 1 }) (fun i ↦ ?_) (fun i bytes ↦ ?_)
    (fun _ ↦ rfl) (fun _ ↦ rfl)
  · rw [hbody s.env.now { i with nlink := i.nlink - 1 }]
    rfl
  · rw [hnode]
    rfl

theorem addLink_stays (h : s.Tidy) (hk : k < s.sb.nextInode) (touch : Timespec → Inode → Inode)
    (hbody : ∀ now (i : Inode), i.SameBody (touch now i))
    (hnode : ∀ now (i : Inode) bytes, (touch now i).toNode bytes = i.toNode bytes) :
    Stays (addLink k touch) s (fun _ _ ↦ True) := by
  unfold addLink
  refine (getInode_stays h hk).bind ?_
  rintro i t ht ⟨rfl, -⟩
  unfold addU32
  split_ifs
  · exact Stays.abort
  · refine (Stays.pure (Q := fun _ t ↦ t = _) h rfl).bind ?_
    rintro nlink u - rfl
    apply Stays.read
    refine getInodeMut_stays h hk (fun n ↦ { n with nlink := nlink }) (fun i ↦ ?_) (fun i bytes ↦ ?_)
      (fun _ ↦ rfl) (fun _ ↦ rfl)
    · rw [hbody u.env.now { i with nlink := nlink }]
      rfl
    · rw [hnode]
      rfl

theorem listed_empty (next : ℕ) {n : Node} (hbytes : n.bytes = []) {entries : List DirEntry}
    (h : n.entries = some entries) : Listed next entries := by
  unfold Node.entries at h
  split_ifs at h
  rw [hbytes] at h
  cases h
  exact ⟨fun e he ↦ absurd he List.not_mem_nil, List.nodup_nil⟩

theorem listed_encoded {next : ℕ} {n : Node} {es : List DirEntry} (hbytes : n.bytes = encodeDir es)
    (hfits : ∀ e ∈ es, e.Fits) (hes : Listed next es) {entries : List DirEntry}
    (h : n.entries = some entries) : Listed next entries := by
  unfold Node.entries at h
  split_ifs at h
  rw [hbytes, decodeDir_encodeDir hfits] at h
  cases h
  exact hes.sublist (List.take_sublist _ _)

theorem writeDirEntries_stays (h : s.Tidy) (hmem : s.inodes.find? k = some i) {es : List DirEntry}
    (hfits : ∀ e ∈ es, e.Fits) (hes : Listed s.sb.nextInode es) :
    Stays (writeDirEntries k i es) s (fun _ t ↦ SameShell s t) := by
  refine (writeDirEntries_writes h.sound h.writable hmem (node_of_mem hmem) es).mono ?_ ?_
  · rintro _ t ⟨-, ht⟩
    exact ⟨h.changed ht fun entries hentries ↦ listed_encoded rfl hfits hes hentries, ht.shell⟩
  · rintro e t (he | ⟨-, ht⟩)
    · exact Or.inl he
    · exact Or.inr (h.changed ht fun entries hentries ↦ listed_empty _ rfl hentries)

theorem validateName_length {name : Bytes} {v : Unit} (h : validateName name = .ok v) : name.length ≤ nameMax := by
  unfold validateName at h
  split_ifs at h
  omega

theorem dirInsert_stays (h : s.Tidy) (hk : k < s.sb.nextInode) {name : Bytes} {child : ℕ} (ft : FileType)
    (hchild : child < s.sb.nextInode) : Stays (dirInsert k name child ft) s (fun _ _ ↦ True) := by
  unfold dirInsert
  refine (Stays.ofExcept (Q := fun _ t ↦ t = s ∧ name.length ≤ nameMax) h
    fun v hv ↦ ⟨rfl, validateName_length hv⟩).bind ?_
  rintro _ _ - ⟨rfl, hname⟩
  refine (parseDir_stays h hk).bind ?_
  rintro es t ht ⟨hes, hfits, -⟩
  split_ifs with hexists
  · exact Stays.throw ht.1
  · refine (getInode_stays ht.1 (ht.lt hk)).bind ?_
    rintro i t' - ⟨rfl, hi⟩
    have hino := (ht.lt hchild).trans ht.1.inRange.nextInode
    have hnew : DirEntry.Fits ⟨child, ft, name⟩ := ⟨hino, hname.trans_lt (by decide)⟩
    refine (writeDirEntries_stays ht.1 hi (fun e he ↦ ?_) (hes.append (ht.lt hchild) hexists)).bind ?_
    · rcases List.mem_append.mp he with he | he
      · exact hfits e he
      · rw [List.mem_singleton.mp he]
        exact hnew
    · intro _ u hu _
      exact touchDir_stays hu.1 (hu.lt (ht.lt hk))

theorem dirRemove_stays (h : s.Tidy) (hk : k < s.sb.nextInode) (name : Bytes) :
    Stays (dirRemove k name) s (fun entry t ↦ entry.1 < t.sb.nextInode) := by
  unfold dirRemove
  refine (parseDir_stays h hk).bind ?_
  rintro es t ht ⟨hes, hfits, -⟩
  refine (Stays.ofOption (Q := fun e u ↦ u = t ∧ e.ino < t.sb.nextInode) ht.1
    fun e he ↦ ⟨rfl, hes.below e (List.mem_of_find?_eq_some he)⟩).bind ?_
  rintro entry _ - ⟨rfl, hentry⟩
  refine (getInode_stays ht.1 (ht.lt hk)).bind ?_
  rintro i t' - ⟨rfl, hi⟩
  refine (writeDirEntries_stays ht.1 hi (fun e he ↦ hfits e (List.mem_of_mem_eraseP he))
    (hes.sublist List.eraseP_sublist)).bind ?_
  intro _ u hu _
  refine (touchDir_stays hu.1 (hu.lt (ht.lt hk))).bind ?_
  intro _ v hv _
  exact Stays.pure hv.1 (hv.lt (hu.lt hentry))

/-! ## Numbers given out and taken back -/

theorem allocInode_stays (h : s.Tidy) (mode : UInt16) (uid gid : UInt32) :
    Stays (allocInode mode uid gid) s (fun ino t ↦ ino < t.sb.nextInode) := by
  refine (allocInode_adds h.sound mode uid gid).mono ?_ ?_
  · intro ino t ht
    have horphans : t.orphans = s.orphans := by rw [ht.same]
    have hopens : t.openCount = s.openCount := by rw [ht.same]
    refine ⟨⟨⟨ht.sound, by rw [ht.same]; exact h.writable, ht.inRange h.inRange, fun k entries hk ↦ ?_,
      fun k hk ↦ ?_⟩, ht.next⟩, ht.number⟩
    · rw [ht.node] at hk
      unfold Nodes.dir at hk
      by_cases hne : k = ino
      · rw [hne, Function.update_self] at hk
        exact listed_empty _ rfl hk
      · rw [Function.update_of_ne hne] at hk
        exact (h.names k entries hk).mono ht.next
    · rw [horphans] at hk
      obtain ⟨hopen, n, hn⟩ := h.orphans k hk
      have hne : k ≠ ino := by
        rintro rfl
        rw [ht.unused] at hn
        cases hn
      unfold opens
      rw [hopens, ht.node, Function.update_of_ne hne]
      exact ⟨hopen, n, hn⟩
  · rintro e t (he | rfl)
    · exact Or.inl he
    · exact Or.inr h.onward

theorem dropInode_stays (h : s.Tidy) (hk : k < s.sb.nextInode) (hclosed : s.orphans.contains k = false) :
    Stays (dropInode k) s (fun _ _ ↦ True) := by
  refine (dropInode_drops h.sound h.writable hk).mono ?_ ?_
  · rintro _ t ⟨-, ht⟩
    have hnext : t.sb.nextInode = s.sb.nextInode := by rw [ht.sb]
    have horphans : t.orphans = s.orphans := by rw [ht.same]
    have hopens : t.openCount = s.openCount := by rw [ht.same]
    refine ⟨⟨⟨ht.sound, by rw [ht.same]; exact h.writable, ht.inRange h.inRange, fun k' entries hk' ↦ ?_,
      fun k' hk' ↦ ?_⟩, hnext.ge⟩, trivial⟩
    · rw [ht.node] at hk'
      unfold Nodes.dir at hk'
      by_cases hne : k' = k
      · rw [hne, Function.update_self] at hk'
        cases hk'
      · rw [Function.update_of_ne hne] at hk'
        rw [hnext]
        exact h.names k' entries hk'
    · rw [horphans] at hk'
      have hne : k' ≠ k := by
        rintro rfl
        rw [hclosed] at hk'
        cases hk'
      unfold opens
      rw [hopens, ht.node, Function.update_of_ne hne]
      exact h.orphans k' hk'
  · rintro e t (he | ⟨-, ht⟩)
    · exact Or.inl he
    · exact Or.inr (h.looked ht)

/-- Open counts, orphans and the switch for permission checks are outside of what the soundness of a state
speaks of. -/
theorem Sound.aside (h : s.Sound) (counts : KeyMap ℕ) (orphans : KeyMap Unit) (enable : Bool) :
    Sound { s with openCount := counts, orphans := orphans, checkPerm := enable } := by
  have hinv : Inv { s with openCount := counts, orphans := orphans, checkPerm := enable } s.inodes [] := by
    have hi := h.inv
    refine ⟨{ hi.geometry with }, ⟨hi.owned.alloc, hi.owned.fits⟩, ?_, ?_⟩
    · exact { hi.numbered with
        record := fun c hc ↦ ⟨(hi.numbered.record c hc).length_le, (hi.numbered.record c hc).index_le,
          (hi.numbered.record c hc).owner⟩ }
    · exact hi.onDisk.congr rfl rfl (fun _ hj ↦ hj) (fun _ hj ↦ hj)
  exact ⟨hinv, fun k i hi ↦ (h.laid k i hi).congr rfl rfl rfl, h.inline, fun c hc ↦
    ⟨(h.held c hc).owner, (h.held c hc).length, (h.held c hc).clean⟩⟩

theorem Tidy.recount (h : s.Tidy) (counts : KeyMap ℕ) (orphans : KeyMap Unit)
    (horphans : ∀ k, orphans.contains k = true →
      0 < (counts.find? k).getD 0 ∧ ∃ n, s.node k = some n) :
    Onward s { s with openCount := counts, orphans := orphans } :=
  ⟨⟨h.sound.aside counts orphans s.checkPerm, h.writable, h.inRange, h.names, horphans⟩, le_rfl⟩

theorem Tidy.checked (h : s.Tidy) (enable : Bool) : Tidy { s with checkPerm := enable } :=
  ⟨h.sound.aside s.openCount s.orphans enable, h.writable, h.inRange, h.names, h.orphans⟩

theorem incOpen_stays (h : s.Tidy) (k : ℕ) : Stays (incOpen k) s (fun _ _ ↦ True) := by
  unfold incOpen addU32
  apply Stays.read
  split_ifs
  · exact Stays.abort
  · refine ⟨h.recount _ _ fun k' hk' ↦ ?_, trivial⟩
    obtain ⟨hopen, hn⟩ := h.orphans k' hk'
    refine ⟨?_, hn⟩
    rw [KeyMap.find?_insert]
    split_ifs
    · exact Nat.succ_pos _
    · exact hopen

theorem decOpen_stays (h : s.Tidy) (hk : k < s.sb.nextInode) : Stays (decOpen k) s (fun _ _ ↦ True) := by
  unfold decOpen
  apply Stays.get
  cases hcount : s.openCount.find? k with
  | none => exact Stays.pure h trivial
  | some count =>
    dsimp only
    split_ifs with hlast horphan
    · refine ⟨h.recount _ _ fun k' hk' ↦ ?_, trivial⟩
      obtain ⟨hopen, hn⟩ := h.orphans k' hk'
      refine ⟨?_, hn⟩
      rw [KeyMap.find?_insert]
      split_ifs
      · exact Nat.pos_of_ne_zero hlast
      · exact hopen
    · obtain ⟨-, n, hn⟩ := h.orphans k horphan
      obtain ⟨i, hi, -⟩ := mem_of_node hn
      have hclosed : Onward s { s with openCount := s.openCount.erase k, orphans := s.orphans.erase k } := by
        refine h.recount _ _ fun k' hk' ↦ ?_
        obtain ⟨hk', hne⟩ := (contains_erase _ _ _).mp hk'
        rw [KeyMap.find?_erase_of_ne hne]
        exact h.orphans k' hk'
      have hgone : (s.orphans.erase k).contains k = false := by
        rw [Bool.eq_false_iff]
        exact fun hc ↦ ((contains_erase _ _ _).mp hc).2 rfl
      set v : Inner := { s with openCount := s.openCount.erase k, orphans := s.orphans.erase k } with hv
      have hmem : v.inodes.find? k = some i := hi
      have hget : Exec.attempt (getInode k) v = .ok (.ok i) v := by
        unfold Exec.attempt
        rw [getInode_mem hmem]
      unfold Stays
      rw [Exec.holds_bind, Exec.holds_modify, Exec.holds_bind, Exec.holds_modify, Exec.holds_bind_of_ok hget]
      dsimp only
      have hrest : Stays (if i.nlink = 0 then dropInode k else Pure.pure () : Fs Unit) v (fun _ _ ↦ True) := by
        split_ifs
        · exact dropInode_stays hclosed.1 hk hgone
        · exact Stays.pure hclosed.1 trivial
      refine Exec.Holds.mono hrest ?_ ?_
      · rintro _ t ⟨ht, -⟩
        exact ⟨hclosed.trans ht, trivial⟩
      · rintro e t (he | ht)
        · exact Or.inl he
        · exact Or.inr (hclosed.trans ht)
    · refine ⟨h.recount _ _ fun k' hk' ↦ ?_, trivial⟩
      have hne : k' ≠ k := by
        rintro rfl
        exact horphan hk'
      rw [KeyMap.find?_erase_of_ne hne]
      exact h.orphans k' hk'

end Inner

end LinuxFile
