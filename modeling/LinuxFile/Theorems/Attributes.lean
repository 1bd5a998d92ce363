import LinuxFile.Spec.Names
import LinuxFile.Spec.Rereading
import LinuxFile.Spec.TidyRuns
import LinuxFile.Theorems.Sample
import LinuxFile.Theorems.SyncRoom

/-!
# Extended attributes survive a flush

`setxattr` takes any value, and `flush_all` stores the attributes of an inode in one block. A run of attribute
calls leaves attributes that a flush stores and that can be read back afterwards exactly when those of every
inode fit their block, and no inode has the mode that marks an unused slot.
-/

namespace LinuxFile

/-! ## Attribute lists -/

def xattrNamed (attrs : List (Bytes × Bytes)) (name : Bytes) : Option Bytes :=
  (attrs.find? (fun a ↦ a.1 == name)).map Prod.snd

/-- What `removexattr` does to it. -/
def dropXattr (name : Bytes) (attrs : List (Bytes × Bytes)) : List (Bytes × Bytes) :=
  attrs.filter (fun a ↦ a.1 != name)

theorem xattrNamed_cons (a : Bytes × Bytes) (attrs : List (Bytes × Bytes)) (name : Bytes) :
    xattrNamed (a :: attrs) name = if a.1 = name then some a.2 else xattrNamed attrs name := by
  unfold xattrNamed
  rw [List.find?_cons]
  by_cases h : a.1 = name
  · rw [if_pos h, beq_iff_eq.mpr h]
    rfl
  · rw [if_neg h, beq_eq_false_iff_ne.mpr h]

theorem putXattr_cons (name value : Bytes) (a : Bytes × Bytes) (attrs : List (Bytes × Bytes)) :
    putXattr name value (a :: attrs) =
      if a.1 = name then (name, value) :: attrs else a :: putXattr name value attrs := by
  unfold putXattr
  rw [List.findIdx?_cons]
  by_cases h : a.1 = name
  · rw [if_pos h, beq_iff_eq.mpr h]
    rfl
  · rw [if_neg h, beq_eq_false_iff_ne.mpr h]
    cases attrs.findIdx? (fun (a : Bytes × Bytes) ↦ a.1 == name) with
    | none => rfl
    | some k => rfl

theorem xattrNamed_put (name value : Bytes) (attrs : List (Bytes × Bytes)) (other : Bytes) :
    xattrNamed (putXattr name value attrs) other = if other = name then some value else xattrNamed attrs other := by
  induction attrs with
  | nil =>
    change xattrNamed [(name, value)] other = _
    rw [xattrNamed_cons]
    simp only [eq_comm]
  | cons a attrs ih =>
    rw [putXattr_cons]
    by_cases h : a.1 = name
    · rw [if_pos h, xattrNamed_cons, xattrNamed_cons, h]
      by_cases hother : other = name
      · rw [if_pos hother, if_pos hother.symm]
      · rw [if_neg hother, if_neg (Ne.symm hother), if_neg (Ne.symm hother)]
    · rw [if_neg h, xattrNamed_cons, xattrNamed_cons, ih]
      by_cases hother : other = name
      · have hne : a.1 ≠ other := by
          rw [hother]
          exact h
        rw [if_pos hother, if_neg hne, if_pos hother]
      · rw [if_neg hother, if_neg hother]

theorem xattrNamed_drop (name : Bytes) (attrs : List (Bytes × Bytes)) (other : Bytes) :
    xattrNamed (dropXattr name attrs) other = if other = name then none else xattrNamed attrs other := by
  induction attrs with
  | nil =>
    change none = _
    split_ifs <;> rfl
  | cons a attrs ih =>
    unfold dropXattr at ih ⊢
    rw [xattrNamed_cons]
    by_cases h : a.1 = name
    · rw [List.filter_cons_of_neg (by rw [bne_iff_ne]; exact not_not.mpr h), ih, h]
      by_cases hother : other = name
      · rw [if_pos hother, if_pos hother]
      · rw [if_neg hother, if_neg hother, if_neg (Ne.symm hother)]
    · rw [List.filter_cons_of_pos (p := fun (a : Bytes × Bytes) ↦ a.1 != name) (bne_iff_ne.mpr h), xattrNamed_cons, ih]
      by_cases hother : other = name
      · have hne : a.1 ≠ other := by
          rw [hother]
          exact h
        rw [if_pos hother, if_pos hother, if_neg hne]
      · rw [if_neg hother, if_neg hother]

/-! ## Runs of attribute calls -/

/-- The attributes of all inodes. -/
def Attributes : Type := ℕ → Bytes → Option Bytes

/-- Give the attribute `name` of inode `k` another value, or none. -/
def Attributes.change (f : Attributes) (k : ℕ) (name : Bytes) (value : Option Bytes) : Attributes :=
  fun k' other ↦ if k' = k ∧ other = name then value else f k' other

inductive AttributeCall where
  | set (ino : ℕ) (name value : Bytes) (flags : UInt32)
  | remove (ino : ℕ) (name : Bytes)

namespace AttributeCall

def operation : AttributeCall → Operation
  | set ino name value flags => .setxattr ino name value flags
  | remove ino name => .removexattr ino name

def ino : AttributeCall → ℕ
  | set ino _ _ _ | remove ino _ => ino

/-- What the call is for. -/
def change : AttributeCall → Attributes → Attributes
  | set ino name value _, f => f.change ino name (some value)
  | remove ino name, f => f.change ino name none

end AttributeCall

/-- What is left after the calls, each listed with whether it succeeded. -/
def lasting : List (AttributeCall × Bool) → Attributes → Attributes
  | [], f => f
  | (call, done) :: rest, f => lasting rest (if done = true then call.change f else f)

namespace Inner

variable {s t u : Inner} {k : ℕ} {i : Inode}

/-- Attribute calls one after another; none of them is failed by the host. -/
inductive AttributeRun : Inner → List (AttributeCall × Bool) → Inner → Prop
  | nil (s : Inner) : AttributeRun s [] s
  | done {call : AttributeCall} {rest : List (AttributeCall × Bool)} {s t u : Inner}
      (h : call.operation.exec s = .ok () t) (hrest : AttributeRun t rest u) : AttributeRun s ((call, true) :: rest) u
  | failed {call : AttributeCall} {rest : List (AttributeCall × Bool)} {s t u : Inner} {e : Error}
      (h : call.operation.exec s = .err e t) (hhost : ¬e.IsHost) (hrest : AttributeRun t rest u) :
      AttributeRun s ((call, false) :: rest) u

def attributes (s : Inner) : Attributes := fun k name ↦ (s.node k).bind fun n ↦ xattrNamed n.xattr name

theorem attributes_edit {g : Node → Node} {name : Bytes} {value : Option Bytes} (hlive : s.node k ≠ none)
    (h : t.node = s.node.edit k g)
    (hg : ∀ n other, xattrNamed (g n).xattr other = if other = name then value else xattrNamed n.xattr other) :
    t.attributes = s.attributes.change k name value := by
  funext k' other
  unfold attributes Attributes.change
  rw [h]
  by_cases hk : k' = k
  · rw [hk, Nodes.edit_self]
    cases hn : s.node k with
    | none => exact absurd hn hlive
    | some n =>
      change xattrNamed (g n).xattr other = _
      rw [hg]
      by_cases hname : other = name
      · rw [if_pos hname, if_pos ⟨rfl, hname⟩]
      · rw [if_neg hname, if_neg fun hboth ↦ hname hboth.2]
        dsimp only
        rw [hn]
        rfl
  · rw [Nodes.edit_of_ne hk, if_neg fun hboth ↦ hk hboth.1]

theorem setxattr_sets (h : s.Tidy) (hk : k < s.sb.nextInode) (name value : Bytes) (flags : UInt32) :
    Acts (setxattr k name value flags) s
      (fun _ g ↦ g = s.node.edit k (fun n ↦ { n with xattr := putXattr name value n.xattr }) ∧ s.node k ≠ none)
      (fun g ↦ g = s.node) := by
  unfold setxattr
  apply Acts.requireWrite h.writable
  split_ifs
  · exact Acts.throw h.sound rfl
  apply Acts.getInode h.sound hk
  · exact fun _ ↦ rfl
  intro inode hmem
  dsimp only
  split_ifs
  · exact Acts.throw h.sound rfl
  · exact Acts.throw h.sound rfl
  · apply Acts.read
    refine Acts.mono (E := fun f ↦ f = s.node ∧ s.node k = none) ?_ (fun _ _ hq ↦ hq) (fun _ hg ↦ hg.1)
    exact getInodeMut_acts h.sound hk (fun _ ↦ rfl) (fun _ _ ↦ rfl)

theorem removexattr_removes (h : s.Tidy) (hk : k < s.sb.nextInode) (name : Bytes) :
    Acts (removexattr k name) s
      (fun _ g ↦ g = s.node.edit k (fun n ↦ { n with xattr := dropXattr name n.xattr }) ∧ s.node k ≠ none)
      (fun g ↦ g = s.node) := by
  unfold removexattr
  apply Acts.requireWrite h.writable
  apply Acts.getInode h.sound hk
  · exact fun _ ↦ rfl
  intro inode hmem
  apply Acts.read
  dsimp only
  split_ifs
  · have htouch : Acts (getInodeMut k id) s (fun _ g ↦ g = s.node.edit k id ∧ s.node k ≠ none)
        (fun g ↦ g = s.node ∧ s.node k = none) := getInodeMut_acts h.sound hk (fun _ ↦ rfl) (fun _ _ ↦ rfl)
    have hdirty : Acts (getInodeMut k id) s (fun _ g ↦ g = s.node) (fun g ↦ g = s.node) := by
      refine htouch.mono (fun _ g hq ↦ ?_) (fun _ hg ↦ hg.1)
      rw [hq.1, Nodes.edit_id]
    apply hdirty.bind
    intro _ t ht hnode
    exact Acts.throw ht.sound hnode
  · refine Acts.mono (Q := fun _ g ↦ g = s.node.edit k (fun n ↦ { n with xattr := dropXattr name inode.xattr }) ∧
      s.node k ≠ none) (E := fun g ↦ g = s.node ∧ s.node k = none) ?_ (fun _ g hq ↦ ⟨?_, hq.2⟩) (fun _ hg ↦ hg.1)
    · exact getInodeMut_acts h.sound hk (fun _ ↦ rfl) (fun _ _ ↦ rfl)
    · rw [hq.1, Nodes.edit_of_some (node_of_mem hmem), Nodes.edit_of_some (node_of_mem hmem)]
      rfl

theorem attributeCall_changes (h : s.Tidy) (call : AttributeCall) (hk : call.ino < s.sb.nextInode) :
    call.operation.exec.Holds s (fun _ t ↦ t.attributes = call.change s.attributes)
      (fun e t ↦ e.IsHost ∨ t.attributes = s.attributes) := by
  have hsame : ∀ {t : Inner}, t.node = s.node → t.attributes = s.attributes := by
    intro t hnode
    unfold attributes
    rw [hnode]
  cases call with
  | set ino name value flags =>
    refine Exec.Holds.mono (setxattr_sets h hk name value flags) ?_ fun e t he ↦ he.imp_right fun ht ↦ hsame ht.2
    rintro _ t ⟨-, hnode, hlive⟩
    exact attributes_edit hlive hnode fun n other ↦ xattrNamed_put name value n.xattr other
  | remove ino name =>
    refine Exec.Holds.mono (removexattr_removes h hk name) ?_ fun e t he ↦ he.imp_right fun ht ↦ hsame ht.2
    rintro _ t ⟨-, hnode, hlive⟩
    exact attributes_edit hlive hnode fun n other ↦ xattrNamed_drop name n.xattr other

theorem attributeCall_regular (call : AttributeCall) (hk : call.ino < s.sb.nextInode) :
    call.operation.Regular s := by
  refine ⟨fun k' hk' ↦ ?_, fun k' hk' ↦ ?_, fun k' hk' ↦ ?_⟩ <;> cases call
  · rw [List.mem_singleton.mp hk']
    exact hk
  · rw [List.mem_singleton.mp hk']
    exact hk
  all_goals cases hk'

/-- The attributes after a run are those that its last successful calls left. -/
theorem AttributeRun.lasts {calls : List (AttributeCall × Bool)} (hrun : AttributeRun s calls t) (hs : s.Reached)
    (hknown : ∀ c ∈ calls, c.1.ino < s.sb.nextInode) : t.Reached ∧ t.attributes = lasting calls s.attributes := by
  induction hrun with
  | nil s => exact ⟨hs, rfl⟩
  | @done call rest s t u h hrest ih =>
    have hk := hknown _ List.mem_cons_self
    have hregular := attributeCall_regular call hk
    have hstays := Exec.Holds.of_ok (Operation.exec_stays hs.tidy hregular) h
    have hunhurt : s.Unhurt call.operation := by
      intro e v he
      rw [h] at he
      cases he
    obtain ⟨hu, hattributes⟩ := ih (hs.called hregular hunhurt (Or.inl ⟨(), h⟩))
      fun c hc ↦ hstays.1.lt (hknown c (List.mem_cons_of_mem _ hc))
    refine ⟨hu, ?_⟩
    rw [hattributes, Exec.Holds.of_ok (attributeCall_changes hs.tidy call hk) h]
    rfl
  | @failed call rest s t u e h hhost hrest ih =>
    have hk := hknown _ List.mem_cons_self
    have hregular := attributeCall_regular call hk
    have hstays := (Exec.Holds.of_err (Operation.exec_stays hs.tidy hregular) h).resolve_left hhost
    have hunhurt : s.Unhurt call.operation := by
      intro e' v he
      rw [h] at he
      cases he
      exact hhost
    obtain ⟨hu, hattributes⟩ := ih (hs.called hregular hunhurt (Or.inr ⟨e, h⟩))
      fun c hc ↦ hstays.lt (hknown c (List.mem_cons_of_mem _ hc))
    refine ⟨hu, ?_⟩
    rw [hattributes, (Exec.Holds.of_err (attributeCall_changes hs.tidy call hk) h).resolve_left hhost]
    rfl

/-! ## Reading attributes back -/

/-- What `getxattr` has to answer. -/
def Gives (o : FsOutcome Bytes) : Option Bytes → Prop
  | some value => ∃ t, o = .ok value t
  | none => ∃ t, o = .err (Error.fromErrno Error.ENODATA) t

theorem loadInode_reads (h : s.Sound) (hmem : s.inodes.find? k = some i) (hclean : s.dirtyInodes.contains k = false) :
    (getInode k).Holds (s.forget k) (fun j _ ↦ i.mode ≠ 0 ∧ j.xattr = i.xattr)
      (fun e _ ↦ e.IsHost ∨ i.mode = 0 ∧ ∃ message, e = Error.eio message) := by
  have hstored := h.inv.onDisk.stored k i hmem hclean
  have hread := readInodeRaw_stored (s := s.forget k) h.inv.geometry.image (h.inv.numbered.keys k i hmem).2.2
    (h.inv.lt_capacity hmem) hstored.slot hstored.xattr (h.inv.xattrBlock_lt hmem)
  unfold getInode
  rw [Exec.holds_bind, Exec.holds_read]
  have hgone : (s.forget k).inodes.find? k = none := KeyMap.find?_erase_self _ _
  rw [hgone]
  unfold loadInode
  refine hread.bind ?_ (fun _ _ he ↦ Or.inl he)
  rintro found t ⟨hfound, -⟩
  rw [Exec.holds_bind, Exec.holds_ofOption]
  refine ⟨fun j hj ↦ ?_, fun hnone ↦ ?_⟩
  · rcases hfound with ⟨-, hnone⟩ | ⟨hmode, j', hj', hlisted⟩
    · rw [hnone] at hj
      cases hj
    · rw [hj'] at hj
      cases hj
      rw [Exec.holds_bind, putInode, Exec.holds_modify, Exec.holds_pure]
      refine ⟨hmode, ?_⟩
      rw [hlisted]
  · rcases hfound with ⟨hmode, -⟩ | ⟨-, j', hj', -⟩
    · exact Or.inr ⟨hmode, _, rfl⟩
    · rw [hj'] at hnone
      cases hnone

/-- All attributes fit a block, and no inode looks like an unused slot. -/
def Storable (f : Nodes) : Prop := ∀ k n, f k = some n → n.mode ≠ 0 ∧ (encodeXattrs n.xattr).length ≤ blockSize

theorem XattrStored.fits (h : s.XattrStored i) : (encodeXattrs i.xattr).length ≤ blockSize := by
  rcases h with ⟨hnil, -⟩ | ⟨-, -, hfits, -⟩
  · rw [hnil]
    decide
  · exact hfits

/-- An inode after a flush, with what it was before. -/
theorem stored_of_syncs (h : Syncs s t) (hclean : t.dirtyInodes = KeyMap.empty) {n : Node} (hn : s.node k = some n) :
    ∃ i, t.inodes.find? k = some i ∧ t.dirtyInodes.contains k = false ∧ i.mode = n.mode ∧ i.xattr = n.xattr ∧
      (encodeXattrs n.xattr).length ≤ blockSize := by
  obtain ⟨j, hj, hnode⟩ := Option.map_eq_some_iff.mp hn
  obtain ⟨bytes, hbytes, -⟩ := h.some k j hj
  obtain ⟨i, hi, hsame⟩ := Option.map_eq_some_iff.mp hbytes
  have hdirty : t.dirtyInodes.contains k = false := by
    rw [hclean]
    rfl
  have hxattr : i.xattr = n.xattr := by
    rw [← hnode]
    exact congrArg Node.xattr hsame
  refine ⟨i, hi, hdirty, ?_, hxattr, ?_⟩
  · rw [← hnode]
    exact congrArg Node.mode hsame
  · rw [← hxattr]
    exact (h.sound.inv.onDisk.stored k i hi hdirty).xattr.fits

theorem getxattr_gives (hs : s.Sound) (hi : s.inodes.find? k = some i) (hclean : s.dirtyInodes.contains k = false)
    (hmode : i.mode ≠ 0) (hhost : ∀ e t, getInode k (s.forget k) = .err e t → ¬e.IsHost) (name : Bytes) :
    Gives (getxattr k name (s.forget k)) (xattrNamed i.xattr name) := by
  have hload := loadInode_reads hs hi hclean
  unfold getxattr
  rw [Exec.bind_apply]
  cases hread : getInode k (s.forget k) with
  | ok j t =>
    have hxattr := (hload.of_ok hread).2
    dsimp only
    unfold Gives xattrNamed
    rw [← hxattr]
    cases hfound : (j.xattr.find? fun a ↦ a.1 == name).map Prod.snd with
    | none => exact ⟨t, rfl⟩
    | some value => exact ⟨t, rfl⟩
  | err e t => exact absurd ((hload.of_err hread).resolve_left (hhost e t hread)).1 hmode
  | panic => exact absurd hread (getInode_returns k _)

theorem getxattr_of_mode (hs : s.Sound) (hi : s.inodes.find? k = some i) (hclean : s.dirtyInodes.contains k = false)
    {name : Bytes} {value : Option Bytes} (h : Gives (getxattr k name (s.forget k)) value) : i.mode ≠ 0 := by
  have hload := loadInode_reads hs hi hclean
  have hget : (getxattr k name).Holds (s.forget k) (fun _ _ ↦ i.mode ≠ 0)
      (fun e _ ↦ e = Error.fromErrno Error.ENODATA → i.mode ≠ 0) := by
    unfold getxattr
    refine hload.bind (fun j t hj ↦ ?_) (fun e t he hdata ↦ ?_)
    · rw [Exec.holds_ofOption]
      exact ⟨fun _ _ ↦ hj.1, fun _ _ ↦ hj.1⟩
    · rw [hdata] at he
      rcases he with hhost | ⟨-, message, heio⟩
      · exact absurd hhost not_false
      · exact absurd heio (by unfold Error.fromErrno Error.eio; simp [Error.ENODATA, Error.EIO])
  cases value with
  | some value =>
    obtain ⟨t, hok⟩ := h
    exact hget.of_ok hok
  | none =>
    obtain ⟨t, herr⟩ := h
    exact hget.of_err herr rfl

/-- After a run of attribute calls a flush to a host that answers stores all attributes, and each inode read from its
slot answers with what the calls left, exactly when the attributes are storable and the flush has room. -/
theorem attributes_survive_iff {calls : List (AttributeCall × Bool)} {order : FlushOrder} (hs : s.Reached)
    (hrun : AttributeRun s calls t) (hknown : ∀ c ∈ calls, c.1.ino < s.sb.nextInode)
    (hhost : ∀ e v, flushAll order t = .err e v → ¬e.IsHost)
    (hreads : ∀ v, flushAll order t = .ok () v → ∀ k, t.node k ≠ none → ∀ e w,
      getInode k (v.forget k) = .err e w → ¬e.IsHost) :
    (∃ v, flushAll order t = .ok () v ∧ ∀ k, t.node k ≠ none → ∀ name,
      Gives (getxattr k name (v.forget k)) (lasting calls s.attributes k name)) ↔
      Storable t.node ∧ t.RecordFits ∧ t.JournalRoom := by
  obtain ⟨hreached, hlasts⟩ := hrun.lasts hs hknown
  have htidy := hreached.tidy
  have hsyncs : ∀ {v : Inner}, flushAll order t = .ok () v → Syncs t v ∧ v.dirtyInodes = KeyMap.empty := by
    intro v hv
    have hpost := Exec.Holds.of_ok (flushAll_syncs htidy.sound htidy.writable order) hv
    exact ⟨hpost.1, hpost.2.1⟩
  constructor
  · rintro ⟨v, hv, hgives⟩
    obtain ⟨hroom, hrecord⟩ := flushAll_needs htidy.sound htidy.writable hv
    refine ⟨fun k n hn ↦ ?_, hrecord, hroom⟩
    obtain ⟨hsync, hclean⟩ := hsyncs hv
    obtain ⟨i, hi, hdirty, hmode, -, hfits⟩ := stored_of_syncs hsync hclean hn
    have hlive : t.node k ≠ none := by
      rw [hn]
      exact Option.some_ne_none n
    refine ⟨?_, hfits⟩
    rw [← hmode]
    exact getxattr_of_mode hsync.sound hi hdirty (hgives k hlive [])
  · rintro ⟨hstorable, hrecord, hroom⟩
    obtain ⟨v, hv⟩ := flushAll_succeeds htidy.sound htidy.writable hroom hrecord hhost fun k n hn ↦ (hstorable k n hn).2
    obtain ⟨hsync, hclean⟩ := hsyncs hv
    refine ⟨v, hv, fun k hlive name ↦ ?_⟩
    obtain ⟨n, hn⟩ := Option.ne_none_iff_exists'.mp hlive
    obtain ⟨i, hi, hdirty, hmode, hxattr, -⟩ := stored_of_syncs hsync hclean hn
    have hattribute : lasting calls s.attributes k name = xattrNamed i.xattr name := by
      rw [← hlasts, hxattr]
      unfold attributes
      rw [hn]
      rfl
    rw [hattribute]
    apply getxattr_gives hsync.sound hi hdirty _ (hreads v hv k hlive)
    rw [hmode]
    exact (hstorable k n hn).1

/-! ## Concrete runs -/

/-- Make attribute calls and note which of them succeed. -/
def attributePlay : List AttributeCall → Inner → Option (List (AttributeCall × Bool) × Inner)
  | [], s => some ([], s)
  | call :: rest, s =>
    match call.operation.exec s with
    | .ok _ t => (attributePlay rest t).map fun r ↦ ((call, true) :: r.1, r.2)
    | .err e t => if e.IsHost then none else (attributePlay rest t).map fun r ↦ ((call, false) :: r.1, r.2)
    | .panic => none

theorem attributeRun_of_play : ∀ {acts : List AttributeCall} {s t : Inner} {calls : List (AttributeCall × Bool)},
    attributePlay acts s = some (calls, t) → AttributeRun s calls t
  | [], s, t, calls, h => by
    cases h
    exact .nil s
  | call :: rest, s, t, calls, h => by
    unfold attributePlay at h
    cases hcall : call.operation.exec s with
    | ok _ u =>
      rw [hcall] at h
      obtain ⟨r, hr, hsame⟩ := Option.map_eq_some_iff.mp h
      cases hsame
      exact .done hcall (attributeRun_of_play hr)
    | err e u =>
      rw [hcall] at h
      dsimp only at h
      split_ifs at h with hhost
      obtain ⟨r, hr, hsame⟩ := Option.map_eq_some_iff.mp h
      cases hsame
      exact .failed hcall hhost (attributeRun_of_play hr)
    | panic =>
      rw [hcall] at h
      cases h

/-- Attribute calls in the ordered filesystem, and a test of what they come to. -/
def attributeSample (acts : List AttributeCall) (test : Inner → List (AttributeCall × Bool) → Inner → Bool) : Bool :=
  orderedImage.okAnd fun _ s ↦ (attributePlay acts s).any fun r ↦
    r.1.all (fun c ↦ decide (c.1.ino < s.sb.nextInode)) && test s r.1 r.2

theorem attributeSample_runs {acts : List AttributeCall}
    {test : Inner → List (AttributeCall × Bool) → Inner → Bool} (h : attributeSample acts test = true) :
    ∃ s calls t, s.Reached ∧ AttributeRun s calls t ∧ (∀ c ∈ calls, c.1.ino < s.sb.nextInode) ∧
      test s calls t = true := by
  obtain ⟨_, s, himage, hplay⟩ := Outcome.exists_of_okAnd h
  obtain ⟨⟨calls, t⟩, hrun, htest⟩ := (Option.any_eq_true ..).mp hplay
  rw [Bool.and_eq_true] at htest
  exact ⟨s, calls, t, .created himage, attributeRun_of_play hrun,
    fun c hc ↦ of_decide_eq_true (List.all_eq_true.mp htest.1 c hc), htest.2⟩

/-- No record is held, and the journal takes the dirty inodes. -/
def readyState (s : Inner) : Bool :=
  s.recordCache.isNone && decide (transactionRoom s.dirtyInodes.size ≤ s.journal.areaBytes) &&
    decide (s.journal.seq + 1 < Journal.maxSeq)

theorem journalRoom_of_test (h : readyState s = true) : s.RecordFits ∧ s.JournalRoom := by
  unfold readyState at h
  rw [Bool.and_eq_true, Bool.and_eq_true, decide_eq_true_eq, decide_eq_true_eq] at h
  have hnone := Option.isNone_iff_eq_none.mp h.1.1
  refine ⟨recordFits_of_none hnone, fun _ ↦ ⟨?_, h.2⟩⟩
  rw [pending_of_none hnone]
  exact h.1.2

/-- An attribute is set twice, another one removed without being there. -/
def setTwice : List AttributeCall := [.set rootIno [0x61] [1] 0, .set rootIno [0x61] [2, 3] 0, .remove rootIno [0x62]]

/-- The calls of `setTwice`, with what is left of the attributes after a flush. -/
def setTwiceRun : {acts : List AttributeCall // attributeSample acts (fun s calls t ↦
    (flushAll FlushOrder.inOrder t).okAnd (fun _ v ↦ t.inodes.keys.all fun k ↦ answered (getInode k (v.forget k))) &&
    t.inodes.entries.all (fun e ↦ e.2.mode != 0 && decide ((encodeXattrs e.2.xattr).length ≤ blockSize)) &&
    (t.inodes.find? rootIno).isSome && lasting calls s.attributes rootIno [0x61] == some [2, 3] &&
    decide (t.syncMode ≠ .none) && readyState t) = true} :=
  ⟨setTwice, by decide +kernel⟩

theorem attributes_survive_setTwice : ∃ s calls t v, s.Reached ∧ AttributeRun s calls t ∧ t.syncMode ≠ .none ∧
    flushAll FlushOrder.inOrder t = .ok () v ∧
    Gives (getxattr rootIno [0x61] (v.forget rootIno)) (some [2, 3]) := by
  obtain ⟨s, calls, t, hs, hrun, hknown, htest⟩ := attributeSample_runs setTwiceRun.2
  rw [Bool.and_eq_true, Bool.and_eq_true, Bool.and_eq_true, Bool.and_eq_true, Bool.and_eq_true, beq_iff_eq,
    decide_eq_true_eq] at htest
  obtain ⟨⟨⟨⟨⟨hflush, hfits⟩, hroot⟩, hlasting⟩, hmode⟩, hready⟩ := htest
  obtain ⟨_, v, hv, hreads⟩ := Outcome.exists_of_okAnd hflush
  have hkey : ∀ {k : ℕ} {n : Node}, t.node k = some n → ∃ i, (k, i) ∈ t.inodes.entries ∧ i.toNode (t.contents k) = n := by
    intro k n hn
    obtain ⟨i, hi, hsame⟩ := Option.map_eq_some_iff.mp hn
    exact ⟨i, KeyMap.find?_eq_some_iff.mp hi, hsame⟩
  have hstorable : Storable t.node := by
    intro k n hn
    obtain ⟨i, hi, rfl⟩ := hkey hn
    have htest := List.all_eq_true.mp hfits _ hi
    rw [Bool.and_eq_true, bne_iff_ne, decide_eq_true_eq] at htest
    exact htest
  have hhost : ∀ e w, flushAll FlushOrder.inOrder t = .err e w → ¬e.IsHost := by
    intro e w herr
    rw [hv] at herr
    cases herr
  have hback : ∀ w, flushAll FlushOrder.inOrder t = .ok () w → ∀ k, t.node k ≠ none → ∀ e x,
      getInode k (w.forget k) = .err e x → ¬e.IsHost := by
    intro w hw k hlive e x herr
    rw [hv] at hw
    cases hw
    obtain ⟨n, hn⟩ := Option.ne_none_iff_exists'.mp hlive
    obtain ⟨i, hi, -⟩ := hkey hn
    have hanswered := List.all_eq_true.mp hreads k (List.mem_map.mpr ⟨_, hi, rfl⟩)
    rw [herr] at hanswered
    exact of_decide_eq_false ((Bool.not_eq_true' _).mp hanswered)
  obtain ⟨w, hw, hgives⟩ := (attributes_survive_iff hs hrun hknown hhost hback).mpr
    ⟨hstorable, journalRoom_of_test hready⟩
  rw [hv] at hw
  cases hw
  have hlive : t.node rootIno ≠ none := by
    obtain ⟨i, hi⟩ := Option.isSome_iff_exists.mp hroot
    rw [node_of_mem hi]
    exact Option.some_ne_none _
  have hanswer := hgives rootIno hlive [0x61]
  rw [hlasting] at hanswer
  exact ⟨s, calls, t, v, hs, hrun, hmode, hv, hanswer⟩

/-- A value that is larger than a block is accepted, and the flush fails. -/
theorem large_attribute_stops_flush : ∃ s calls t, s.Reached ∧ AttributeRun s calls t ∧
    (∀ c ∈ calls, c.1.ino < s.sb.nextInode) ∧ (∀ c ∈ calls, c.2 = true) ∧ t.RecordFits ∧ t.JournalRoom ∧
    Answers (flushAll FlushOrder.inOrder) t ∧ ¬∃ v, flushAll FlushOrder.inOrder t = .ok () v := by
  have hplay : attributeSample [.set rootIno [0x61] (List.replicate 5000 0) 0] (fun _ calls t ↦
      calls.all Prod.snd && answered (flushAll FlushOrder.inOrder t) &&
      (flushAll FlushOrder.inOrder t).errAnd (fun _ ↦ true) && readyState t) = true := by
    decide +kernel
  obtain ⟨s, calls, t, hs, hrun, hknown, htest⟩ := attributeSample_runs hplay
  rw [Bool.and_eq_true, Bool.and_eq_true, Bool.and_eq_true] at htest
  obtain ⟨⟨⟨hdone, hanswered⟩, hfails⟩, hready⟩ := htest
  obtain ⟨hrecord, hroom⟩ := journalRoom_of_test hready
  obtain ⟨e, v, herr, -⟩ := Outcome.exists_of_errAnd hfails
  refine ⟨s, calls, t, hs, hrun, hknown, fun c hc ↦ List.all_eq_true.mp hdone c hc, hrecord, hroom,
    .of_test hanswered, ?_⟩
  rintro ⟨w, hw⟩
  rw [herr] at hw
  cases hw

end Inner

end LinuxFile
