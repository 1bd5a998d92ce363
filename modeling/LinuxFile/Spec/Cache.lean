import LinuxFile.Cache
import LinuxFile.Spec.Store

/-!
# What the block cache does

A reader of the cache sees the cached copy of a block, or the image where there is none. A clean
copy that differs from the image is possible: the allocator snapshot is written past the cache. Such
a block is not stable, because what a reader sees changes when the copy is evicted. On stable blocks
the cache is transparent: only an explicit write changes what is seen, and it makes the block stable
again. Failures are failures of the host.
-/

namespace LinuxFile

namespace CachedImage

/-- What a reader of the cache sees. -/
def view (d : CachedImage) (b : ℕ) : Block :=
  match d.cache.map.find? b with
  | some e => e.data
  | none => d.image.block b

def DirtyAt (d : CachedImage) (b : ℕ) : Prop := ∃ e, d.cache.map.find? b = some e ∧ e.dirty = true

/-- A clean copy agrees with the image. -/
def Stable (d : CachedImage) (b : ℕ) : Prop :=
  ∀ e, d.cache.map.find? b = some e → e.dirty = false → e.data = d.image.block b

theorem view_of_some {d : CachedImage} {b : ℕ} {e : CacheEntry} (h : d.cache.map.find? b = some e) :
    d.view b = e.data := by
  rw [view, h]

theorem view_of_none {d : CachedImage} {b : ℕ} (h : d.cache.map.find? b = none) :
    d.view b = d.image.block b := by
  rw [view, h]

theorem DirtyAt.stable {d : CachedImage} {b : ℕ} (h : d.DirtyAt b) : d.Stable b := by
  obtain ⟨e, he, hdirty⟩ := h
  intro e' he' hclean
  rw [he] at he'
  cases he'
  rw [hdirty] at hclean
  cases hclean

/-- A stable block that is not dirty is seen as it is in the image. -/
theorem Stable.view_eq {d : CachedImage} {b : ℕ} (h : d.Stable b) (hclean : ¬d.DirtyAt b) :
    d.view b = d.image.block b := by
  cases he : d.cache.map.find? b with
  | none => exact view_of_none he
  | some e =>
    rw [view_of_some he]
    refine h e he ?_
    by_contra hdirty
    exact hclean ⟨e, he, by simpa using hdirty⟩

/-- `P` holds of every copy of the block a reader may come to see: the cached one, and the image
unless the cached one will overwrite it. -/
def Copies (d : CachedImage) (P : Block → Prop) (b : ℕ) : Prop :=
  (∀ e, d.cache.map.find? b = some e → P e.data) ∧ (¬d.DirtyAt b → P (d.image.block b))

theorem not_dirtyAt_of_none {d : CachedImage} {b : ℕ} (h : d.cache.map.find? b = none) :
    ¬d.DirtyAt b := by
  rintro ⟨e, he, -⟩
  rw [h] at he
  cases he

theorem not_dirtyAt_of_clean {d : CachedImage} {b : ℕ} {e : CacheEntry}
    (h : d.cache.map.find? b = some e) (hclean : e.dirty = false) : ¬d.DirtyAt b := by
  rintro ⟨e', he, hdirty⟩
  rw [h] at he
  cases he
  rw [hclean] at hdirty
  cases hdirty

theorem Copies.mono {d : CachedImage} {P Q : Block → Prop} {b : ℕ} (h : d.Copies P b)
    (hPQ : ∀ c, P c → Q c) : d.Copies Q b :=
  ⟨fun e he ↦ hPQ _ (h.1 e he), fun hclean ↦ hPQ _ (h.2 hclean)⟩

theorem Copies.view {d : CachedImage} {P : Block → Prop} {b : ℕ} (h : d.Copies P b) :
    P (d.view b) := by
  cases he : d.cache.map.find? b with
  | none =>
    rw [view_of_none he]
    exact h.2 (not_dirtyAt_of_none he)
  | some e =>
    rw [view_of_some he]
    exact h.1 e he

/-- A block is stable when all its copies are what a reader sees. -/
theorem stable_iff_copies {d : CachedImage} {b : ℕ} :
    d.Stable b ↔ d.Copies (· = d.view b) b := by
  constructor
  · intro hs
    refine ⟨fun e he ↦ (view_of_some he).symm, fun hclean ↦ (hs.view_eq hclean).symm⟩
  · intro hc e he hclean
    rw [hc.1 e he, hc.2 (not_dirtyAt_of_clean he hclean)]

theorem Copies.stable {d : CachedImage} {b : ℕ} {x : Block} (h : d.Copies (· = x) b) : d.Stable b := by
  rw [stable_iff_copies, h.view]
  exact h

/-- A change to cache and image in which only the blocks in `W` are written. -/
structure Step (W : ℕ → Prop) (d d' : CachedImage) : Prop where
  copies : ∀ b, ¬W b → ∀ P, d.Copies P b → d'.Copies P b
  dirty : ∀ b, d'.DirtyAt b → d.DirtyAt b ∨ W b
  image : ∀ b, ¬d.DirtyAt b → ¬W b → d'.image.block b = d.image.block b
  len_le : d.image.len ≤ d'.image.len
  ok : d.image.Ok → d'.image.Ok
  host : d'.image.hostWritable = d.image.hostWritable

theorem Step.refl (W : ℕ → Prop) (d : CachedImage) : Step W d d :=
  ⟨fun _ _ _ h ↦ h, fun _ h ↦ Or.inl h, fun _ _ _ ↦ rfl, le_rfl, id, rfl⟩

theorem Step.trans {W : ℕ → Prop} {a b c : CachedImage} (hab : Step W a b) (hbc : Step W b c) :
    Step W a c where
  copies x hx P h := hbc.copies x hx P (hab.copies x hx P h)
  dirty x hx := by
    rcases hbc.dirty x hx with h | h
    · exact hab.dirty x h
    · exact Or.inr h
  image x hclean hx := by
    have hclean' : ¬b.DirtyAt x := by
      intro h
      rcases hab.dirty x h with h | h
      · exact hclean h
      · exact hx h
    exact (hbc.image x hclean' hx).trans (hab.image x hclean hx)
  len_le := hab.len_le.trans hbc.len_le
  ok := hbc.ok ∘ hab.ok
  host := hbc.host.trans hab.host

theorem Step.mono {W W' : ℕ → Prop} {d d' : CachedImage} (h : Step W d d') (hW : ∀ b, W b → W' b) :
    Step W' d d' where
  copies b hb := h.copies b (fun hw ↦ hb (hW b hw))
  dirty b hb := (h.dirty b hb).imp_right (hW b)
  image b hclean hb := h.image b hclean (fun hw ↦ hb (hW b hw))
  len_le := h.len_le
  ok := h.ok
  host := h.host

/-- On stable blocks that are not written the cache is transparent. -/
theorem Step.frame {W : ℕ → Prop} {d d' : CachedImage} (h : Step W d d') {b : ℕ} (hb : ¬W b)
    (hs : d.Stable b) : d'.Stable b ∧ d'.view b = d.view b := by
  have hcopies := h.copies b hb _ (stable_iff_copies.mp hs)
  exact ⟨hcopies.stable, hcopies.view⟩

/-- No block is written. -/
abbrev Quiet : CachedImage → CachedImage → Prop := Step (fun _ ↦ False)

/-- Only the list of coming host answers or the length of the file differs. -/
theorem Step.of_grown {d : CachedImage} {img : Image} (h : Image.Grown d.image img) :
    Quiet d { d with image := img } where
  copies b _ P hc := ⟨hc.1, fun hclean ↦ by rw [h.block]; exact hc.2 hclean⟩
  dirty _ hb := Or.inl hb
  image b _ _ := h.block b
  len_le := h.len_le
  ok := h.ok
  host := h.host

/-- The contents of the entries are what matters, not their use order. -/
theorem Step.of_map {d : CachedImage} {cache : BlockCache} (h : cache.map = d.cache.map) :
    Quiet d { d with cache := cache } where
  copies b _ P hc := by
    refine ⟨fun e he ↦ hc.1 e (by rw [← h]; exact he), fun hclean ↦ hc.2 ?_⟩
    rintro ⟨e, he, hd⟩
    exact hclean ⟨e, by rw [h]; exact he, hd⟩
  dirty b hb := by
    obtain ⟨e, he, hdirty⟩ := hb
    exact Or.inl ⟨e, by rw [← h]; exact he, hdirty⟩
  image _ _ _ := rfl
  len_le := le_rfl
  ok := id
  host := rfl

/-- Changing the entry of one block to none or to a clean copy of the image. -/
theorem Step.of_entry {d d' : CachedImage} {b : ℕ}
    (hother : ∀ c, c ≠ b → d'.cache.map.find? c = d.cache.map.find? c)
    (himg : ∀ c, c ≠ b → d'.image.block c = d.image.block c)
    (hself : d'.cache.map.find? b = none ∨ d'.cache.map.find? b = some ⟨d'.image.block b, false⟩)
    (hkept : (∃ e, d.cache.map.find? b = some e ∧ e.dirty = true ∧ d'.image.block b = e.data) ∨
      (¬d.DirtyAt b ∧ d'.image.block b = d.image.block b))
    (hlen : d.image.len ≤ d'.image.len) (hok : d.image.Ok → d'.image.Ok)
    (hhost : d'.image.hostWritable = d.image.hostWritable) : Quiet d d' where
  copies c _ P hc := by
    by_cases hcb : c = b
    · subst hcb
      have hP : P (d'.image.block c) := by
        rcases hkept with ⟨e, he, -, hblock⟩ | ⟨hclean, hblock⟩
        · rw [hblock]
          exact hc.1 e he
        · rw [hblock]
          exact hc.2 hclean
      refine ⟨fun e he ↦ ?_, fun _ ↦ hP⟩
      rcases hself with hnone | hsome
      · rw [hnone] at he
        cases he
      · rw [hsome] at he
        cases he
        exact hP
    · refine ⟨fun e he ↦ hc.1 e (by rw [← hother c hcb]; exact he), fun hclean ↦ ?_⟩
      rw [himg c hcb]
      refine hc.2 ?_
      rintro ⟨e, he, hd⟩
      exact hclean ⟨e, by rw [hother c hcb]; exact he, hd⟩
  dirty c hd := by
    obtain ⟨e, he, hdirty⟩ := hd
    by_cases hcb : c = b
    · subst hcb
      rcases hself with hnone | hsome
      · rw [hnone] at he
        cases he
      · rw [hsome] at he
        cases he
        cases hdirty
    · exact Or.inl ⟨e, by rw [← hother c hcb]; exact he, hdirty⟩
  image c hclean _ := by
    by_cases hcb : c = b
    · subst hcb
      rcases hkept with ⟨e, he, hdirty, -⟩ | ⟨-, hblock⟩
      · exact absurd ⟨e, he, hdirty⟩ hclean
      · exact hblock
    · exact himg c hcb
  len_le := hlen
  ok := hok
  host := hhost

/-- Putting a dirty block into the cache. -/
theorem Step.insert_dirty {d d' : CachedImage} {b : ℕ} {data : Block}
    (hmap : d'.cache.map = d.cache.map.insert b ⟨data, true⟩) (himg : d'.image = d.image) :
    Step (· = b) d d' ∧ d'.view b = data ∧ d'.DirtyAt b := by
  have hself : d'.cache.map.find? b = some ⟨data, true⟩ := by
    rw [hmap, KeyMap.find?_insert_self]
  have hother : ∀ c, c ≠ b → d'.cache.map.find? c = d.cache.map.find? c := by
    intro c hc
    rw [hmap, KeyMap.find?_insert_of_ne hc]
  refine ⟨⟨fun c hc P hP ↦ ⟨fun e he ↦ hP.1 e (by rw [← hother c hc]; exact he), fun hclean ↦ ?_⟩, ?_,
    fun c _ _ ↦ by rw [himg], by rw [himg], fun h ↦ by rw [himg]; exact h, by rw [himg]⟩,
    view_of_some hself, ⟨_, hself, rfl⟩⟩
  · rw [himg]
    refine hP.2 ?_
    rintro ⟨e, he, hd⟩
    exact hclean ⟨e, by rw [hother c hc]; exact he, hd⟩
  · rintro c ⟨e, he, hd⟩
    by_cases hc : c = b
    · exact Or.inr hc
    · exact Or.inl ⟨e, by rw [← hother c hc]; exact he, hd⟩

end CachedImage

open CachedImage

namespace BlockCache

/-- The postcondition of failed cache operations. -/
def HostFailure {σ : Type} (e : Error) (_ : σ) : Prop := e.IsHost

theorem evictFrom_spec (blocks : List ℕ) (d : CachedImage) :
    (evictFrom blocks).Holds d (fun _ d' ↦ Quiet d d' ∧
      ∀ b, d.cache.map.find? b = none → d'.cache.map.find? b = none) HostFailure := by
  induction blocks with
  | nil => exact ⟨Step.of_map rfl, fun _ h ↦ h⟩
  | cons old rest ih =>
    unfold evictFrom
    rw [Exec.holds_bind, Exec.holds_read]
    cases he : d.cache.map.find? old with
    | none => exact ih
    | some entry =>
      dsimp only
      rw [Exec.holds_bind, modifyCache, Exec.holds_modify]
      have hgone : ∀ b, d.cache.map.find? b = none → (d.cache.map.erase old).find? b = none := by
        intro b hb
        rw [KeyMap.find?_erase]
        split_ifs
        · rfl
        · exact hb
      split_ifs with hdirty
      · rw [onImage, Exec.holds_zoom]
        refine (Image.writeBlock_spec d.image old entry.data).mono ?_ (fun _ _ h ↦ h.1)
        rintro _ img ⟨hwrote, hblock, hother⟩
        exact ⟨Step.of_entry (fun c hc ↦ KeyMap.find?_erase_of_ne hc) hother
          (Or.inl (KeyMap.find?_erase_self _ _)) (Or.inl ⟨entry, he, hdirty, hblock⟩) hwrote.len_le
          hwrote.ok hwrote.host, hgone⟩
      · have hclean : ¬d.DirtyAt old := not_dirtyAt_of_clean he (by simpa using hdirty)
        exact ⟨Step.of_entry (fun c hc ↦ KeyMap.find?_erase_of_ne hc) (fun _ _ ↦ rfl)
          (Or.inl (KeyMap.find?_erase_self _ _)) (Or.inr ⟨hclean, rfl⟩) le_rfl id rfl, hgone⟩

theorem makeRoom_spec (d : CachedImage) :
    makeRoom.Holds d (fun _ d' ↦ Quiet d d' ∧
      ∀ b, d.cache.map.find? b = none → d'.cache.map.find? b = none) HostFailure := by
  unfold makeRoom evictOne
  rw [Exec.holds_bind, Exec.holds_read]
  split_ifs
  · rw [Exec.holds_bind, Exec.holds_read]
    exact evictFrom_spec _ d
  · exact ⟨Step.refl _ d, fun _ h ↦ h⟩

/-- A read of the block gives what is stored: it is cached, or it lies in the file as a whole, or
nothing of it is there. A block the end of the file cuts is read as if it were not there. -/
def Uncut (d : CachedImage) (b : ℕ) : Prop :=
  d.cache.map.find? b = none → ¬b * blockSize + blockSize ≤ d.image.len →
    d.image.block b = Buf.zero blockSize

theorem uncut_of_ok {d : CachedImage} (hok : d.image.Ok) (b : ℕ) : Uncut d b :=
  fun _ h ↦ Image.block_eq_zero (hok.mul_le_len h)

theorem fetch_spec (b : ℕ) (d : CachedImage) (huncut : ¬b * blockSize + blockSize ≤ d.image.len →
    d.image.block b = Buf.zero blockSize) :
    (fetch b).Holds d (fun data d' ↦ ∃ img, d' = { d with image := img } ∧
      Image.Grown d.image img ∧ data = d.image.block b) HostFailure := by
  unfold fetch
  rw [Exec.holds_bind, Exec.holds_read]
  split_ifs with h
  · rw [onImage, Exec.holds_zoom]
    refine (Image.readBlock_spec d.image b h).mono ?_ (fun _ _ he ↦ he.1)
    rintro data img ⟨hdata, hgrown⟩
    exact ⟨img, rfl, hgrown, hdata⟩
  · rw [Exec.holds_bind, onImage, Exec.holds_zoom]
    refine (Image.growTo_spec d.image _).mono ?_ (fun _ _ he ↦ he.1)
    rintro _ img ⟨hgrown, -⟩
    exact ⟨img, rfl, hgrown, (huncut h).symm⟩

/-- Reading a block gives what a reader sees and writes nothing; afterwards the block is cached. -/
theorem get_uncut (b : ℕ) (d : CachedImage) (huncut : Uncut d b) :
    (get b).Holds d (fun data d' ↦ Quiet d d' ∧ data = d.view b ∧
      ∃ e, d'.cache.map.find? b = some e ∧ e.data = data) HostFailure := by
  unfold get
  rw [Exec.holds_bind, Exec.holds_read]
  cases hhit : d.cache.map.find? b with
  | some entry =>
    dsimp only
    rw [Exec.holds_bind, modifyCache, Exec.holds_modify, Exec.holds_pure]
    exact ⟨Step.of_map rfl, (view_of_some hhit).symm, entry, hhit, rfl⟩
  | none =>
    dsimp only
    refine (makeRoom_spec d).bind ?_ (fun _ _ he ↦ he)
    rintro _ d₁ ⟨hquiet, hnone⟩
    have hgone : d₁.cache.map.find? b = none := hnone b hhit
    have hsame : d₁.image.block b = d.image.block b :=
      hquiet.image b (not_dirtyAt_of_none hhit) not_false
    have huncut₁ : ¬b * blockSize + blockSize ≤ d₁.image.len →
        d₁.image.block b = Buf.zero blockSize := by
      intro hcut
      rw [hsame]
      exact huncut hhit fun hle ↦ hcut (hle.trans hquiet.len_le)
    refine (fetch_spec b d₁ huncut₁).bind ?_ (fun _ _ he ↦ he)
    rintro data _ ⟨img, rfl, hgrown, hdata⟩
    rw [Exec.holds_bind, modifyCache, Exec.holds_modify, Exec.holds_pure]
    have hview : data = d.view b := by
      rw [hdata, hsame, view_of_none hhit]
    have hblock : data = img.block b := by
      rw [hdata, hgrown.block]
    subst hblock
    refine ⟨hquiet.trans ((Step.of_grown hgrown).trans ?_), hview, _,
      KeyMap.find?_insert_self _ _ _, rfl⟩
    exact Step.of_entry (fun c hc ↦ KeyMap.find?_insert_of_ne hc) (fun _ _ ↦ rfl)
      (Or.inr (KeyMap.find?_insert_self _ _ _)) (Or.inr ⟨not_dirtyAt_of_none hgone, rfl⟩) le_rfl id rfl

theorem get_spec (b : ℕ) (d : CachedImage) (hok : d.image.Ok) :
    (get b).Holds d (fun data d' ↦ Quiet d d' ∧ data = d.view b ∧
      ∃ e, d'.cache.map.find? b = some e ∧ e.data = data) HostFailure :=
  get_uncut b d (uncut_of_ok hok b)

/-- Changing a block in place. -/
theorem getMut_uncut (b : ℕ) (change : Block → Block) (d : CachedImage) (huncut : Uncut d b) :
    (getMut b change).Holds d (fun _ d' ↦ Step (· = b) d d' ∧ d'.view b = change (d.view b) ∧
      d'.DirtyAt b) HostFailure := by
  unfold getMut
  refine (get_uncut b d huncut).bind ?_ (fun _ _ he ↦ he)
  rintro data d₁ ⟨hquiet, rfl, -⟩
  rw [modifyCache, Exec.holds_modify]
  obtain ⟨hstep, hview, hdirty⟩ := @Step.insert_dirty d₁ { d₁ with cache := { d₁.cache with
    map := d₁.cache.map.insert b ⟨change (d.view b), true⟩ } } b _ rfl rfl
  exact ⟨(hquiet.mono (by simp)).trans hstep, hview, hdirty⟩

theorem getMut_spec (b : ℕ) (change : Block → Block) (d : CachedImage) (hok : d.image.Ok) :
    (getMut b change).Holds d (fun _ d' ↦ Step (· = b) d d' ∧ d'.view b = change (d.view b) ∧
      d'.DirtyAt b) HostFailure :=
  getMut_uncut b change d (uncut_of_ok hok b)

/-- Replacing a block without reading it. -/
theorem insertDirty_spec (b : ℕ) (data : Block) (d : CachedImage) :
    (insertDirty b data).Holds d (fun _ d' ↦ Step (· = b) d d' ∧ d'.view b = data ∧ d'.DirtyAt b)
      HostFailure := by
  unfold insertDirty
  rw [Exec.holds_bind, Exec.holds_read]
  have room : (Exec.when (d.cache.map.contains b = false) makeRoom).Holds d
      (fun _ d' ↦ Quiet d d') HostFailure := by
    rw [Exec.holds_when]
    exact ⟨fun _ ↦ (makeRoom_spec d).mono (fun _ _ h ↦ h.1) (fun _ _ he ↦ he), fun _ ↦ Step.refl _ d⟩
  refine room.bind ?_ (fun _ _ he ↦ he)
  intro _ d₁ hquiet
  rw [modifyCache, Exec.holds_modify]
  obtain ⟨hstep, hview, hdirty⟩ := @Step.insert_dirty d₁ { d₁ with cache := ({ d₁.cache with
    map := d₁.cache.map.insert b ⟨data, true⟩ } : BlockCache).touch b } b _ rfl rfl
  exact ⟨(hquiet.mono (by simp)).trans hstep, hview, hdirty⟩

theorem flushBlock_spec (b : ℕ) (d : CachedImage) :
    (flushBlock b).Holds d (fun _ d' ↦ Quiet d d' ∧ ∀ c, d'.DirtyAt c → d.DirtyAt c ∧ c ≠ b)
      HostFailure := by
  unfold flushBlock
  rw [Exec.holds_bind, Exec.holds_read]
  cases he : d.cache.map.find? b with
  | none =>
    refine ⟨Step.refl _ d, fun c hc ↦ ⟨hc, ?_⟩⟩
    rintro rfl
    obtain ⟨e, he', -⟩ := hc
    rw [he] at he'
    cases he'
  | some entry =>
    dsimp only
    split_ifs with hdirty
    · rw [Exec.holds_bind, onImage, Exec.holds_zoom]
      refine (Image.writeBlock_spec d.image b entry.data).mono ?_ (fun _ _ h ↦ h.1)
      rintro _ img ⟨hwrote, hblock, hother⟩
      rw [modifyCache, Exec.holds_modify]
      have hself : (d.cache.map.insert b ⟨entry.data, false⟩).find? b = some ⟨entry.data, false⟩ :=
        KeyMap.find?_insert_self _ _ _
      have hfind : ∀ c, c ≠ b → (d.cache.map.insert b ⟨entry.data, false⟩).find? c =
          d.cache.map.find? c := fun c hc ↦ KeyMap.find?_insert_of_ne hc
      refine ⟨Step.of_entry hfind hother (Or.inr ?_) (Or.inl ⟨entry, he, hdirty, hblock⟩)
        hwrote.len_le hwrote.ok hwrote.host, ?_⟩
      · dsimp only
        rw [hblock]
        exact hself
      rintro c ⟨e, he', hd⟩
      by_cases hc : c = b
      · subst hc
        have heq : some e = some ⟨entry.data, false⟩ := he'.symm.trans hself
        cases heq
        cases hd
      · exact ⟨⟨e, by rw [← hfind c hc]; exact he', hd⟩, hc⟩
    · refine ⟨Step.refl _ d, fun c hc ↦ ⟨hc, ?_⟩⟩
      rintro rfl
      obtain ⟨e, he', hd⟩ := hc
      rw [he] at he'
      cases he'
      exact hdirty hd

/-- After a flush nothing is dirty, in whatever order the blocks were met. -/
theorem flush_spec (order : IterOrder) (d : CachedImage) :
    (flush order).Holds d (fun _ d' ↦ Quiet d d' ∧ ∀ b, ¬d'.DirtyAt b) HostFailure := by
  unfold flush
  rw [Exec.holds_bind, Exec.holds_read]
  have loop := Exec.holds_forEach (E := HostFailure) (s := d)
    (fun rest d' ↦ Quiet d d' ∧ ∀ b, d'.DirtyAt b → b ∈ rest)
    (by
      rintro b rest d₁ ⟨hquiet, hrest⟩
      refine (flushBlock_spec b d₁).mono ?_ (fun _ _ he ↦ he)
      rintro _ d₂ ⟨hquiet', hdirty⟩
      refine ⟨hquiet.trans hquiet', fun c hc ↦ ?_⟩
      obtain ⟨hc₁, hne⟩ := hdirty c hc
      exact (List.mem_cons.mp (hrest c hc₁)).resolve_left hne)
    (order.arrange d.cache.map.keys)
    (by
      refine ⟨Step.refl _ d, fun b hb ↦ ?_⟩
      obtain ⟨e, he, -⟩ := hb
      rw [order.mem_arrange, KeyMap.mem_keys_iff, he]
      rfl)
  refine loop.mono ?_ (fun _ _ he ↦ he)
  rintro _ d' ⟨hquiet, hnone⟩
  exact ⟨hquiet, fun b hb ↦ by simpa using hnone b hb⟩

end BlockCache

end LinuxFile
