import LinuxFile.Spec.Frame

/-!
# Specifications of operations

`Keeps` is the judgement in which the operations are specified. From a state with its live inodes it
promises, for every end of the operation that is not a failure of the host or a panic, live inodes
for the state reached, such that only the inodes in `T` have changed: all others are the same and so
are their blocks. An error raised by the filesystem itself leaves a good state as well.
-/

namespace LinuxFile.Inner

open Ledger

/-- The parts of the state that reading and writing file data leave alone. -/
def SameShell (s t : Inner) : Prop :=
  t = { s with
    image := t.image
    cache := t.cache
    alloc := t.alloc
    inodes := t.inodes
    dirtyInodes := t.dirtyInodes
    recordCache := t.recordCache }

theorem SameShell.refl (s : Inner) : SameShell s s := rfl

theorem SameShell.trans {s t u : Inner} (hst : SameShell s t) (htu : SameShell t u) :
    SameShell s u := by
  unfold SameShell at *
  rw [htu, hst]

theorem SameShell.sb {s t : Inner} (h : SameShell s t) : t.sb = s.sb := by
  rw [h]

theorem SameShell.recordBlocks {s t : Inner} (h : SameShell s t) : t.recordBlocks = s.recordBlocks := by
  rw [h]

theorem SameShell.env {s t : Inner} (h : SameShell s t) : t.env = s.env := by
  rw [h]

theorem SameShell.writable {s t : Inner} (h : SameShell s t) : t.writable = s.writable := by
  rw [h]

/-- `read_inode_raw` finds no inode in these bytes. -/
def Unused (ino : ℕ) (raw : Buf inodeSize) : Prop :=
  (raw.slice 0 inodeSize).all (· == 0) = true ∨ raw.getU16 0 = 0 ∨
    ∃ e, Inode.decode ino raw = .error e

/-- No inode is found at this number. -/
def Vacant (s : Inner) (ino : ℕ) : Prop :=
  ino = 0 ∨ inodeTableCapacity s.sb ≤ ino ∨ s.SlotAll ino (Unused ino)

structure Evolves (T : ℕ → Prop) (s : Inner) (live : KeyMap Inode) (t : Inner)
    (live' : KeyMap Inode) : Prop where
  shell : SameShell s t
  ghost : ∀ k, ¬T k → live'.find? k = live.find? k
  blocks : ∀ k i, ¬T k → live.find? k = some i → KeepsBlocks i.ranges s t
  memory : ∀ k i, s.inodes.find? k = some i → ∃ i', t.inodes.find? k = some i'
  slots : ∀ k P, (T k → s.sb.nextInode ≤ k) → s.SlotAll k P → t.SlotAll k P

theorem Evolves.refl (T : ℕ → Prop) (s : Inner) (live : KeyMap Inode) : Evolves T s live s live :=
  ⟨rfl, fun _ _ ↦ rfl, fun _ _ _ _ _ _ _ hP ↦ hP, fun _ i h ↦ ⟨i, h⟩, fun _ _ _ h ↦ h⟩

theorem Evolves.trans {T : ℕ → Prop} {s t u : Inner} {live live' live'' : KeyMap Inode}
    (hst : Evolves T s live t live') (htu : Evolves T t live' u live'') :
    Evolves T s live u live'' where
  shell := hst.shell.trans htu.shell
  ghost k hk := (htu.ghost k hk).trans (hst.ghost k hk)
  blocks k i hk hi := (hst.blocks k i hk hi).trans (htu.blocks k i hk (by rw [hst.ghost k hk]; exact hi))
  memory k i h := by
    obtain ⟨i', h'⟩ := hst.memory k i h
    exact htu.memory k i' h'
  slots k P hk h := htu.slots k P (by rw [hst.shell.sb]; exact hk) (hst.slots k P hk h)

theorem Evolves.weaken {T T' : ℕ → Prop} {s t : Inner} {live live' : KeyMap Inode}
    (h : Evolves T s live t live') (hsub : ∀ k, T k → T' k) : Evolves T' s live t live' where
  shell := h.shell
  ghost k hk := h.ghost k fun hT ↦ hk (hsub k hT)
  blocks k i hk hi := h.blocks k i (fun hT ↦ hk (hsub k hT)) hi
  memory := h.memory
  slots k P hk hP := h.slots k P (fun hT ↦ hk (hsub k hT)) hP

/-- The record in memory belongs to an inode in `T`. -/
def Held (T : ℕ → Prop) (s : Inner) : Prop := ∀ c, s.recordCache = some c → T c.ino

structure Good (T : ℕ → Prop) (s : Inner) (live : KeyMap Inode) : Prop where
  inv : s.Inv live []
  held : Held T s

/-- The judgement of the module docstring. -/
def Keeps {α : Type} (T : ℕ → Prop) (s : Inner) (live : KeyMap Inode) (x : Fs α)
    (Q : α → Inner → KeyMap Inode → Prop) : Prop :=
  x.Holds s (fun a t ↦ ∃ live', Evolves T s live t live' ∧ Q a t live')
    (fun e t ↦ e.IsHost ∨ ∃ live', Evolves T s live t live' ∧ Good T t live')

variable {α β : Type} {T : ℕ → Prop} {s t : Inner} {live live' : KeyMap Inode} {hand : List (ℕ × ℕ)}
  {x : Fs α} {f : α → Fs β} {Q Q' : α → Inner → KeyMap Inode → Prop}
  {R : β → Inner → KeyMap Inode → Prop}

/-! ## Rules -/

theorem Keeps.mono (h : Keeps T s live x Q)
    (hQ : ∀ a t live', Evolves T s live t live' → Q a t live' → Q' a t live') :
    Keeps T s live x Q' :=
  Exec.Holds.mono h (fun a t ⟨live', hev, hq⟩ ↦ ⟨live', hev, hQ a t live' hev hq⟩) (fun _ _ he ↦ he)

/-- What is promised after an evolution is promised from before it. -/
theorem Keeps.after (hev : Evolves T s live t live') (h : Keeps T t live' x Q) :
    x.Holds t (fun a u ↦ ∃ live'', Evolves T s live u live'' ∧ Q a u live'')
      (fun e u ↦ e.IsHost ∨ ∃ live'', Evolves T s live u live'' ∧ Good T u live'') :=
  Exec.Holds.mono h (fun _ _ ⟨live'', hev', hq⟩ ↦ ⟨live'', hev.trans hev', hq⟩)
    (fun _ _ he ↦ he.imp_right fun ⟨live'', hev', hgood⟩ ↦ ⟨live'', hev.trans hev', hgood⟩)

theorem Keeps.bind (h : Keeps T s live x Q)
    (hf : ∀ a t live', Evolves T s live t live' → Q a t live' → Keeps T t live' (f a) R) :
    Keeps T s live (x >>= f) R :=
  Exec.Holds.bind h (fun a t ⟨live', hev, hq⟩ ↦ (hf a t live' hev hq).after hev) (fun _ _ he ↦ he)

theorem Keeps.pure {a : α} (h : Q a s live) : Keeps T s live (pure a) Q :=
  ⟨live, Evolves.refl T s live, h⟩

/-- A first part that only computes. -/
theorem Keeps.bind_ok {a : α} (hx : x s = .ok a s) (h : Keeps T s live (f a) R) :
    Keeps T s live (x >>= f) R := by
  unfold Keeps at *
  rw [Exec.holds_bind]
  unfold Exec.Holds at *
  rw [hx]
  exact h

theorem Keeps.read {γ : Type} {g : Inner → γ} {f : γ → Fs β} (h : Keeps T s live (f (g s)) R) :
    Keeps T s live (Exec.read g >>= f) R := Keeps.bind_ok rfl h

/-- A first part whose result is known. -/
theorem Keeps.bind_step {a : α} (hx : x s = .ok a t) (hev : Evolves T s live t live')
    (h : Keeps T t live' (f a) R) : Keeps T s live (x >>= f) R := by
  unfold Keeps
  rw [Exec.holds_bind]
  unfold Exec.Holds
  rw [hx]
  exact h.after hev

/-- A last part whose result is known. -/
theorem Keeps.of_step {a : α} (hx : x s = .ok a t) (hev : Evolves T s live t live')
    (h : Q a t live') : Keeps T s live x Q := by
  unfold Keeps Exec.Holds
  rw [hx]
  exact ⟨live', hev, h⟩

/-! ## Steps of the judgement -/

/-- Changes of cache and image that spare the table and the blocks of inodes outside `T`. -/
theorem Evolves.disk {W : ℕ → Prop} {d : CachedImage} (hstep : CachedImage.Step W s.disk d)
    (htable : ∀ b, W b → cover (tableRanges s.sb) b = 0)
    (hblocks : ∀ b, W b → ∀ k i, ¬T k → live.find? k = some i → cover i.ranges b = 0) :
    Evolves T s live (s.withDisk d) live where
  shell := rfl
  ghost _ _ := rfl
  blocks k i hk hi := KeepsBlocks.step hstep fun b hb ↦ hblocks b hb k i hk hi
  memory _ i h := ⟨i, h⟩
  slots _ _ _ h := h.step rfl hstep htable

theorem Evolves.quiet {d : CachedImage} (hstep : CachedImage.Quiet s.disk d) :
    Evolves T s live (s.withDisk d) live :=
  Evolves.disk hstep (fun _ hb ↦ hb.elim) (fun _ hb ↦ hb.elim)

/-- Changes that leave cache and image alone. -/
theorem Evolves.memory_only (hshell : SameShell s t) (hdisk : t.disk = s.disk)
    (hghost : ∀ k, ¬T k → live'.find? k = live.find? k)
    (hmem : ∀ k i, s.inodes.find? k = some i → ∃ i', t.inodes.find? k = some i') :
    Evolves T s live t live' where
  shell := hshell
  ghost := hghost
  blocks _ _ _ _ _ _ _ hP := by rw [hdisk]; exact hP
  memory := hmem
  slots k P _ h := by
    unfold SlotAll at *
    rw [hshell.sb, hdisk]
    exact h

/-- An allocation. -/
theorem Evolves.grown {alloc : Allocator} {img : Image} (h : Image.Grown s.image img) :
    Evolves T s live { s with alloc := alloc, image := img } live := by
  have hq : CachedImage.Quiet s.disk ⟨s.cache, img⟩ := CachedImage.Step.of_grown h
  have hev : Evolves T s live (s.withDisk ⟨s.cache, img⟩) live := Evolves.quiet hq
  exact ⟨rfl, hev.ghost, hev.blocks, hev.memory, hev.slots⟩

end LinuxFile.Inner
