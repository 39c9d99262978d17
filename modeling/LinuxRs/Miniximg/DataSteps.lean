/-
What the steps on data leave alone on any file system, however they end
(miniximg/miniximg-core/src/fs.rs).

Zones are taken and given back and blocks and inodes are written; the super
block and the inode bitmap stay as they are, and the store does not shrink.
Only the steps that take or give back an inode number touch the inode bitmap,
and they touch nothing else that is kept in memory.
-/
import LinuxRs.Miniximg.Opening

namespace LinuxRs.Miniximg

open LinuxRs.Lib
open LinuxRs.Minix

variable {fs fs' fs'' : MinixFileSystem} {A B : Type}

-- ======== one bit

def Bitmap.Covers (b : Bitmap) (value : Nat) : Prop :=
  b.startIndex ≤ value ∧ (value - b.startIndex) / bitsPerBlock < b.blockCount

/-- A step on the data of a file: no inode is taken or freed. -/
structure DataStep (fs fs' : MinixFileSystem) : Prop where
  superBlock : fs'.superBlock = fs.superBlock
  inodeBitmap : fs'.inodeBitmap = fs.inodeBitmap
  count : fs.storage.count ≤ fs'.storage.count

theorem DataStep.refl (fs : MinixFileSystem) : DataStep fs fs :=
  ⟨rfl, rfl, Nat.le_refl _⟩

theorem DataStep.trans (h : DataStep fs fs') (h' : DataStep fs' fs'') :
    DataStep fs fs'' :=
  ⟨h'.superBlock.trans h.superBlock, h'.inodeBitmap.trans h.inodeBitmap,
    Nat.le_trans h.count h'.count⟩

def OnData (x : Io A) : Prop := Moves DataStep x

def OnDataAt (x : InodeIo A) : Prop := Moves (fun st st' => DataStep st.1 st'.1) x

namespace OnData

theorem of_looks {x : Io A} (h : ∀ fs, Looks fs x) : OnData x := by
  intro fs
  rcases h fs with ⟨a, ha⟩ | ⟨e, he⟩
  · rw [ha]
    exact .refl fs
  · rw [he]
    exact .refl fs

theorem pure (a : A) : OnData (Pure.pure a) := of_looks fun _ => .pure a

theorem fail (e : MinixError) : OnData (Io.fail e : Io A) :=
  of_looks fun _ => .fail e

theorem of (r : Except Stop A) : OnData (Io.of r) := by
  intro fs
  cases r with
  | ok a => exact .refl fs
  | error e => exact .refl fs

theorem bind {x : Io A} {f : A → Io B} (hx : OnData x) (hf : ∀ a, OnData (f a)) :
    OnData (x >>= f) :=
  Moves.bind (fun _ _ _ h h' => h.trans h') hx hf

theorem ite {c : Prop} [Decidable c] {x y : Io A} (hx : OnData x)
    (hy : OnData y) : OnData (if c then x else y) := Moves.ite hx hy

theorem get {f : MinixFileSystem → Io A} (h : ∀ fs, OnData (f fs)) :
    OnData ((MonadState.get : Io MinixFileSystem) >>= f) :=
  fun fs => h fs fs

end OnData

namespace OnDataAt

theorem bind {x : InodeIo A} {f : A → InodeIo B} (hx : OnDataAt x)
    (hf : ∀ a, OnDataAt (f a)) : OnDataAt (x >>= f) :=
  Moves.bind (fun _ _ _ h h' => h.trans h') hx hf

theorem ite {c : Prop} [Decidable c] {x y : InodeIo A} (hx : OnDataAt x)
    (hy : OnDataAt y) : OnDataAt (if c then x else y) := Moves.ite hx hy

theorem pure (a : A) : OnDataAt (Pure.pure a) := fun st => .refl st.1

theorem inode : OnDataAt InodeIo.inode := fun st => .refl st.1

theorem change (f : DiskInode → DiskInode) : OnDataAt (InodeIo.change f) :=
  fun st => .refl st.1

theorem lift {x : Io A} (h : OnData x) : OnDataAt (InodeIo.lift x) := by
  intro st
  have hstep := h st.1
  unfold InodeIo.lift
  cases hrun : x st.1 with
  | ok a fs =>
    rw [hrun] at hstep
    exact hstep
  | error e fs =>
    rw [hrun] at hstep
    exact hstep

end OnDataAt

end LinuxRs.Miniximg
