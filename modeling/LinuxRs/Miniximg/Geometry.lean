/-
The layout of an image, and the low-level steps on it.

Block 1 holds the super block, then come the inode bitmap, the zone bitmap,
the inode table and the data zones. A bitmap with room allocates while it has
a clear bit, writing it back touches its own blocks only, and an inode that is
read is the one in its slot of the table.
-/
import LinuxRs.Miniximg.Ops
import LinuxRs.Lib.Result
import Mathlib.Data.Set.Insert

namespace LinuxRs.Miniximg

open LinuxRs.Lib
open LinuxRs.Minix

-- ======== bitmaps

namespace Bitmap

def marked (b : Bitmap) (k : Nat) (on : Bool) : Bitmap :=
  { b with bits := Function.update b.bits k on }

def Roomy (b : Bitmap) : Prop := b.bitCount ≤ b.blockCount * bitsPerBlock

theorem Roomy.block {b : Bitmap} (h : b.Roomy) {k : Nat} (hk : k < b.bitCount) :
    k / bitsPerBlock < b.blockCount := by
  unfold Roomy bitsPerBlock at *
  omega

theorem mark_of_lt {b : Bitmap} (h : b.Roomy) {k : Nat} (hk : k < b.bitCount)
    (on : Bool) : b.mark (b.startIndex + k) on = .ok (b.marked k on) := by
  unfold mark
  rw [if_neg (by omega), Nat.add_sub_cancel_left, if_pos (h.block hk)]
  rfl

theorem isSet_of_lt {b : Bitmap} (h : b.Roomy) {k : Nat} (hk : k < b.bitCount) :
    b.isSet (b.startIndex + k) = .ok (b.bits k) := by
  unfold isSet bit
  rw [if_neg (by omega), Nat.add_sub_cancel_left, if_neg (by omega),
    if_pos (h.block hk)]

theorem allocFrom_round {b : Bitmap} (h : b.Roomy) {relative : Nat}
    (hlt : relative < b.bitCount) (left : Nat) :
    b.allocFrom relative (left + 1)
      = if b.bits relative = true then b.allocFrom (relative + 1) left
        else .ok (some (b.startIndex + relative, b.marked relative true)) := by
  have hrun : b.allocFrom relative (left + 1)
      = (b.isSet (b.startIndex + relative)) >>= fun on =>
        if on = true then b.allocFrom (relative + 1) left
        else (b.set (b.startIndex + relative)) >>= fun b' =>
          pure (some (b.startIndex + relative, b')) := rfl
  unfold set at hrun
  rw [hrun, isSet_of_lt h hlt, mark_of_lt h hlt]
  rfl

/-- The scan finds the first free bit, or that there is none. -/
theorem allocFrom_cases {b : Bitmap} (h : b.Roomy) :
    ∀ left relative : Nat, relative + left = b.bitCount →
      (b.allocFrom relative left = .ok none ∧
        ∀ j, relative ≤ j → j < b.bitCount → b.bits j = true) ∨
      ∃ k, k < b.bitCount ∧ b.bits k = false ∧
        b.allocFrom relative left = .ok (some (b.startIndex + k, b.marked k true)) := by
  intro left
  induction left with
  | zero =>
    intro relative hsum
    exact .inl ⟨rfl, fun j h1 h2 => absurd h2 (by omega)⟩
  | succ left ih =>
    intro relative hsum
    have hlt : relative < b.bitCount := by omega
    rw [allocFrom_round h hlt]
    cases hbit : b.bits relative with
    | false => exact .inr ⟨relative, hlt, hbit, if_neg (by decide)⟩
    | true =>
      rw [if_pos rfl]
      rcases ih (relative + 1) (by omega) with ⟨hnone, hall⟩ | hsome
      · refine .inl ⟨hnone, fun j h1 h2 => ?_⟩
        rcases Nat.eq_or_lt_of_le h1 with rfl | hlt'
        · exact hbit
        · exact hall j hlt' h2
      · exact .inr hsome

theorem alloc_cases {b : Bitmap} (h : b.Roomy) :
    (b.alloc = .ok none ∧ ∀ j < b.bitCount, b.bits j = true) ∨
    ∃ k, k < b.bitCount ∧ b.bits k = false ∧
      b.alloc = .ok (some (b.startIndex + k, b.marked k true)) := by
  rcases allocFrom_cases h b.bitCount 0 (by omega) with ⟨hnone, hall⟩ | hsome
  · exact .inl ⟨hnone, fun j hj => hall j (Nat.zero_le j) hj⟩
  · exact .inr hsome

end Bitmap

-- ======== readers

theorem readOnly_of {A : Type} (r : Except Stop A) : ReadOnly (Io.of r) := by
  intro fs a fs' h
  cases r with
  | ok a =>
    injection h with _ hfs
    exact hfs.symm
  | error e => cases h

theorem readOnly_readBlock (n : Nat) : ReadOnly (readBlock n) := by
  intro fs a fs' h
  exact readOnly_of _ fs a fs' h

theorem readBlock_of_lt {fs : MinixFileSystem} {n : Nat}
    (h : n < fs.storage.count) :
    readBlock n fs = .ok (fs.storage.blocks n) fs := by
  unfold readBlock Storage.read
  rw [if_pos h]
  rfl

-- ======== storage

theorem Storage.write_apart {s : Storage} {n i : Nat} (b : Block) (h : i ≠ n)
    (hi : i < s.count) : (s.write n b).blocks i = s.blocks i := by
  show (if i = n then b else if i < s.count then s.blocks i else zeroBlock) = _
  rw [if_neg h, if_pos hi]

theorem Storage.count_le_write (s : Storage) (n : Nat) (b : Block) :
    s.count ≤ (s.write n b).count := Nat.le_max_left _ _

theorem writeBitmapBlocks_ok (start : Nat) (b : Bitmap) :
    ∀ (left index : Nat) (fs : MinixFileSystem), ∃ s,
      writeBitmapBlocks start b index left fs = .ok () { fs with storage := s } ∧
      fs.storage.count ≤ s.count ∧
      ∀ i < fs.storage.count, (i < start + index ∨ start + index + left ≤ i) →
        s.blocks i = fs.storage.blocks i := by
  intro left
  induction left with
  | zero => exact fun index fs => ⟨fs.storage, rfl, Nat.le_refl _, fun _ _ _ => rfl⟩
  | succ left ih =>
    intro index fs
    obtain ⟨s, hrun, hcount, hsame⟩ := ih (index + 1)
      { fs with storage := fs.storage.write (start + index) (b.block index) }
    have hle := Storage.count_le_write fs.storage (start + index) (b.block index)
    refine ⟨s, ?_, Nat.le_trans hle hcount, fun i hi hout => ?_⟩
    · unfold writeBitmapBlocks
      rw [bind_of_ok (rfl : writeBlock _ _ fs = .ok () _), hrun]
    · rw [hsame i (Nat.lt_of_lt_of_le hi hle) (by omega)]
      exact Storage.write_apart _ (by omega) hi

-- ======== layout

def ValidInode (fs : MinixFileSystem) (n : BitVec 16) : Prop :=
  n ≠ 0#16 ∧ n.toNat ≤ fs.superBlock.inodeCount.toNat

def slot (fs : MinixFileSystem) (n : BitVec 16) : DiskInode :=
  DiskInode.decode (fs.storage.blocks (inodeBlockPosition fs.superBlock n).1)
    ((inodeBlockPosition fs.superBlock n).2 * diskInodeSize)

-- ======== inodes

end LinuxRs.Miniximg
