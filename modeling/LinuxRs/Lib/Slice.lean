/-
Pieces of byte sequences: reading a piece, writing over one, and
little-endian words.

`overwrite` is what a write at a file position does, padding included. A
piece read back from where it was written is what was written, and a piece
apart from it is untouched.
-/
import Mathlib.Data.List.Basic
import Mathlib.Tactic.Common

namespace LinuxRs.Lib

variable {A : Type} {l a b : List A} {off n : Nat}

-- ======== slices

def slice (l : List A) (off n : Nat) : List A := (l.drop off).take n

theorem length_slice (h : off + n ≤ l.length) : (slice l off n).length = n := by
  unfold slice
  rw [List.length_take, List.length_drop]
  omega

theorem slice_append_right (a b : List A) (off n : Nat) :
    slice (a ++ b) (a.length + off) n = slice b off n := by
  unfold slice
  rw [List.drop_append, List.drop_of_length_le (Nat.le_add_right _ _),
    List.nil_append, Nat.add_sub_cancel_left]

theorem slice_append_left (a b : List A) : slice (a ++ b) 0 a.length = a := by
  unfold slice
  rw [List.drop_zero, List.take_left]

theorem slice_append_of_le (h : off + n ≤ a.length) (b : List A) :
    slice (a ++ b) off n = slice a off n := by
  unfold slice
  rw [List.drop_append_of_le_length (by omega),
    List.take_append_of_le_length (by rw [List.length_drop]; omega)]

theorem slice_slice {off' n' : Nat} (h : off' + n' ≤ n) :
    slice (slice l off n) off' n' = slice l (off + off') n' := by
  unfold slice
  rw [List.drop_take, List.drop_drop, List.take_take, Nat.min_eq_left (by omega)]

-- ======== writing

def overwrite (fill : A) (l : List A) (off : Nat) (xs : List A) : List A :=
  (l.take off ++ List.replicate (off - l.length) fill) ++ xs
    ++ l.drop (off + xs.length)

variable {fill : A} {xs : List A}

theorem overwrite_eq (h : off ≤ l.length) :
    overwrite fill l off xs = l.take off ++ (xs ++ l.drop (off + xs.length)) := by
  unfold overwrite
  rw [Nat.sub_eq_zero_of_le h, List.replicate_zero, List.append_nil,
    List.append_assoc]

@[simp] theorem length_overwrite (h : off + xs.length ≤ l.length) :
    (overwrite fill l off xs).length = l.length := by
  rw [overwrite_eq (by omega)]
  simp only [List.length_append, List.length_take, List.length_drop]
  omega

theorem slice_overwrite_self (h : off + xs.length ≤ l.length) :
    slice (overwrite fill l off xs) off xs.length = xs := by
  have hlen : (l.take off).length = off := by
    rw [List.length_take]
    omega
  have hright := slice_append_right (l.take off)
    (xs ++ l.drop (off + xs.length)) 0 xs.length
  rw [hlen, Nat.add_zero] at hright
  rw [overwrite_eq (by omega), hright, slice_append_left]

theorem slice_overwrite_apart {off' : Nat} (h : off + xs.length ≤ l.length)
    (hapart : off' + n ≤ off ∨ off + xs.length ≤ off') :
    slice (overwrite fill l off xs) off' n = slice l off' n := by
  have hlen : (l.take off).length = off := by
    rw [List.length_take]
    omega
  rw [overwrite_eq (by omega)]
  rcases hapart with hbefore | hafter
  · rw [slice_append_of_le (by omega)]
    unfold slice
    rw [List.drop_take, List.take_take, Nat.min_eq_left (by omega)]
  · obtain ⟨k, rfl⟩ := Nat.exists_eq_add_of_le hafter
    have hright := slice_append_right (l.take off)
      (xs ++ l.drop (off + xs.length)) (xs.length + k) n
    rw [hlen, ← Nat.add_assoc] at hright
    rw [hright, slice_append_right]
    unfold slice
    rw [List.drop_drop]

theorem overwrite_append {ys : List A}
    (h : off + xs.length + ys.length ≤ l.length) :
    overwrite fill (overwrite fill l off xs) (off + xs.length) ys =
      overwrite fill l off (xs ++ ys) := by
  have hlen : (l.take off).length = off := by
    rw [List.length_take]
    omega
  have hfirst : overwrite fill l off xs =
      l.take off ++ (xs ++ l.drop (off + xs.length)) := overwrite_eq (by omega)
  have hsplit : (l.take off ++ xs).length = off + xs.length := by
    rw [List.length_append, hlen]
  rw [overwrite_eq (by rw [length_overwrite (by omega)]; omega), hfirst,
    overwrite_eq (by omega), ← List.append_assoc (l.take off), ← hsplit,
    List.take_left, List.drop_append, List.drop_of_length_le (by omega),
    List.nil_append, Nat.add_sub_cancel_left, List.drop_drop, hsplit,
    List.length_append]
  simp only [List.append_assoc, Nat.add_assoc]

-- ======== words

def u32Limit : Nat := 0x100000000

def leBytes32 (x : BitVec 32) : List (BitVec 8) :=
  [x.extractLsb' 0 8, x.extractLsb' 8 8, x.extractLsb' 16 8, x.extractLsb' 24 8]

/-- `u32::from_le_bytes`, on the first four bytes of a list. -/
def ofLeBytes32 (l : List (BitVec 8)) : BitVec 32 :=
  l.getD 3 0#8 ++ l.getD 2 0#8 ++ l.getD 1 0#8 ++ l.getD 0 0#8

def leBytes16 (x : BitVec 16) : List (BitVec 8) :=
  [x.extractLsb' 0 8, x.extractLsb' 8 8]

/-- `u16::from_le_bytes`, on the first two bytes of a list. -/
def ofLeBytes16 (l : List (BitVec 8)) : BitVec 16 :=
  l.getD 1 0#8 ++ l.getD 0 0#8

@[simp] theorem length_leBytes32 (x : BitVec 32) : (leBytes32 x).length = 4 :=
  rfl

@[simp] theorem length_leBytes16 (x : BitVec 16) : (leBytes16 x).length = 2 :=
  rfl

@[simp] theorem ofLeBytes32_leBytes32 (x : BitVec 32) :
    ofLeBytes32 (leBytes32 x) = x := by
  show x.extractLsb' 24 8 ++ x.extractLsb' 16 8 ++ x.extractLsb' 8 8
    ++ x.extractLsb' 0 8 = x
  rw [BitVec.extractLsb'_append_extractLsb'_eq_extractLsb'
      (show 24 = 16 + 8 from rfl),
    BitVec.extractLsb'_append_extractLsb'_eq_extractLsb'
      (show 16 = 8 + 8 from rfl),
    BitVec.extractLsb'_append_extractLsb'_eq_extractLsb'
      (show 8 = 0 + 8 from rfl)]
  exact BitVec.extractLsb'_eq_self

@[simp] theorem ofLeBytes16_leBytes16 (x : BitVec 16) :
    ofLeBytes16 (leBytes16 x) = x := by
  show x.extractLsb' 8 8 ++ x.extractLsb' 0 8 = x
  rw [BitVec.extractLsb'_append_extractLsb'_eq_extractLsb'
    (show 8 = 0 + 8 from rfl)]
  exact BitVec.extractLsb'_eq_self

end LinuxRs.Lib
