/-
Longest common subsequences by their recursion: `lcs` follows the heads of
two lists, and no common subsequence is longer.
-/
import Mathlib.Data.List.Basic
import Mathlib.Tactic.Common

namespace LinuxRs.Lib

universe u

variable {α : Type u} [DecidableEq α]

def lcs : List α → List α → Nat
  | [], _ => 0
  | _ :: _, [] => 0
  | x :: xs, y :: ys =>
    if x = y then lcs xs ys + 1 else max (lcs (x :: xs) ys) (lcs xs (y :: ys))
  termination_by xs ys => xs.length + ys.length

@[simp] theorem lcs_nil_left (ys : List α) : lcs [] ys = 0 := by
  rw [lcs]

@[simp] theorem lcs_nil_right (xs : List α) : lcs xs [] = 0 := by
  cases xs with
  | nil => rw [lcs]
  | cons x xs => rw [lcs]

theorem lcs_cons (x y : α) (xs ys : List α) : lcs (x :: xs) (y :: ys)
    = if x = y then lcs xs ys + 1
      else max (lcs (x :: xs) ys) (lcs xs (y :: ys)) := by
  rw [lcs]

/-- No common subsequence is longer. -/
theorem length_le_lcs {s xs ys : List α} (hxs : s.Sublist xs)
    (hys : s.Sublist ys) : s.length ≤ lcs xs ys := by
  induction xs, ys using lcs.induct generalizing s with
  | case1 ys =>
    rw [List.sublist_nil.mp hxs]
    exact Nat.zero_le _
  | case2 x xs =>
    rw [List.sublist_nil.mp hys]
    exact Nat.zero_le _
  | case3 x xs ys ih =>
    have htail := ih hxs.tail hys.tail
    rw [lcs_cons, if_pos rfl]
    rw [List.length_tail] at htail
    omega
  | case4 x xs y ys hne ihx ihy =>
    rw [lcs_cons, if_neg hne]
    rcases List.sublist_cons_iff.mp hxs with hx | ⟨r, hr, -⟩
    · exact Nat.le_trans (ihy hx hys) (Nat.le_max_right _ _)
    · rcases List.sublist_cons_iff.mp hys with hy | ⟨t, ht, -⟩
      · exact Nat.le_trans (ihx hxs hy) (Nat.le_max_left _ _)
      · -- the heads of both lists cannot begin it
        rw [hr] at ht
        exact absurd (List.cons.inj ht).1 hne

end LinuxRs.Lib
