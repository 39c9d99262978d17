/-
Counting who points at what: for a finite family of optional pointers,
the number of members that point at a given target, and how it moves
when one member changes.
-/
import Mathlib.Algebra.BigOperators.Ring.Finset
import Mathlib.Data.Fintype.Card

namespace LinuxRs.Lib

universe u v

variable {T : Type u} {X : Type v} [Fintype T] [DecidableEq T] [DecidableEq X]

def pointers (f : T → Option X) (x : X) : Nat :=
  (Finset.univ.filter fun t => f t = some x).card

def share (o : Option X) (x : X) : Nat := if o = some x then 1 else 0

@[simp] theorem share_none (x : X) : share none x = 0 := rfl

@[simp] theorem share_self (x : X) : share (some x) x = 1 := by
  simp [share]

theorem share_of_ne {x y : X} (h : x ≠ y) : share (some x) y = 0 := by
  simp [share, h]

omit [DecidableEq X] in
theorem sum_update (f : T → X) (g : X → Nat) (t : T) (v : X) :
    (∑ u, g (Function.update f t v u)) + g (f t) = (∑ u, g (f u)) + g v := by
  have hsum : ∀ h : T → X, ∑ u, g (h u)
      = g (h t) + ∑ u ∈ Finset.univ.erase t, g (h u) := fun h =>
    (Finset.add_sum_erase _ (fun u => g (h u)) (Finset.mem_univ t)).symm
  have hrest : ∑ u ∈ Finset.univ.erase t, g (Function.update f t v u)
      = ∑ u ∈ Finset.univ.erase t, g (f u) := by
    refine Finset.sum_congr rfl fun u hu => ?_
    rw [Function.update_of_ne (Finset.ne_of_mem_erase hu)]
  rw [hsum, hsum f, hrest, Function.update_self]
  omega

theorem pointers_update (f : T → Option X) (t : T) (o : Option X) (x : X) :
    pointers (Function.update f t o) x + share (f t) x
      = pointers f x + share o x := by
  simp only [pointers, Finset.card_filter]
  exact sum_update f (fun o => share o x) t o

omit [DecidableEq T] in
theorem pointers_pos {f : T → Option X} {t : T} {x : X}
    (h : f t = some x) : 0 < pointers f x :=
  Finset.card_pos.mpr ⟨t, by simp [h]⟩

omit [DecidableEq T] in
theorem pointers_eq_zero {f : T → Option X} {x : X}
    (h : ∀ t, f t ≠ some x) : pointers f x = 0 := by
  simp [pointers, h]

end LinuxRs.Lib
