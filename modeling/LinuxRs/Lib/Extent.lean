/-
Extents: ranges of addresses given by a start and a size.

`Apart` is disjointness, `Within` is inclusion, and a list is `Spaced`
when it ascends and leaves a gap between any two neighbours. An extent
that is apart from the parts of a range is apart from the range, and the
other way round, which is all that splitting and merging need.
-/
import Mathlib.Algebra.BigOperators.Group.List.Basic
import Mathlib.Algebra.Order.BigOperators.Group.List
import Mathlib.Algebra.Order.Ring.Nat

namespace LinuxRs.Lib

/-- The addresses from `start` up to `start + size`. -/
structure Extent where
  start : Nat
  size : Nat
  deriving DecidableEq

namespace Extent

variable {e f g : Extent} {l l' : List Extent}

def stop (e : Extent) : Nat := e.start + e.size

def Apart (e f : Extent) : Prop := e.stop ≤ f.start ∨ f.stop ≤ e.start

def Within (e f : Extent) : Prop := f.start ≤ e.start ∧ e.stop ≤ f.stop

theorem Apart.symm (h : Apart e f) : Apart f e := Or.symm h

theorem Apart.of_within (h : Apart e f) (hw : Within g e) : Apart g f := by
  unfold Apart Within at *
  omega

theorem Within.trans (h : Within e f) (h' : Within f g) : Within e g :=
  ⟨h'.1.trans h.1, h.2.trans h'.2⟩

theorem Apart.merge {start n m : Nat} (hpos : 0 < e.size)
    (h : Apart e ⟨start, n⟩) (h' : Apart e ⟨start + n, m⟩) :
    Apart e ⟨start, n + m⟩ := by
  unfold Apart stop at *
  dsimp only at *
  omega

-- ======== lists

/-- The extents come in order with a gap between any two. -/
def Spaced (l : List Extent) : Prop := l.Pairwise fun e f => e.stop < f.start

def total (l : List Extent) : Nat := (l.map size).sum

@[simp] theorem total_nil : total [] = 0 := rfl

@[simp] theorem total_cons (e : Extent) (l : List Extent) :
    total (e :: l) = e.size + total l := List.sum_cons

@[simp] theorem total_append (l l' : List Extent) :
    total (l ++ l') = total l + total l' := by
  unfold total
  rw [List.map_append, List.sum_append]

theorem total_perm (h : l.Perm l') : total l = total l' :=
  (h.map size).sum_eq

theorem Spaced.cons_of_lt (h : Spaced (f :: l)) (hlt : e.stop < f.start) :
    Spaced (e :: f :: l) := by
  refine List.pairwise_cons.mpr ⟨fun g hg => ?_, h⟩
  rcases List.mem_cons.mp hg with rfl | hg
  · exact hlt
  · have hnext : f.stop < g.start := List.rel_of_pairwise_cons h hg
    unfold stop at *
    omega

theorem Spaced.gap (h : Spaced l) :
    l.Pairwise fun e f => Apart e f ∧ e.stop ≠ f.start ∧ f.stop ≠ e.start := by
  refine h.imp fun {e f} hlt => ⟨.inl hlt.le, hlt.ne, ?_⟩
  unfold stop at *
  omega

end Extent

end LinuxRs.Lib
