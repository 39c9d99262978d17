/-
Partial memories: what is known of them from an address on, and what a write
leaves known.

# The rules

`PointsTo` splits along a list. `KeepsOutside` is the frame: everything
known outside a window is still known. A write is the two together
(`Writes`), and writes that follow each other in memory are one write.
-/
import Mathlib.Logic.Function.Basic
import Mathlib.Data.List.Basic

namespace LinuxRs.Lib

universe u

variable {V : Type u} {m m' m'' : Nat → Option V} {a b n k : Nat}
  {v : V} {vs ws : List V}

-- ======== contents

/-- The values lie in memory from this address on. -/
def PointsTo (m : Nat → Option V) (a : Nat) (vs : List V) : Prop :=
  ∀ i v, vs[i]? = some v → m (a + i) = some v

@[simp] theorem pointsTo_nil (m : Nat → Option V) (a : Nat) :
    PointsTo m a [] := by
  intro i v h
  cases h

theorem pointsTo_append_iff :
    PointsTo m a (vs ++ ws)
      ↔ PointsTo m a vs ∧ PointsTo m (a + vs.length) ws := by
  refine ⟨fun h => ⟨fun i v hi => ?_, fun i v hi => ?_⟩, fun h i v hi => ?_⟩
  · have hlt := (List.getElem?_eq_some_iff.mp hi).1
    apply h
    rw [List.getElem?_append_left hlt]
    exact hi
  · rw [Nat.add_assoc]
    apply h
    rw [List.getElem?_append_right (Nat.le_add_right _ _),
      Nat.add_sub_cancel_left]
    exact hi
  · obtain ⟨hvs, hws⟩ := h
    by_cases hlt : i < vs.length
    · rw [List.getElem?_append_left hlt] at hi
      exact hvs i v hi
    · rw [List.getElem?_append_right (Nat.le_of_not_lt hlt)] at hi
      have hfar := hws _ v hi
      rw [show a + vs.length + (i - vs.length) = a + i by omega] at hfar
      exact hfar

theorem pointsTo_singleton_iff : PointsTo m a [v] ↔ m a = some v := by
  refine ⟨fun h => h 0 v rfl, fun h i w hi => ?_⟩
  obtain ⟨hlt, hw⟩ := List.getElem?_eq_some_iff.mp hi
  have hzero : i = 0 := Nat.lt_one_iff.mp hlt
  subst hzero
  rw [Nat.add_zero, h]
  exact congrArg some hw

theorem pointsTo_cons_iff :
    PointsTo m a (v :: vs) ↔ m a = some v ∧ PointsTo m (a + 1) vs := by
  rw [← List.singleton_append, pointsTo_append_iff, pointsTo_singleton_iff]
  rfl

theorem PointsTo.unique (h : PointsTo m a vs) (h' : PointsTo m a ws)
    (hlen : vs.length = ws.length) : vs = ws := by
  apply List.ext_getElem?
  intro i
  by_cases hlt : i < vs.length
  · have hv := List.getElem?_eq_getElem hlt
    have hw := List.getElem?_eq_getElem (hlen ▸ hlt)
    rw [hv, hw, ← h i _ hv, ← h' i _ hw]
  · rw [List.getElem?_eq_none (Nat.le_of_not_lt hlt),
      List.getElem?_eq_none (hlen ▸ Nat.le_of_not_lt hlt)]

-- ======== frames

/-- What is known outside a window of `n` addresses is still known. -/
def KeepsOutside (m m' : Nat → Option V) (a n : Nat) : Prop :=
  ∀ x v, x < a ∨ a + n ≤ x → m x = some v → m' x = some v

theorem KeepsOutside.refl (m : Nat → Option V) (a n : Nat) :
    KeepsOutside m m a n := fun _ _ _ h => h

theorem KeepsOutside.trans (h : KeepsOutside m m' a n)
    (h' : KeepsOutside m' m'' a n) : KeepsOutside m m'' a n :=
  fun x v hx hv => h' x v hx (h x v hx hv)

theorem KeepsOutside.mono (h : KeepsOutside m m' a n) (hlow : b ≤ a)
    (hhigh : a + n ≤ b + k) : KeepsOutside m m' b k := by
  intro x v hx hv
  exact h x v (by omega) hv

theorem KeepsOutside.of_empty (h : KeepsOutside m m' a 0) (b k : Nat) :
    KeepsOutside m m' b k := by
  intro x v _ hv
  exact h x v (by omega) hv

theorem KeepsOutside.pointsTo (h : KeepsOutside m m' a n)
    (hvs : PointsTo m b vs) (hapart : b + vs.length ≤ a ∨ a + n ≤ b) :
    PointsTo m' b vs := by
  intro i v hi
  have hlt := (List.getElem?_eq_some_iff.mp hi).1
  exact h _ v (by omega) (hvs i v hi)

-- ======== writes

/-- Values are written at an address and nowhere else. -/
structure Writes (m m' : Nat → Option V) (a : Nat) (vs : List V) : Prop where
  holds : PointsTo m' a vs
  keeps : KeepsOutside m m' a vs.length

theorem Writes.nil (m : Nat → Option V) (a : Nat) : Writes m m a [] :=
  ⟨pointsTo_nil m a, .refl m a 0⟩

theorem Writes.append (h : Writes m m' a vs)
    (h' : Writes m' m'' (a + vs.length) ws) : Writes m m'' a (vs ++ ws) := by
  refine ⟨pointsTo_append_iff.mpr ⟨?_, h'.holds⟩, ?_⟩
  · exact h'.keeps.pointsTo h.holds (.inl (Nat.le_refl _))
  · rw [List.length_append]
    exact (h.keeps.mono (Nat.le_refl a) (by omega)).trans
      (h'.keeps.mono (Nat.le_add_right _ _) (by omega))

end LinuxRs.Lib
