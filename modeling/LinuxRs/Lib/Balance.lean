/-
Words that are balanced in two letters, one that opens and one that closes:
no prefix closes more than it opens, and the whole word opens as often as it
closes. Other letters do not count.

`Closes` is what a scan with a depth sees: a word that leads from that depth
down to 1 without reaching 0, so that the next closing letter ends the scan.
-/
import Mathlib.Data.List.Infix
import Mathlib.Tactic.Common

namespace LinuxRs.Lib

universe u

variable {α : Type u} [DecidableEq α] {opening closing x : α}
  {depth : Nat} {w : List α}

/-- Nothing closes before it opens, and all that opens closes. -/
structure WellNested (opening closing : α) (w : List α) : Prop where
  nested : ∀ u, u <+: w → u.count closing ≤ u.count opening
  even : w.count opening = w.count closing

/-- From this depth on, the last letter is the first to close it. -/
structure Closes (opening closing : α) (depth : Nat) (w : List α) : Prop where
  open_yet : ∀ u, u <+: w → u.count closing < depth + u.count opening
  last : depth + w.count opening = w.count closing + 1

theorem closes_one : Closes opening closing 1 w ↔ WellNested opening closing w := by
  constructor
  · intro h
    refine ⟨fun u hu => ?_, ?_⟩
    · have := h.open_yet u hu
      omega
    · have := h.last
      omega
  · intro h
    refine ⟨fun u hu => ?_, ?_⟩
    · have := h.nested u hu
      omega
    · have := h.even
      omega

theorem closes_nil : Closes opening closing depth [] ↔ depth = 1 := by
  constructor
  · intro h
    simpa using h.last
  · intro h
    subst h
    refine ⟨fun u hu => ?_, rfl⟩
    rw [List.prefix_nil.mp hu]
    exact Nat.one_pos

/-- The first letter changes the depth at which the rest has to close. -/
theorem closes_cons (depth' : Nat) (hpos : 0 < depth)
    (h : depth' + [x].count closing = depth + [x].count opening) :
    Closes opening closing depth (x :: w)
      ↔ Closes opening closing depth' w := by
  have hcount (a : α) (u : List α) :
      (x :: u).count a = [x].count a + u.count a := by
    rw [← List.singleton_append, List.count_append]
  have hw₁ := hcount opening w
  have hw₂ := hcount closing w
  constructor
  · intro hw
    refine ⟨fun u hu => ?_, ?_⟩
    · have := hw.open_yet (x :: u) ((List.prefix_cons_inj x).mpr hu)
      have hu₁ := hcount opening u
      have hu₂ := hcount closing u
      omega
    · have := hw.last
      omega
  · intro hw
    refine ⟨fun u hu => ?_, ?_⟩
    · rcases List.prefix_cons_iff.mp hu with rfl | ⟨t, rfl, ht⟩
      · simpa using hpos
      · have := hw.open_yet t ht
        have ht₁ := hcount opening t
        have ht₂ := hcount closing t
        omega
    · have := hw.last
      omega

theorem WellNested.reverse (h : WellNested opening closing w) :
    WellNested closing opening w.reverse := by
  refine ⟨fun u hu => ?_, ?_⟩
  · obtain ⟨v, hv⟩ := hu
    have hw : w = v.reverse ++ u.reverse := by
      rw [← List.reverse_append, hv, List.reverse_reverse]
    have hnested := h.nested v.reverse ⟨u.reverse, hw.symm⟩
    have heven := h.even
    rw [hw] at heven
    simp only [List.count_append, List.count_reverse] at heven hnested
    omega
  · rw [List.count_reverse, List.count_reverse, h.even]

end LinuxRs.Lib
