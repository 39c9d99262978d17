/-
Sparse sequences: an element for every position, and a size from which on
every element is the given zero. A write puts a list over the elements and
extends the size; what lies between the old end and the write reads as
zero. Writes of two adjacent lists are one write (`overlay_append`), so a
loop over pieces is one write of the whole.
-/
import Mathlib.Data.List.GetD

namespace LinuxRs.Lib

variable {β : Type}

def overlay (f : Nat → β) (off : Nat) (data : List β) : Nat → β := fun p =>
  if off ≤ p then data.getD (p - off) (f p) else f p

theorem overlay_of_lt {f : Nat → β} {off p : Nat} {data : List β}
    (h : p < off) : overlay f off data p = f p :=
  if_neg (by omega)

theorem overlay_of_le {f : Nat → β} {off p : Nat} {data : List β}
    (h : off + data.length ≤ p) : overlay f off data p = f p := by
  unfold overlay
  rw [if_pos (by omega), List.getD_eq_default _ _ (by omega)]

@[simp] theorem overlay_nil (f : Nat → β) (off : Nat) :
    overlay f off [] = f := by
  funext p
  unfold overlay
  split <;> rfl

theorem overlay_append (f : Nat → β) (off : Nat) (a b : List β) :
    overlay (overlay f off a) (off + a.length) b = overlay f off (a ++ b) := by
  funext p
  rcases Nat.lt_or_ge p (off + a.length) with hp | hp
  · rw [overlay_of_lt hp]
    unfold overlay
    split
    next h =>
      rw [List.getD_eq_getElem _ _ (by omega),
        List.getD_eq_getElem _ _ (by rw [List.length_append]; omega),
        List.getElem_append_left]
    next => rfl
  · unfold overlay
    rw [if_pos hp, if_pos (by omega), if_pos (by omega),
      List.getD_eq_default _ _ (show a.length ≤ p - off by omega)]
    simp only [List.getD_eq_getElem?_getD]
    rw [List.getElem?_append_right (by omega),
      show p - off - a.length = p - (off + a.length) by omega]

@[ext] structure Sparse (β : Type) (zero : β) where
  size : Nat
  get : Nat → β
  beyond : ∀ p, size ≤ p → get p = zero

namespace Sparse

variable {zero : β}

def write (s : Sparse β zero) (off : Nat) (data : List β) : Sparse β zero where
  size := if data = [] then s.size else max s.size (off + data.length)
  get := overlay s.get off data
  beyond := by
    intro p hp
    split at hp
    next h => rw [h, overlay_nil, s.beyond p hp]
    next h =>
      rw [overlay_of_le (by omega)]
      exact s.beyond p (by omega)

/-- What is read from a position on, up to a length and up to the end. -/
def read (s : Sparse β zero) (pos len : Nat) : List β :=
  (List.range (min len (s.size - pos))).map fun i => s.get (pos + i)

end Sparse

end LinuxRs.Lib
