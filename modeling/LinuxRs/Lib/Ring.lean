/-
Ring buffers over a memory: `size` cells of a window of `n`, read from
`tail` on and wrapping at the end.

Copies in and out of the window are contiguous (`copyIn`, `copyOut`), as
a copy routine makes them, so a caller splits at the wrap point. Such a
copy in at the head appends to the content (`content_copyIn`), and a
copy out at the tail takes the front off it (`content_eq_copyOut`).
-/
import Mathlib.Data.Nat.ModEq

namespace LinuxRs.Lib.Ring

universe u

variable {α : Type u}

def content (n : Nat) (buf : Nat → α) (tail size : Nat) : List α :=
  (List.range size).map fun k => buf ((tail + k) % n)

def copyIn (buf : Nat → α) (base : Nat) (xs : List α) (i : Nat) : α :=
  if base ≤ i then xs[i - base]?.getD (buf i) else buf i

def copyOut (buf : Nat → α) (base len : Nat) : List α :=
  (List.range len).map fun k => buf (base + k)

@[simp] theorem length_content (n : Nat) (buf : Nat → α) (tail size : Nat) :
    (content n buf tail size).length = size := by
  simp [content]

@[simp] theorem length_copyOut (buf : Nat → α) (base len : Nat) :
    (copyOut buf base len).length = len := by
  simp [copyOut]

theorem content_succ (n : Nat) (buf : Nat → α) (tail size : Nat) :
    content n buf tail (size + 1)
      = content n buf tail size ++ [buf ((tail + size) % n)] := by
  simp [content, List.range_succ]

theorem copyIn_of_not_mem {buf : Nat → α} {base : Nat} {xs : List α}
    {i : Nat} (h : i < base ∨ base + xs.length ≤ i) :
    copyIn buf base xs i = buf i := by
  unfold copyIn
  split
  · rw [List.getElem?_eq_none (by omega), Option.getD_none]
  · rfl

theorem copyIn_of_mem {buf : Nat → α} {base : Nat} {xs : List α}
    {k : Nat} (h : k < xs.length) :
    copyIn buf base xs (base + k) = xs[k] := by
  unfold copyIn
  rw [if_pos (by omega), Nat.add_sub_cancel_left,
    List.getElem?_eq_getElem h, Option.getD_some]

private theorem wrap_ne {n t a b : Nat} (hab : a < b) (hb : b < t + n)
    (hta : t ≤ a) : a % n ≠ b % n := by
  intro h
  have hd : b - a < n := by omega
  have hmod := (Nat.modEq_iff_dvd' (by omega : a ≤ b)).mp h
  exact absurd (Nat.le_of_dvd (by omega) hmod) (by omega)

/-- What is copied in behind the content is its end. -/
theorem content_copyIn {n : Nat} {buf : Nat → α} {tail size : Nat}
    {xs : List α} (hsize : size + xs.length ≤ n)
    (hwrap : (tail + size) % n + xs.length ≤ n) :
    content n (copyIn buf ((tail + size) % n) xs) tail (size + xs.length)
      = content n buf tail size ++ xs := by
  refine List.ext_getElem (by simp) fun k hk _ => ?_
  simp only [length_content] at hk
  simp only [content, List.getElem_map, List.getElem_range]
  by_cases hold : k < size
  · rw [List.getElem_append_left (by simpa using hold)]
    simp only [List.getElem_map, List.getElem_range]
    -- An old cell is none of the cells `head … head + length`.
    refine copyIn_of_not_mem ?_
    by_contra hcon
    push Not at hcon
    obtain ⟨hlo, hhi⟩ := hcon
    have hn : 0 < n := by omega
    have hcell : (tail + k) % n
        = (tail + size + ((tail + k) % n - (tail + size) % n)) % n := by
      rw [Nat.add_mod (tail + size), Nat.mod_eq_of_lt
        (show (tail + k) % n - (tail + size) % n < n by
          have := Nat.mod_lt (tail + k) hn
          omega),
        show (tail + size) % n + ((tail + k) % n - (tail + size) % n)
          = (tail + k) % n by omega, Nat.mod_mod]
    exact wrap_ne (t := tail) (by omega) (by omega) (by omega) hcell
  · obtain ⟨j, rfl⟩ : ∃ j, k = size + j := ⟨k - size, by omega⟩
    rw [List.getElem_append_right (by simp)]
    simp only [List.length_map, List.length_range, Nat.add_sub_cancel_left]
    have hcell : (tail + (size + j)) % n = (tail + size) % n + j := by
      rw [← Nat.add_assoc, Nat.add_mod, Nat.mod_eq_of_lt (a := j) (by omega)]
      exact Nat.mod_eq_of_lt (by omega)
    rw [hcell, copyIn_of_mem (by omega)]

theorem content_eq_copyOut {n : Nat} {buf : Nat → α} {tail size len : Nat}
    (hlen : len ≤ size) (hwrap : tail + len ≤ n) :
    content n buf tail size
      = copyOut buf tail len ++ content n buf ((tail + len) % n) (size - len) := by
  refine List.ext_getElem (by simp; omega) fun k hk _ => ?_
  simp only [length_content] at hk
  simp only [content, copyOut, List.getElem_map, List.getElem_range]
  by_cases hfront : k < len
  · rw [List.getElem_append_left (by simpa using hfront)]
    simp only [List.getElem_map, List.getElem_range]
    rw [Nat.mod_eq_of_lt (by omega)]
  · rw [List.getElem_append_right (by simpa using hfront)]
    simp only [List.getElem_map, List.getElem_range, List.length_map,
      List.length_range, Nat.mod_add_mod]
    congr 2
    omega

end LinuxRs.Lib.Ring
