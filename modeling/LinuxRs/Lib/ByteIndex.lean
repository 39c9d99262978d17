/-
Texts that are cut at byte positions.

# Positions

A character takes `size` bytes. `rfind` answers the byte position at which
a character starts, and a slice is taken at a byte position: inside a
character or past the end there is none. One byte after the start of a
character of two bytes is inside it (`sliceTo_inside`).

# The last separator

`lastPart` is what stands behind the last separator and `beforeLast` the
rest, the separator included.
-/
import Mathlib.Data.List.TakeWhile

namespace LinuxRs.Lib.ByteIndex

variable {α : Type} (size : α → Nat)

def length : List α → Nat
  | [] => 0
  | c :: rest => size c + length rest

/-- The byte position of the last character that satisfies `p`. -/
def rfind (p : α → Bool) : List α → Option Nat
  | [] => none
  | c :: rest =>
    match rfind p rest with
    | some i => some (size c + i)
    | none => if p c then some 0 else none

/-- The characters before a byte position. -/
def sliceTo : List α → Nat → Option (List α)
  | _, 0 => some []
  | [], _ + 1 => none
  | c :: rest, n + 1 =>
    if size c ≤ n + 1 then (sliceTo rest (n + 1 - size c)).map (c :: ·)
    else none

/-- The characters from a byte position on. -/
def sliceFrom : List α → Nat → Option (List α)
  | text, 0 => some text
  | [], _ + 1 => none
  | c :: rest, n + 1 =>
    if size c ≤ n + 1 then sliceFrom rest (n + 1 - size c) else none

variable {size}

theorem length_append (a b : List α) :
    length size (a ++ b) = length size a + length size b := by
  induction a with
  | nil => simp [length]
  | cons c a ih => simp only [List.cons_append, length, ih, Nat.add_assoc]

theorem length_cons (c : α) (a : List α) :
    length size (c :: a) = size c + length size a := rfl

-- ======== cutting at characters

theorem sliceTo_append (hpos : ∀ c, 0 < size c) (a b : List α) :
    sliceTo size (a ++ b) (length size a) = some a := by
  induction a with
  | nil =>
    unfold sliceTo
    rfl
  | cons c a ih =>
    have hc := hpos c
    obtain ⟨n, hn⟩ : ∃ n, length size (c :: a) = n + 1 :=
      ⟨length size (c :: a) - 1, by rw [length_cons]; omega⟩
    have hlen : length size (c :: a) = size c + length size a := rfl
    rw [hn, List.cons_append, sliceTo, if_pos (by omega),
      show n + 1 - size c = length size a by omega, ih]
    rfl

theorem sliceFrom_append (hpos : ∀ c, 0 < size c) (a b : List α) :
    sliceFrom size (a ++ b) (length size a) = some b := by
  induction a with
  | nil =>
    unfold sliceFrom
    rfl
  | cons c a ih =>
    have hc := hpos c
    obtain ⟨n, hn⟩ : ∃ n, length size (c :: a) = n + 1 :=
      ⟨length size (c :: a) - 1, by rw [length_cons]; omega⟩
    have hlen : length size (c :: a) = size c + length size a := rfl
    rw [hn, List.cons_append, sliceFrom, if_pos (by omega),
      show n + 1 - size c = length size a by omega, ih]

theorem sliceTo_inside (hpos : ∀ c, 0 < size c) (a : List α) {b : α}
    (hb : size b ≠ 1) : sliceTo size (a ++ [b]) (length size a + 1) = none := by
  have htwo := hpos b
  induction a with
  | nil =>
    show sliceTo size [b] 1 = none
    rw [sliceTo, if_neg (by omega)]
  | cons c a ih =>
    have hc := hpos c
    rw [List.cons_append, sliceTo, length_cons, if_pos (by omega),
      show size c + length size a + 1 - size c = length size a + 1 by omega,
      ih]
    rfl

theorem rfind_concat (p : α → Bool) (a : List α) {b : α} (hb : p b = true) :
    rfind size p (a ++ [b]) = some (length size a) := by
  induction a with
  | nil => simp [rfind, hb, length]
  | cons c a ih => rw [List.cons_append, rfind, ih, length_cons]

theorem rfind_append (p : α → Bool) (a b : List α)
    (hb : ∀ x ∈ b, p x = false) :
    rfind size p (a ++ b) = rfind size p a := by
  have hnone : rfind size p b = none := by
    induction b with
    | nil => rfl
    | cons c b ih =>
      rw [rfind, ih fun x hx => hb x (List.mem_cons_of_mem _ hx),
        hb c List.mem_cons_self]
      rfl
  induction a with
  | nil =>
    rw [List.nil_append, hnone]
    rfl
  | cons c a ih => rw [List.cons_append, rfind, rfind, ih]

-- ======== the last separator

variable [DecidableEq α] (sep : α)

def lastPart (text : List α) : List α :=
  (text.reverse.takeWhile (· ≠ sep)).reverse

def beforeLast (text : List α) : List α :=
  (text.reverse.dropWhile (· ≠ sep)).reverse

theorem beforeLast_append (text : List α) :
    beforeLast sep text ++ lastPart sep text = text := by
  unfold beforeLast lastPart
  rw [← List.reverse_append, List.takeWhile_append_dropWhile,
    List.reverse_reverse]

theorem lastPart_ne (text : List α) : ∀ x ∈ lastPart sep text, x ≠ sep := by
  intro x hx
  have hmem := List.mem_reverse.mp hx
  simpa using List.mem_takeWhile_imp hmem

theorem beforeLast_cases (text : List α) :
    beforeLast sep text = [] ∨ ∃ a, beforeLast sep text = a ++ [sep] := by
  unfold beforeLast
  cases h : text.reverse.dropWhile (· ≠ sep) with
  | nil => exact .inl rfl
  | cons c rest =>
    have hc := List.head_dropWhile_not (· ≠ sep)
      (by rw [h]; exact List.cons_ne_nil _ _)
    simp only [h, List.head_cons] at hc
    have hsep : c = sep := by simpa using hc
    exact .inr ⟨rest.reverse, by rw [hsep, List.reverse_cons]⟩

variable {sep}

theorem lastPart_of_trailing {text : List α}
    (h : text.getLast? = some sep) : lastPart sep text = [] := by
  unfold lastPart
  rw [← List.head?_reverse] at h
  cases hr : text.reverse with
  | nil => rfl
  | cons c rest =>
    rw [hr] at h
    obtain rfl := Option.some.inj h
    simp

theorem beforeLast_of_trailing {text : List α}
    (h : text.getLast? = some sep) : beforeLast sep text = text := by
  have hall := beforeLast_append sep text
  rwa [lastPart_of_trailing h, List.append_nil] at hall

end LinuxRs.Lib.ByteIndex
