/-
Strings and bytes of the shell. Where the source takes a string apart into
its bytes and pushes each `as char`, the result is the string's UTF-8
encoding read as Latin-1: `byteChars`. It is the identity on ASCII text
and makes everything else longer, which is what the laws of quoting hang
on.
-/
import Mathlib.Data.List.Basic
import LinuxRs.Shell.Ast

namespace LinuxRs.Shell

-- ======== numbers

def showNat (n : Nat) : Text := (Nat.repr n).toList

def showInt (n : Int) : Text := (toString n).toList

def parseDigits : Text → Nat → Option Nat
  | [], n => some n
  | c :: rest, n =>
    if '0' ≤ c ∧ c ≤ '9' then parseDigits rest (n * 10 + (c.toNat - 48))
    else none

def parseI32 : Text → Option Int
  | [] => none
  | ['-'] => none
  | ['+'] => none
  | '-' :: digits =>
    (parseDigits digits 0).bind fun n =>
      if n ≤ 2147483648 then some (-(n : Int)) else none
  | '+' :: digits =>
    (parseDigits digits 0).bind fun n =>
      if n ≤ 2147483647 then some (n : Int) else none
  | digits =>
    (parseDigits digits 0).bind fun n =>
      if n ≤ 2147483647 then some (n : Int) else none

-- ======== bytes

def asChar (b : UInt8) : Char := Char.ofNat b.toNat

def byteChars (s : Text) : Text :=
  (s.flatMap String.utf8EncodeChar).map asChar

def isAscii (c : Char) : Bool := c.toNat < 128

theorem byteChars_append (s t : Text) :
    byteChars (s ++ t) = byteChars s ++ byteChars t := by
  simp [byteChars]

theorem byteChars_cons (c : Char) (s : Text) :
    byteChars (c :: s) = (String.utf8EncodeChar c).map asChar ++ byteChars s := by
  simp [byteChars]

theorem map_asChar_utf8EncodeChar {c : Char} (h : isAscii c = true) :
    (String.utf8EncodeChar c).map asChar = [c] := by
  have hlt : c.toNat < 128 := by simpa [isAscii] using h
  have hsize : c.utf8Size = 1 := by
    rw [Char.utf8Size_eq_one_iff, UInt32.le_iff_toNat_le]
    have hval : c.val.toNat = c.toNat := rfl
    rw [hval]
    show c.toNat ≤ 127
    omega
  rw [String.utf8EncodeChar_eq_singleton hsize]
  simp only [List.map_cons, List.map_nil, List.cons.injEq, and_true, asChar]
  have hnat : (c.val.toUInt8).toNat = c.toNat := by
    rw [UInt32.toNat_toUInt8]
    have hval : c.val.toNat = c.toNat := rfl
    omega
  rw [hnat]
  exact Char.ofNat_toNat c

theorem length_utf8EncodeChar_of_not_ascii {c : Char}
    (h : isAscii c = false) : 1 < (String.utf8EncodeChar c).length := by
  have hge : 128 ≤ c.toNat := by simpa [isAscii] using h
  rw [String.length_utf8EncodeChar]
  have hpos := c.utf8Size_pos
  have hne : c.utf8Size ≠ 1 := by
    rw [Ne, Char.utf8Size_eq_one_iff, UInt32.le_iff_toNat_le]
    have hval : c.val.toNat = c.toNat := rfl
    rw [hval]
    show ¬ c.toNat ≤ 127
    omega
  omega

theorem byteChars_of_ascii {s : Text} (h : ∀ c ∈ s, isAscii c = true) :
    byteChars s = s := by
  induction s with
  | nil => rfl
  | cons c s ih =>
    rw [byteChars_cons, map_asChar_utf8EncodeChar (h c List.mem_cons_self),
      ih fun d hd => h d (List.mem_cons_of_mem c hd)]
    rfl

theorem byteChars_of_all {s : Text} (h : s.all isAscii = true) :
    byteChars s = s := byteChars_of_ascii (List.all_eq_true.mp h)

theorem length_le_byteChars (s : Text) : s.length ≤ (byteChars s).length := by
  induction s with
  | nil => exact Nat.le_refl 0
  | cons c s ih =>
    rw [byteChars_cons, List.length_append, List.length_map,
      String.length_utf8EncodeChar, List.length_cons]
    have hpos := c.utf8Size_pos
    omega

theorem length_lt_byteChars {s : Text} {c : Char} (hmem : c ∈ s)
    (hc : isAscii c = false) : s.length < (byteChars s).length := by
  induction s with
  | nil => cases hmem
  | cons d s ih =>
    rw [byteChars_cons, List.length_append, List.length_map, List.length_cons]
    have hd : 0 < (String.utf8EncodeChar d).length := by
      rw [String.length_utf8EncodeChar]
      exact d.utf8Size_pos
    rcases List.mem_cons.mp hmem with heq | hmem
    · subst heq
      have hlong := length_utf8EncodeChar_of_not_ascii hc
      have hrest := length_le_byteChars s
      omega
    · have hrest := ih hmem
      omega

theorem not_ascii_of_mem_utf8 {c d : Char} (hc : isAscii c = false)
    (hd : d ∈ (String.utf8EncodeChar c).map asChar) : isAscii d = false := by
  have hge : 128 ≤ c.val.toNat := by simpa [isAscii] using hc
  have hhigh : ∀ n, 128 ≤ n → n < 256 →
      isAscii (asChar (UInt8.ofNat n)) = false := by
    intro n hlo hhi
    have hnat : (UInt8.ofNat n).toNat = n := by
      rw [UInt8.toNat_ofNat']
      omega
    have hvalid : n.isValidChar := .inl (by omega)
    have hchar : (Char.ofNat n).toNat = n := by
      unfold Char.ofNat
      rw [dif_pos hvalid]
      rfl
    simp only [isAscii, asChar, hnat, hchar, decide_eq_false_iff_not]
    omega
  unfold String.utf8EncodeChar at hd
  rw [if_neg (by omega)] at hd
  split at hd
  · simp only [List.map_cons, List.map_nil, List.mem_cons, List.not_mem_nil,
      or_false] at hd
    rcases hd with rfl | rfl <;> exact hhigh _ (by omega) (by omega)
  · split at hd
    · simp only [List.map_cons, List.map_nil, List.mem_cons, List.not_mem_nil,
        or_false] at hd
      rcases hd with rfl | rfl | rfl <;> exact hhigh _ (by omega) (by omega)
    · simp only [List.map_cons, List.map_nil, List.mem_cons, List.not_mem_nil,
        or_false] at hd
      rcases hd with rfl | rfl | rfl | rfl <;>
        exact hhigh _ (by omega) (by omega)

end LinuxRs.Shell
