/-
Text as UTF-8 bytes.

# Synchronisation

The first byte of a character is told from the others by its value alone, so
a byte that can start a character does start one: whoever finds such a byte
by its index in the bytes of a text stands between two characters. An ASCII
byte is moreover the whole character.

# Cutting

`cut` takes a text apart at a number of bytes, and fails inside a character
and beyond the end.

# Checking

`utf8Valid` is the check that bytes are UTF-8.
-/
import Mathlib.Data.List.Basic

namespace LinuxRs.Lib.Utf8

def bytes (cs : List Char) : List UInt8 := cs.flatMap String.utf8EncodeChar

def cut : List Char → Nat → Option (List Char × List Char)
  | cs, 0 => some ([], cs)
  | [], _ + 1 => none
  | c :: cs, n + 1 =>
    if c.utf8Size ≤ n + 1 then
      (cut cs (n + 1 - c.utf8Size)).map fun r => (c :: r.1, r.2)
    else none

@[simp] theorem bytes_nil : bytes [] = [] := rfl

@[simp] theorem bytes_cons (c : Char) (cs : List Char) :
    bytes (c :: cs) = String.utf8EncodeChar c ++ bytes cs := by
  simp [bytes]

@[simp] theorem bytes_append (as bs : List Char) :
    bytes (as ++ bs) = bytes as ++ bytes bs := by
  simp [bytes]

theorem length_bytes_cons (c : Char) (cs : List Char) :
    (bytes (c :: cs)).length = c.utf8Size + (bytes cs).length := by
  simp

theorem bytes_ne_nil {cs : List Char} (h : cs ≠ []) : bytes cs ≠ [] := by
  cases cs with
  | nil => exact absurd rfl h
  | cons c cs =>
    intro hnil
    have hlen := length_bytes_cons c cs
    have hpos := c.utf8Size_pos
    rw [hnil, List.length_nil] at hlen
    omega

-- ======== cutting

theorem cut_append (as bs : List Char) :
    cut (as ++ bs) (bytes as).length = some (as, bs) := by
  induction as with
  | nil => cases bs <;> rfl
  | cons c as ih =>
    have hpos := c.utf8Size_pos
    obtain ⟨n, hn⟩ : ∃ n, (bytes (c :: as)).length = n + 1 :=
      ⟨(bytes (c :: as)).length - 1, by rw [length_bytes_cons]; omega⟩
    have hlen := length_bytes_cons c as
    rw [hn, List.cons_append, cut, if_pos (by omega),
      show n + 1 - c.utf8Size = (bytes as).length by omega, ih]
    rfl

/-- A cut that is made is one between two characters. -/
theorem cut_eq_some {cs as bs : List Char} {n : Nat}
    (h : cut cs n = some (as, bs)) : cs = as ++ bs ∧ n = (bytes as).length := by
  induction cs generalizing n as with
  | nil =>
    cases n with
    | zero =>
      obtain ⟨rfl, rfl⟩ : [] = as ∧ [] = bs := by simpa [cut] using h
      exact ⟨rfl, rfl⟩
    | succ n => simp [cut] at h
  | cons c cs ih =>
    cases n with
    | zero =>
      obtain ⟨rfl, rfl⟩ : [] = as ∧ c :: cs = bs := by simpa [cut] using h
      exact ⟨rfl, rfl⟩
    | succ n =>
      rw [cut] at h
      split at h
      next hle =>
        obtain ⟨r, hr, heq⟩ := Option.map_eq_some_iff.mp h
        obtain ⟨rfl, rfl⟩ := Prod.mk.inj heq
        obtain ⟨hcs, hn⟩ := ih hr
        refine ⟨by rw [hcs]; rfl, ?_⟩
        rw [length_bytes_cons]
        omega
      next => cases h

theorem cut_inside {c : Char} {k : Nat} (hpos : 0 < k) (hk : k < c.utf8Size)
    (as bs : List Char) :
    cut (as ++ c :: bs) ((bytes as).length + k) = none := by
  induction as with
  | nil =>
    obtain ⟨n, rfl⟩ : ∃ n, k = n + 1 := ⟨k - 1, by omega⟩
    rw [List.nil_append, bytes_nil, List.length_nil, Nat.zero_add, cut,
      if_neg (by omega)]
  | cons d as ih =>
    have hd := d.utf8Size_pos
    have hlen := length_bytes_cons d as
    obtain ⟨n, hn⟩ : ∃ n, (bytes (d :: as)).length + k = n + 1 :=
      ⟨(bytes (d :: as)).length + k - 1, by omega⟩
    rw [hn, List.cons_append, cut, if_pos (by omega),
      show n + 1 - d.utf8Size = (bytes as).length + k by omega, ih]
    rfl

-- ======== synchronisation

theorem index_eq_zero {c : Char} {pre post : List UInt8} {b : UInt8}
    (h : String.utf8EncodeChar c = pre ++ b :: post)
    (hb : b.IsUTF8FirstByte) : pre = [] := by
  have hlt : pre.length < (String.utf8EncodeChar c).length := by
    rw [h]
    simp
  have hget : (String.utf8EncodeChar c)[pre.length] = b := by
    simp [h]
  have hzero := UInt8.isUTF8FirstByte_getElem_utf8EncodeChar.mp (hget ▸ hb)
  exact List.length_eq_zero_iff.mp hzero

theorem first_of_head {cs : List Char} {post : List UInt8} {b : UInt8}
    (h : bytes cs = b :: post) : b.IsUTF8FirstByte := by
  cases cs with
  | nil => cases h
  | cons c cs =>
    have hpos : 0 < (String.utf8EncodeChar c).length := by
      rw [String.length_utf8EncodeChar]
      exact c.utf8Size_pos
    have hget : (String.utf8EncodeChar c)[0] = b := by
      have hhead : (String.utf8EncodeChar c ++ bytes cs)[0]? = some b := by
        rw [← bytes_cons, h]
        rfl
      rw [List.getElem?_append_left hpos, List.getElem?_eq_getElem hpos]
        at hhead
      exact Option.some.inj hhead
    exact hget ▸ UInt8.isUTF8FirstByte_getElem_utf8EncodeChar.mpr rfl

theorem sync {cs : List Char} {pre post : List UInt8} {b : UInt8}
    (h : bytes cs = pre ++ b :: post) (hb : b.IsUTF8FirstByte) :
    ∃ as bs, cs = as ++ bs ∧ pre = bytes as ∧ b :: post = bytes bs := by
  induction cs generalizing pre with
  | nil => simp at h
  | cons c cs ih =>
    rw [bytes_cons] at h
    rcases List.append_eq_append_iff.mp h with ⟨mid, hpre, hrest⟩ | ⟨mid, hc, hrest⟩
    · obtain ⟨as, bs, rfl, rfl, hbs⟩ := ih hrest
      exact ⟨c :: as, bs, rfl, by rw [hpre, bytes_cons], hbs⟩
    · cases mid with
      | nil =>
        rw [List.append_nil] at hc
        exact ⟨[c], cs, rfl, by simp [hc], by simpa using hrest⟩
      | cons d mid =>
        obtain ⟨rfl, hpost⟩ : b = d ∧ post = mid ++ bytes cs := by
          simpa using hrest
        obtain rfl := index_eq_zero hc hb
        refine ⟨[], c :: cs, rfl, rfl, ?_⟩
        rw [bytes_cons, hc, hpost]
        rfl

theorem head_of_bytes {a c : Char} {cs : List Char} {rest : List UInt8}
    (h : bytes (c :: cs) = String.utf8EncodeChar a ++ rest) :
    c = a ∧ bytes cs = rest := by
  have hc := ByteArray.utf8DecodeChar?_utf8EncodeChar_append
    (b := (bytes cs).toByteArray) (c := c)
  rw [← List.toByteArray_append, ← bytes_cons, h, List.toByteArray_append,
    ByteArray.utf8DecodeChar?_utf8EncodeChar_append] at hc
  obtain rfl := Option.some.inj hc
  exact ⟨rfl, List.append_cancel_left ((bytes_cons a cs).symm.trans h)⟩

theorem prefix_of_bytes {as cs : List Char} {rest : List UInt8}
    (h : bytes cs = bytes as ++ rest) :
    ∃ bs, cs = as ++ bs ∧ rest = bytes bs := by
  induction as generalizing cs with
  | nil => exact ⟨cs, rfl, by simpa using h.symm⟩
  | cons a as ih =>
    cases cs with
    | nil =>
      have hlen := congrArg List.length h
      have hpos := a.utf8Size_pos
      rw [List.length_append, length_bytes_cons] at hlen
      simp only [bytes_nil, List.length_nil] at hlen
      omega
    | cons c cs =>
      rw [bytes_cons a, List.append_assoc] at h
      obtain ⟨rfl, htail⟩ := head_of_bytes h
      obtain ⟨bs, rfl, hrest⟩ := ih htail
      exact ⟨bs, rfl, hrest⟩

-- ======== ASCII

theorem first_of_ascii {b : UInt8} (h : b < 128) : b.IsUTF8FirstByte := by
  left
  have hall : ∀ n : Fin 128, (UInt8.ofNat n.val) &&& 0x80 = 0 := by decide
  have hb : UInt8.ofNat b.toNat = b := UInt8.ofNat_toNat
  have hlt : b.toNat < 128 := h
  rw [← hb]
  exact hall ⟨b.toNat, hlt⟩

/-- A character is a single byte exactly if that byte is ASCII. -/
theorem size_of_ascii {c : Char} {b : UInt8} {post : List UInt8}
    (h : String.utf8EncodeChar c = b :: post) : b < 128 ↔ post = [] := by
  have hhigh : ∀ n : Nat, 128 ≤ n → n < 256 → ¬ UInt8.ofNat n < 128 := by
    intro n hlo hhi hlt
    have hlt : (UInt8.ofNat n).toNat < 128 := hlt
    rw [UInt8.toNat_ofNat'] at hlt
    omega
  unfold String.utf8EncodeChar at h
  dsimp only at h
  split at h
  next hle =>
    obtain ⟨rfl, rfl⟩ := List.cons.inj h
    refine ⟨fun _ => rfl, fun _ => ?_⟩
    show (UInt8.ofNat c.val.toNat).toNat < 128
    rw [UInt8.toNat_ofNat']
    omega
  next =>
    split at h
    next =>
      obtain ⟨rfl, rfl⟩ := List.cons.inj h
      exact ⟨fun hlt => absurd hlt (hhigh _ (by omega) (by omega)),
        fun hnil => by cases hnil⟩
    next =>
      split at h
      next =>
        obtain ⟨rfl, rfl⟩ := List.cons.inj h
        exact ⟨fun hlt => absurd hlt (hhigh _ (by omega) (by omega)),
          fun hnil => by cases hnil⟩
      next =>
        obtain ⟨rfl, rfl⟩ := List.cons.inj h
        exact ⟨fun hlt => absurd hlt (hhigh _ (by omega) (by omega)),
          fun hnil => by cases hnil⟩

theorem ascii_of_last {cs : List Char} {b : UInt8} (h : bytes cs = [b]) :
    b < 128 := by
  cases cs with
  | nil => cases h
  | cons c cs =>
    rw [bytes_cons] at h
    cases hc : String.utf8EncodeChar c with
    | nil =>
      have hlen := String.length_utf8EncodeChar c
      have hpos := c.utf8Size_pos
      rw [hc, List.length_nil] at hlen
      omega
    | cons d tail =>
      rw [hc] at h
      obtain ⟨rfl, htail⟩ := List.cons.inj h
      obtain ⟨rfl, -⟩ := List.append_eq_nil_iff.mp htail
      exact (size_of_ascii hc).mpr rfl

theorem sync_ascii {cs : List Char} {pre post : List UInt8} {b : UInt8}
    (h : bytes cs = pre ++ b :: post) (hb : b < 128) :
    ∃ as c bs, cs = as ++ c :: bs ∧ pre = bytes as ∧ post = bytes bs ∧
      String.utf8EncodeChar c = [b] := by
  obtain ⟨as, cs, rfl, rfl, hcs⟩ := sync h (first_of_ascii hb)
  cases cs with
  | nil => cases hcs
  | cons c bs =>
    rw [bytes_cons] at hcs
    rcases List.append_eq_cons_iff.mp hcs.symm with ⟨hnil, -⟩ | ⟨tail, hc, hpost⟩
    · have hlen := String.length_utf8EncodeChar c
      have hpos := c.utf8Size_pos
      rw [hnil, List.length_nil] at hlen
      omega
    · obtain rfl := (size_of_ascii hc).mp hb
      exact ⟨as, c, bs, rfl, rfl, hpost, hc⟩

theorem cut_after_ascii {cs : List Char} {pre post : List UInt8} {b : UInt8}
    (h : bytes cs = pre ++ b :: post) (hb : b < 128) :
    ∃ as bs, cut cs (pre.length + 1) = some (as, bs) ∧
      bytes as = pre ++ [b] := by
  obtain ⟨as, c, bs, rfl, rfl, rfl, hc⟩ := sync_ascii h hb
  have hbytes : bytes (as ++ [c]) = bytes as ++ [b] := by simp [hc]
  have hcut := cut_append (as ++ [c]) bs
  rw [hbytes, List.length_append, List.length_singleton, List.append_assoc,
    List.singleton_append] at hcut
  exact ⟨as ++ [c], bs, hcut, hbytes⟩

/-- A character of several bytes is not cut behind its first. -/
theorem cut_after_first {cs : List Char} {pre post : List UInt8} {b : UInt8}
    (h : bytes cs = pre ++ b :: post) (hb : ¬ b < 128)
    (hfirst : b.IsUTF8FirstByte) : cut cs (pre.length + 1) = none := by
  obtain ⟨as, cs, rfl, rfl, hcs⟩ := sync h hfirst
  cases cs with
  | nil => cases hcs
  | cons c bs =>
    have hsize : 1 < c.utf8Size := by
      have hpos := c.utf8Size_pos
      have hlen := String.length_utf8EncodeChar c
      cases hc : String.utf8EncodeChar c with
      | nil =>
        rw [hc, List.length_nil] at hlen
        omega
      | cons d tail =>
        rw [bytes_cons, hc] at hcs
        obtain ⟨rfl, -⟩ := List.cons.inj hcs
        cases tail with
        | nil => exact absurd ((size_of_ascii hc).mpr rfl) hb
        | cons e tail =>
          rw [← hlen, hc]
          simp
    exact cut_inside (by omega) hsize as bs

-- ======== checking

def isContinuation (b : BitVec 8) : Bool := 0x80#8 ≤ b && b ≤ 0xbf#8

def isTwo (a b : BitVec 8) : Bool :=
  0xc2#8 ≤ a && a ≤ 0xdf#8 && isContinuation b

def isThree (a b c : BitVec 8) : Bool :=
  ((a == 0xe0#8 && 0xa0#8 ≤ b && b ≤ 0xbf#8) ||
    (0xe1#8 ≤ a && a ≤ 0xef#8 && a != 0xed#8 && isContinuation b) ||
    (a == 0xed#8 && 0x80#8 ≤ b && b ≤ 0x9f#8)) && isContinuation c

/-- A character of four bytes: no shorter form, none above U+10FFFF. -/
def isFour (a b c d : BitVec 8) : Bool :=
  ((a == 0xf0#8 && 0x90#8 ≤ b && b ≤ 0xbf#8) ||
    (0xf1#8 ≤ a && a ≤ 0xf3#8 && isContinuation b) ||
    (a == 0xf4#8 && 0x80#8 ≤ b && b ≤ 0x8f#8)) && isContinuation c &&
    isContinuation d

/-- The bytes that `from_utf8` accepts. -/
def utf8Valid : List (BitVec 8) → Bool
  | [] => true
  | [a] => a < 0x80#8
  | [a, b] => if a < 0x80#8 then utf8Valid [b] else isTwo a b
  | [a, b, c] =>
    if a < 0x80#8 then utf8Valid [b, c]
    else if isTwo a b then utf8Valid [c] else isThree a b c
  | a :: b :: c :: d :: rest =>
    if a < 0x80#8 then utf8Valid (b :: c :: d :: rest)
    else if isTwo a b then utf8Valid (c :: d :: rest)
    else if isThree a b c then utf8Valid (d :: rest)
    else isFour a b c d && utf8Valid rest

end LinuxRs.Lib.Utf8
