/-
Wildcard patterns (user_program/src/fnmatch.rs).

# The matcher

`matchCore` runs over what is left of the pattern and of the string; the
positions of the source are those of the two lists. Both are bytes, as the
source takes them, and a character is a byte.

# What a pattern means

`elements` reads a pattern into its elements: the stars, and for each single
element the characters it accepts. A bracket expression ends at the first `]`
behind its first character; where there is none the bracket is an ordinary
character, and so is a backslash at the end.
-/
import LinuxRs.Lib.Wildcard

namespace LinuxRs.User.Fnmatch

open Lib.Wildcard

abbrev Byte := UInt8

abbrev Bytes := List Byte

def PATHNAME : UInt8 := 0x01
def NOESCAPE : UInt8 := 0x02
def CASEFOLD : UInt8 := 0x04

def slash : Byte := '/'.toUInt8
def asterisk : Byte := '*'.toUInt8
def question : Byte := '?'.toUInt8
def opening : Byte := '['.toUInt8
def closing : Byte := ']'.toUInt8
def backslash : Byte := '\\'.toUInt8
def dash : Byte := '-'.toUInt8
def bang : Byte := '!'.toUInt8
def caret : Byte := '^'.toUInt8

-- ======== fnmatch

def hasFlag (flags f : UInt8) : Bool := flags &&& f != 0

def lower (b : Byte) : Byte :=
  if 'A'.toUInt8 ≤ b ∧ b ≤ 'Z'.toUInt8 then b + 32 else b

def byteEq (a b : Byte) (flags : UInt8) : Bool :=
  if hasFlag flags CASEFOLD then lower a == lower b else a == b

def inRange (lo hi c : Byte) (flags : UInt8) : Bool :=
  if hasFlag flags CASEFOLD then
    decide (lower lo ≤ lower c) && decide (lower c ≤ lower hi)
  else decide (lo ≤ c) && decide (c ≤ hi)

/-- The loop of `match_class`, on what is left of the pattern. -/
def classLoop (c : Byte) (flags : UInt8) (matched : Bool) : Bytes → Bool × Bytes
  | [] => (matched, [])
  | lo :: rest =>
    if lo = closing then (matched, lo :: rest)
    else
      match rest with
      | d :: hi :: rest' =>
        if d = dash ∧ hi ≠ closing then
          classLoop c flags (matched || inRange lo hi c flags) rest'
        else classLoop c flags (matched || byteEq lo c flags) (d :: hi :: rest')
      | rest => classLoop c flags (matched || byteEq lo c flags) rest

/-- `match_class`, behind the `[`: its result, and the pattern behind the
class. -/
def matchClass (pat : Bytes) (c : Byte) (flags : UInt8) : Bool × Bytes :=
  match pat with
  | [] => (false, [])
  | b :: pat' =>
    let neg := b = bang ∨ b = caret
    let body := if neg then pat' else b :: pat'
    match body with
    | [] => (false, [])
    | first :: tail =>
      let start : Bool × Bytes :=
        if first = closing then (c == closing, tail) else (false, body)
      match classLoop c flags start.1 start.2 with
      -- unterminated
      | (_, []) => (c == opening, [])
      | (matched, _ :: rest) => (matched != decide neg, rest)

/-- The loop of `match_core` at a `*`; `next` matches what is behind it. -/
def starLoop (next : Bytes → Bool) (flags : UInt8) : Bytes → Bool
  | [] => next []
  | c :: s =>
    if next (c :: s) then true
    else if hasFlag flags PATHNAME && c == slash then false
    else starLoop next flags s

theorem classLoop_rest (c : Byte) (flags : UInt8) (matched : Bool)
    (pat : Bytes) :
    (classLoop c flags matched pat).2 = pat.dropWhile (· ≠ closing) := by
  fun_induction classLoop c flags matched pat with
  | case1 => rfl
  | case2 matched rest => simp
  | case3 matched lo hlo d hi rest h ih =>
    rw [ih, h.1]
    have hdash : dash ≠ closing := by decide
    simp [hlo, hdash, h.2]
  | case4 matched lo hlo d hi rest h ih =>
    rw [ih]
    simp [List.dropWhile_cons, hlo]
  | case5 matched lo hlo rest h ih =>
    rw [ih]
    simp [hlo]

theorem matchClass_length (pat : Bytes) (c : Byte) (flags : UInt8) :
    (matchClass pat c flags).2.length ≤ pat.length := by
  have hloop : ∀ matched body rest, classLoop c flags matched body = rest →
      rest.2.length ≤ body.length := by
    intro matched body rest h
    rw [← h, classLoop_rest]
    exact (List.dropWhile_sublist _).length_le
  unfold matchClass
  split
  next => exact Nat.zero_le _
  next b pat =>
    have hbody : ∀ first tail,
        (if b = bang ∨ b = caret then pat else b :: pat) = first :: tail →
          tail.length ≤ pat.length := by
      intro first tail h
      split at h
      next =>
        rw [h]
        exact Nat.le_succ _
      next =>
        exact Nat.le_of_eq (congrArg List.length (List.cons.inj h).2.symm)
    dsimp only
    split
    next => exact Nat.zero_le _
    next first tail heq =>
      have htail := hbody first tail heq
      split
      next => exact Nat.zero_le _
      next matched d rest hrun =>
        have hle := hloop _ _ _ hrun
        split at hle
        next =>
          simp only [List.length_cons] at hle ⊢
          omega
        next =>
          have heq' : (if b = bang ∨ b = caret then pat else b :: pat).length =
              tail.length + 1 := congrArg List.length heq
          simp only [List.length_cons] at hle ⊢
          omega

def matchCore (flags : UInt8) : Bytes → Bytes → Bool
  | [], s => s.isEmpty
  | b :: pat, s =>
    if b = asterisk then
      if pat.isEmpty then !hasFlag flags PATHNAME || !s.contains slash
      else starLoop (matchCore flags pat) flags s
    else if b = question then
      match s with
      | [] => false
      | c :: s =>
        if hasFlag flags PATHNAME && c == slash then false
        else matchCore flags pat s
    else if b = opening then
      match s with
      | [] => false
      | c :: s =>
        if (matchClass pat c flags).1 then
          matchCore flags (matchClass pat c flags).2 s
        else false
    else if b = backslash && !hasFlag flags NOESCAPE then
      match pat with
      | [] => s.head? == some backslash
      | e :: pat =>
        match s with
        | [] => false
        | c :: s => if byteEq e c flags then matchCore flags pat s else false
    else
      match s with
      | [] => false
      | c :: s => if byteEq b c flags then matchCore flags pat s else false
termination_by pat => pat.length
decreasing_by
  · exact Nat.lt_succ_self _
  · exact Nat.lt_succ_self _
  · exact Nat.lt_succ_of_le (matchClass_length pat c flags)
  · exact Nat.lt_succ_of_lt (Nat.lt_succ_self _)
  · exact Nat.lt_succ_self _

def fnmatch (pattern string : Bytes) (flags : UInt8) : Bool :=
  matchCore flags pattern string

-- ======== what it stands for

/-- A piece of a pattern. A class has the text between its brackets, behind
the negation. -/
inductive Piece where
  | star
  | any
  | cls (neg : Bool) (content : Bytes)
  | lit (b : Byte)
  /-- A `[` without a `]`, and the pattern behind it. -/
  | unclosed (behind : Bytes)
  /-- A backslash at the end. -/
  | trailing

/-- Behind a `[`: whether the class is negated, and where it begins. -/
def classBody : Bytes → Bool × Bytes
  | [] => (false, [])
  | b :: pat => if b = bang ∨ b = caret then (true, pat) else (false, b :: pat)

/-- Behind a `[`: the class, and the pattern behind it. Its first character
does not close it. -/
def bracket (pat : Bytes) : Option (Bool × Bytes × Bytes) :=
  match (classBody pat).2 with
  | [] => none
  | first :: tail =>
    match tail.dropWhile (· ≠ closing) with
    | [] => none
    | _ :: rest =>
      some ((classBody pat).1, first :: tail.takeWhile (· ≠ closing), rest)

theorem bracket_length {pat : Bytes} {r : Bool × Bytes × Bytes}
    (h : bracket pat = some r) : r.2.2.length < pat.length := by
  have hbody : (classBody pat).2.length ≤ pat.length := by
    unfold classBody
    split
    next => exact Nat.le_refl _
    next b pat =>
      split
      next => exact Nat.le_succ _
      next => exact Nat.le_refl _
  unfold bracket at h
  split at h
  next => cases h
  next first tail heq =>
    split at h
    next => cases h
    next d rest hdrop =>
      have hle : (tail.dropWhile (· ≠ closing)).length ≤ tail.length :=
        (List.dropWhile_sublist _).length_le
      rw [hdrop] at hle
      rw [heq] at hbody
      cases h
      simp only [List.length_cons] at hle hbody
      dsimp only
      omega

def pieces (flags : UInt8) : Bytes → List Piece
  | [] => []
  | b :: pat =>
    if b = asterisk then .star :: pieces flags pat
    else if b = question then .any :: pieces flags pat
    else if b = opening then
      match h : bracket pat with
      | some r => .cls r.1 r.2.1 :: pieces flags r.2.2
      | none => .unclosed pat :: pieces flags pat
    else if b = backslash && !hasFlag flags NOESCAPE then
      match pat with
      | [] => [.trailing]
      | e :: pat => .lit e :: pieces flags pat
    else .lit b :: pieces flags pat
termination_by pat => pat.length
decreasing_by
  · exact Nat.lt_succ_self _
  · exact Nat.lt_succ_self _
  · exact Nat.lt_succ_of_lt (bracket_length h)
  · exact Nat.lt_succ_self _
  · exact Nat.lt_succ_of_lt (Nat.lt_succ_self _)
  · exact Nat.lt_succ_self _

/-- The ranges in a class: `a-z`, and each other character by itself. -/
def ranges : Bytes → List (Byte × Byte)
  | [] => []
  | lo :: rest =>
    match rest with
    | d :: hi :: rest' =>
      if d = dash then (lo, hi) :: ranges rest'
      else (lo, lo) :: ranges (d :: hi :: rest')
    | rest => (lo, lo) :: ranges rest

def inRanges (flags : UInt8) (rs : List (Byte × Byte)) (c : Byte) : Bool :=
  rs.any fun r => inRange r.1 r.2 c flags

def inPart (flags : UInt8) (c : Byte) : Bool :=
  !(hasFlag flags PATHNAME && c == slash)

def Piece.element (flags : UInt8) : Piece → Elem Byte
  | .star => .star (inPart flags)
  | .any => .one (inPart flags)
  | .cls neg content =>
    .one fun c => inRanges flags (ranges content) c != neg
  | .lit b => .one fun c => byteEq b c flags
  | .unclosed _ => .one fun c => byteEq opening c flags
  | .trailing => .one fun c => byteEq backslash c flags

def elements (flags : UInt8) (pattern : Bytes) : List (Elem Byte) :=
  (pieces flags pattern).map (Piece.element flags)

end LinuxRs.User.Fnmatch
