/-
Strings of vi (user_program/src/bin/vi), as the standard library has them:
a string is its UTF-8 bytes, and columns are byte positions.

# Where strings panic

`String::insert`, `remove`, `split_off` and `drain` and the slices panic
at a position that is past the end or inside a character; `none` stands
for that. A character is a byte with the continuation bytes that follow
it, which in UTF-8 is one character.
-/
import Mathlib.Data.List.TakeWhile

namespace LinuxRs.Vi

abbrev Byte := BitVec 8

abbrev Text := List Byte

def chr (c : Char) : Byte := BitVec.ofNat 8 c.toNat

def ascii (s : String) : Text := s.toList.map chr

def decimal (n : Nat) : Text := ascii (toString n)

-- ======== positions

def isContinuation (b : Byte) : Bool := 0x80#8 ≤ b && b ≤ 0xbf#8

def boundary (s : Text) (i : Nat) : Bool :=
  i = 0 || (s[i]?.elim (decide (i = s.length)) fun b => !isContinuation b)

def charOf (b : Byte) : Text :=
  if b < 0x80#8 then [b] else [0xc0#8 ||| (b >>> 6), 0x80#8 ||| (b &&& 0x3f#8)]

def firstChar : Text → Text
  | [] => []
  | b :: rest => b :: rest.takeWhile isContinuation

-- ======== operations

/-- `String::insert_str`, and `insert` of one character. -/
def insertText (s : Text) (i : Nat) (t : Text) : Option Text :=
  if boundary s i then some (s.take i ++ t ++ s.drop i) else none

/-- `String::remove`: the character and what is left. -/
def removeChar (s : Text) (i : Nat) : Option (Text × Text) :=
  if boundary s i ∧ i < s.length then
    let ch := firstChar (s.drop i)
    some (ch, s.take i ++ s.drop (i + ch.length))
  else none

/-- `String::split_off`: what is left and the tail. -/
def splitOff (s : Text) (i : Nat) : Option (Text × Text) :=
  if boundary s i then some (s.take i, s.drop i) else none

/-- `String::drain` of a range: the removed text and what is left. -/
def drain (s : Text) (start stop : Nat) : Option (Text × Text) :=
  if start ≤ stop ∧ boundary s start ∧ boundary s stop then
    some ((s.take stop).drop start, s.take start ++ s.drop stop)
  else none

def prefixTo (s : Text) (stop : Nat) : Option Text :=
  if boundary s stop then some (s.take stop) else none

def vecInsert {α : Type} (l : List α) (i : Nat) (x : α) : Option (List α) :=
  if i ≤ l.length then some (l.insertIdx i x) else none

def vecRemove {α : Type} (l : List α) (i : Nat) : Option (α × List α) :=
  l[i]?.map fun x => (x, l.eraseIdx i)

-- ======== characters

/-- The characters that `char::is_whitespace` accepts. -/
def whitespaceChars : List Text :=
  [[0x09#8], [0x0a#8], [0x0b#8], [0x0c#8], [0x0d#8], [0x20#8],
    [0xc2#8, 0x85#8], [0xc2#8, 0xa0#8], [0xe1#8, 0x9a#8, 0x80#8],
    [0xe2#8, 0x80#8, 0x80#8], [0xe2#8, 0x80#8, 0x81#8],
    [0xe2#8, 0x80#8, 0x82#8], [0xe2#8, 0x80#8, 0x83#8],
    [0xe2#8, 0x80#8, 0x84#8], [0xe2#8, 0x80#8, 0x85#8],
    [0xe2#8, 0x80#8, 0x86#8], [0xe2#8, 0x80#8, 0x87#8],
    [0xe2#8, 0x80#8, 0x88#8], [0xe2#8, 0x80#8, 0x89#8],
    [0xe2#8, 0x80#8, 0x8a#8], [0xe2#8, 0x80#8, 0xa8#8],
    [0xe2#8, 0x80#8, 0xa9#8], [0xe2#8, 0x80#8, 0xaf#8],
    [0xe2#8, 0x81#8, 0x9f#8], [0xe3#8, 0x80#8, 0x80#8]]

/-- `str::trim_start`, over at most as many characters. -/
def trimStartN : Nat → Text → Text
  | 0, s => s
  | n + 1, s =>
    if firstChar s ∈ whitespaceChars then
      trimStartN n (s.drop (firstChar s).length)
    else s

def trimStart (s : Text) : Text := trimStartN s.length s

/-- `str::trim` of printable ASCII, such as a command line. -/
def trimSpaces (s : Text) : Text :=
  ((s.dropWhile (· = chr ' ')).reverse.dropWhile (· = chr ' ')).reverse

def splitNewlines (s : Text) : List Text := s.splitOn 0x0a#8

def splitKeepEmpty (s : Text) : List Text :=
  if s = [] then [[]]
  else
    let out := splitNewlines s
    if out.getLast? = some [] then
      if out.dropLast = [] then [[]] else out.dropLast
    else out

def stripReturn (s : Text) : Text :=
  if s.getLast? = some 0x0d#8 then s.dropLast else s

/-- `str::lines`; only a line that a newline ends loses its return. -/
def textLines (s : Text) : List Text :=
  let out := splitNewlines s
  match out.getLast? with
  | none => []
  | some last => out.dropLast.map stripReturn ++ (if last = [] then [] else [last])

end LinuxRs.Vi
