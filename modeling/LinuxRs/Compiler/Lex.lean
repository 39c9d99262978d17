/-
The lexer toolkit (user_program/src/compiler/lex.rs).

# Text and bytes

A `&str` is its characters, and the rules look at its bytes. Slicing cuts
the characters at a number of bytes; where that is inside one the program
panics. `char as u8` keeps the low byte.

# Counters

`line` and `col` are `u32`, and no text here has 2^32 bytes: they are
numbers that do not wrap. The loop of `tokenize` runs for a number of
rounds, and `none` is that these were not enough.

# Rules

A rule is a closure in the source. `Helper` lists the provided ones, and
`build` is the chain of `skip` and `rule` calls that registers them.
-/
import LinuxRs.Compiler.Combinators
import LinuxRs.Lib.Utf8

namespace LinuxRs.Compiler

open Lib

def textOf (slice : List Char) : Text :=
  (Utf8.bytes slice).map fun b => Char.ofNat b.toNat

/-- `Cursor`: what is left of the text, and the place it starts at. -/
structure Cursor where
  rest : List Char
  line : Nat
  col : Nat

namespace Cursor

def bytes (cur : Cursor) : List UInt8 := Utf8.bytes cur.rest

def startsWith (cur : Cursor) (literal : List Char) : Bool :=
  (Utf8.bytes literal).isPrefixOf cur.bytes

def atEof (cur : Cursor) : Bool := cur.rest.isEmpty

def countWhileSkipping (cur : Cursor) (skip : Nat) (pred : UInt8 → Bool) :
    Nat :=
  ((cur.bytes.drop skip).takeWhile pred).length

def countWhile (cur : Cursor) (pred : UInt8 → Bool) : Nat :=
  (cur.bytes.takeWhile pred).length

end Cursor

/-- What a rule takes, in bytes. -/
inductive Match (Tok : Type) where
  | emit (bytes : Nat) (kind : Tok)
  | skip (bytes : Nat)

abbrev Rule (Tok : Type) : Type := Cursor → Option (Match Tok)

structure LexError where
  line : Nat
  col : Nat
  message : Text

structure Lexer (Tok : Type) where
  rules : List (Rule Tok)

inductive Lexed (Tok : Type) where
  | ok (tokens : List (Token Tok))
  | error (e : LexError)
  | panic

variable {Tok : Type}

-- ======== driving

def countByte (place : Nat × Nat) (b : UInt8) : Nat × Nat :=
  if b = 10 then (place.1 + 1, 1) else (place.1, place.2 + 1)

/-- `advance`; none is the panic of its slices. -/
def advance (cur : Cursor) (n : Nat) : Option Cursor :=
  (Utf8.cut cur.rest n).map fun r =>
    let place := (Utf8.bytes r.1).foldl countByte (cur.line, cur.col)
    { rest := r.2, line := place.1, col := place.2 }

namespace Lexer

def new : Lexer Tok := ⟨[]⟩

def skip (l : Lexer Tok) (matcher : Cursor → Option Nat) : Lexer Tok :=
  ⟨l.rules ++ [fun cur => (matcher cur).map Match.skip]⟩

def rule (l : Lexer Tok) (matcher : Cursor → Option (Nat × Tok)) : Lexer Tok :=
  ⟨l.rules ++ [fun cur => (matcher cur).map fun m => Match.emit m.1 m.2]⟩

def firstMatch (l : Lexer Tok) (cur : Cursor) : Option (Match Tok) :=
  l.rules.findSome? fun rule => rule cur

def tokenizeLoop (l : Lexer Tok) : Nat → Cursor → List (Token Tok) →
    Option (Lexed Tok)
  | 0, _, _ => none
  | fuel + 1, cur, out =>
    if cur.atEof then some (.ok out)
    else
      match l.firstMatch cur with
      | some (.emit n kind) =>
        match Utf8.cut cur.rest n, advance cur n with
        | some (slice, _), some cur' =>
          l.tokenizeLoop fuel cur'
            (out ++ [⟨kind, textOf slice, cur.line, cur.col⟩])
        | _, _ => some .panic
      | some (.skip n) =>
        match advance cur n with
        | some cur' => l.tokenizeLoop fuel cur' out
        | none => some .panic
      | none =>
        some (.error
          { line := cur.line
            col := cur.col
            message := "unexpected character \x60".toList ++
              [cur.rest.headD (Char.ofNat 0)] ++ ['\x60'] })

def tokenize (l : Lexer Tok) (fuel : Nat) (source : List Char) :
    Option (Lexed Tok) :=
  l.tokenizeLoop fuel ⟨source, 1, 1⟩ []

end Lexer

-- ======== helpers

def isAsciiAlphabetic (b : UInt8) : Bool :=
  (65 ≤ b && b ≤ 90) || (97 ≤ b && b ≤ 122)

def isAsciiDigit (b : UInt8) : Bool := 48 ≤ b && b ≤ 57

def isAsciiHexdigit (b : UInt8) : Bool :=
  isAsciiDigit b || (65 ≤ b && b ≤ 70) || (97 ≤ b && b ≤ 102)

def isIdentStart (b : UInt8) : Bool := isAsciiAlphabetic b || b = 95

def isIdentCont (b : UInt8) : Bool :=
  isAsciiAlphabetic b || isAsciiDigit b || b = 95

def asByte (c : Char) : UInt8 := UInt8.ofNat c.toNat

def whitespace (cur : Cursor) : Option Nat :=
  let n := cur.countWhile fun b => b = 32 || b = 9 || b = 13 || b = 10
  if n = 0 then none else some n

def lineComment (marker : List Char) (cur : Cursor) : Option Nat :=
  if cur.startsWith marker then
    let start := (Utf8.bytes marker).length
    let i := start + cur.countWhileSkipping start fun b => b ≠ 10
    -- the newline too, if there is one
    some (if i < cur.bytes.length then i + 1 else i)
  else none

/-- The loop of `block_comment`, on the bytes from index `i` on. -/
def findClose (close : List UInt8) (i : Nat) : List UInt8 → Option Nat
  | [] => if close = [] then some i else none
  | b :: rest =>
    if close.isPrefixOf (b :: rest) then some (i + close.length)
    else findClose close (i + 1) rest

def blockComment (opener closer : List Char) (cur : Cursor) : Option Nat :=
  if cur.startsWith opener then
    let start := (Utf8.bytes opener).length
    some ((findClose (Utf8.bytes closer) start (cur.bytes.drop start)).getD
      cur.bytes.length)
  else none

def keyword (word : List Char) (kind : Tok) (cur : Cursor) :
    Option (Nat × Tok) :=
  if cur.startsWith word then
    let n := (Utf8.bytes word).length
    if ((cur.bytes.drop n).head?.any isIdentCont) then none
    else some (n, kind)
  else none

def symbol (text : List Char) (kind : Tok) (cur : Cursor) :
    Option (Nat × Tok) :=
  if cur.startsWith text then some ((Utf8.bytes text).length, kind) else none

def ident (kind : Tok) (cur : Cursor) : Option (Nat × Tok) :=
  cur.bytes.head?.bind fun first =>
    if isIdentStart first then
      some (1 + cur.countWhileSkipping 1 isIdentCont, kind)
    else none

def int (kind : Tok) (cur : Cursor) : Option (Nat × Tok) :=
  match cur.bytes with
  | [] => none
  | first :: rest =>
    if isAsciiDigit first then
      if first = 48 ∧ (rest.head? = some 120 ∨ rest.head? = some 88) then
        some (2 + cur.countWhileSkipping 2 isAsciiHexdigit, kind)
      else if first = 48 then
        some (1 + cur.countWhileSkipping 1 fun b => 48 ≤ b && b ≤ 55, kind)
      else some (cur.countWhile isAsciiDigit, kind)
    else none

/-- The loop of `quoted_string`, on the bytes from index `i` on. -/
def findQuote (quote escape : UInt8) (i : Nat) : List UInt8 → Option Nat
  | [] => none
  | [b] => if b = quote then some (i + 1) else none
  | b :: b' :: rest =>
    if b = escape then findQuote quote escape (i + 2) rest
    else if b = quote then some (i + 1)
    else findQuote quote escape (i + 1) (b' :: rest)

def quotedString (quote escape : Char) (kind : Tok) (cur : Cursor) :
    Option (Nat × Tok) :=
  match cur.bytes with
  | [] => none
  | first :: rest =>
    if first = asByte quote then
      some ((findQuote (asByte quote) (asByte escape) 1 rest).getD
        cur.bytes.length, kind)
    else none

/-- The rules that the builder's helpers add. -/
inductive Helper (Tok : Type) where
  | whitespace
  | lineComment (marker : List Char)
  | blockComment (opener closer : List Char)
  | keyword (word : List Char) (kind : Tok)
  | symbol (text : List Char) (kind : Tok)
  | ident (kind : Tok)
  | int (kind : Tok)
  | quotedString (quote escape : Char) (kind : Tok)

namespace Helper

def NonEmpty : Helper Tok → Prop
  | .lineComment marker => marker ≠ []
  | .blockComment opener closer => opener ≠ [] ∧ closer ≠ []
  | .keyword word _ => word ≠ []
  | .symbol text _ => text ≠ []
  | _ => True

def register (l : Lexer Tok) : Helper Tok → Lexer Tok
  | .whitespace => l.skip Compiler.whitespace
  | .lineComment marker => l.skip (Compiler.lineComment marker)
  | .blockComment opener closer => l.skip (Compiler.blockComment opener closer)
  | .keyword word kind => l.rule (Compiler.keyword word kind)
  | .symbol text kind => l.rule (Compiler.symbol text kind)
  | .ident kind => l.rule (Compiler.ident kind)
  | .int kind => l.rule (Compiler.int kind)
  | .quotedString quote escape kind =>
    l.rule (Compiler.quotedString quote escape kind)

end Helper

namespace Lexer

def build (helpers : List (Helper Tok)) : Lexer Tok :=
  helpers.foldl Helper.register new

def keywords (l : Lexer Tok) (table : List (List Char × Tok)) : Lexer Tok :=
  table.foldl (fun l entry => l.rule (keyword entry.1 entry.2)) l

def symbols (l : Lexer Tok) (table : List (List Char × Tok)) : Lexer Tok :=
  table.foldl (fun l entry => l.rule (symbol entry.1 entry.2)) l

end Lexer

end LinuxRs.Compiler
