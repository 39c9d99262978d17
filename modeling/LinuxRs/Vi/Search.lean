/-
Searching in vi (user_program/src/bin/vi/search.rs).

# Regular expressions

They are a library of their own: `RegexLib` is what the editor calls of
it, with the offset at which a match starts for the match.
-/
import LinuxRs.Vi.Edit

namespace LinuxRs.Vi

/-- The regular expressions, which the editor takes from a library. -/
structure RegexLib (ρ : Type) where
  /-- `Regex::new`, with the text of its error. -/
  compile : Text → Except Text ρ
  /-- `find_at`, and `find` from the start. -/
  findAt : ρ → Text → Nat → Option Nat
  /-- `find_iter`. -/
  findIter : ρ → Text → List Nat
  /-- `replace_all` by a replacement. -/
  replaceAll : ρ → Text → Text → Text
  /-- `replacen` of one match. -/
  replaceOne : ρ → Text → Text → Text

/-- The search that `/`, `?`, `n` and `N` share. -/
structure Search (ρ : Type) where
  pattern : Text
  compiled : Option ρ
  forward : Bool

namespace Search

variable {ρ : Type}

def new : Search ρ := ⟨[], none, true⟩

def set (lib : RegexLib ρ) (pattern : Text) (forward : Bool) :
    Except Text (Search ρ) :=
  if pattern = [] then .error (ascii "empty pattern")
  else
    match lib.compile pattern with
    | .error err => .error err
    | .ok re => .ok ⟨pattern, some re, forward⟩

def scanRows (hit : Nat → Option Nat) (start : Nat) :
    List Nat → Option (Nat × Nat)
  | [] => none
  | r :: rest =>
    match hit r with
    | some col => some (r, col)
    | none => if r = start then none else scanRows hit start rest

def rowsBelow (row count : Nat) : List Nat :=
  (List.range count).map fun i => (row + (i + 1)) % count

/-- The rows above a row, from the bottom again after the first one. -/
def rowsAbove (row count : Nat) : List Nat :=
  (List.range count).map fun i => (row + count - (i + 1)) % count

def lastMatchIn (lib : RegexLib ρ) (re : ρ) (haystack : Text) : Option Nat :=
  (lib.findIter re haystack).getLast?

def forwardPos (lib : RegexLib ρ) (re : ρ) (b : Buffer)
    (includeCursor : Bool) : Option (Nat × Nat) :=
  let line := b.line b.row
  let scanFrom := min (if includeCursor then b.col else b.col + 1) line.length
  match lib.findAt re line scanFrom with
  | some col => some (b.row, col)
  | none =>
    scanRows (fun r => lib.findAt re (b.line r) 0) b.row
      (rowsBelow b.row b.lines.length)

def cutoff (b : Buffer) (includeCursor : Bool) : Nat :=
  if includeCursor then min (b.col + 1) (b.line b.row).length else b.col

/-- The match in the line of the cursor that a backward search finds; the
slice of the line before the cut may panic. -/
def backwardHere (lib : RegexLib ρ) (re : ρ) (b : Buffer) (cut : Nat) :
    Option (Option Nat) :=
  if 0 < cut then
    (prefixTo (b.line b.row) cut).map (lastMatchIn lib re)
  else some none

def backwardPos (lib : RegexLib ρ) (re : ρ) (b : Buffer)
    (includeCursor : Bool) : Option (Option (Nat × Nat)) :=
  (backwardHere lib re b (cutoff b includeCursor)).map fun
    | some col => some (b.row, col)
    | none =>
      scanRows (fun r => lastMatchIn lib re (b.line r)) b.row
        (rowsAbove b.row b.lines.length)

/-- `find`: was there a match, and the buffer with the cursor there. -/
def find (lib : RegexLib ρ) (s : Search ρ) (b : Buffer)
    (forward includeCursor : Bool) : Option (Bool × Buffer) :=
  match s.compiled with
  | none => some (false, b)
  | some re =>
    (if forward then some (forwardPos lib re b includeCursor)
      else backwardPos lib re b includeCursor).map fun
      | some p => (true, Motion.goTo b p)
      | none => (false, b)

def findNext (lib : RegexLib ρ) (s : Search ρ) (b : Buffer) :
    Option (Bool × Buffer) :=
  find lib s b s.forward false

def findFirst (lib : RegexLib ρ) (s : Search ρ) (b : Buffer) :
    Option (Bool × Buffer) :=
  find lib s b s.forward true

def findPrev (lib : RegexLib ρ) (s : Search ρ) (b : Buffer) :
    Option (Bool × Buffer) :=
  find lib s b (!s.forward) false

end Search

end LinuxRs.Vi
