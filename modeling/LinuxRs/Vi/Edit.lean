/-
The edits of vi that normal mode triggers (user_program/src/bin/vi/edit.rs).

# The register

Text that was taken line by line ends with a newline; pasting tells by it.

# Loops

`Ctrl-W` deletes while a byte before the cursor is of its kind. Every round
takes one from the column, so the column is enough fuel for the loop.
-/
import LinuxRs.Vi.Motion

namespace LinuxRs.Vi.Edit

def deleteChar (b : Buffer) : Option (Option Text × Buffer) :=
  b.deleteAtCursor

def backspaceChar (b : Buffer) : Option (Option Text × Buffer) :=
  if b.col = 0 then some (none, b)
  else { b with col := b.col - 1 }.deleteAtCursor

def yankLine (b : Buffer) : Text := b.line b.row

/-- `lines.insert(row + i, line)` of the new lines, one after the other. -/
def insertLines : Nat → List Text → List Text → Option (List Text)
  | _, [], lines => some lines
  | row, new :: rest, lines =>
    (vecInsert lines row new).bind (insertLines (row + 1) rest)

def stripNewline (register : Text) : Option Text :=
  if register.getLast? = some 0x0a#8 then some register.dropLast else none

def pasteLines (b : Buffer) (row : Nat) (stripped : Text) :
    Option Buffer := do
  let lines ← insertLines row (splitNewlines stripped) b.lines
  some { b with lines := lines, row := row, col := 0, dirty := true }

def pasteAfter (b : Buffer) (register : Text) : Option Buffer :=
  match stripNewline register with
  | some stripped => pasteLines b (b.row + 1) stripped
  | none => do
      let line ← b.current
      let insertAt := min (b.col + 1) line.length
      let line ← insertText line insertAt register
      some { b.setLine line with
        col := insertAt + (register.length - 1), dirty := true }

def pasteBefore (b : Buffer) (register : Text) : Option Buffer :=
  match stripNewline register with
  | some stripped => pasteLines b b.row stripped
  | none => do
      let line ← b.current
      let line ← insertText line b.col register
      some { b.setLine line with dirty := true }

/-- Where `dw` ends: where `w` goes, or at the end of the line. -/
def wordStop (b : Buffer) (line : Text) : Nat :=
  let next := Motion.wordNext b
  if next.row = b.row then next.col else line.length

def deleteWord (b : Buffer) : Option (Text × Buffer) := do
  let line ← b.current
  let (removed, line) ← drain line b.col (wordStop b line)
  let col := if line.length ≤ b.col ∧ 0 < b.col then line.length - 1
    else b.col
  some (removed, { b.setLine line with col := col, dirty := true })

def deleteToEol (b : Buffer) : Option (Text × Buffer) := do
  let line ← b.current
  let (removed, line) ← drain line b.col line.length
  let col := if 0 < b.col ∧ line.length ≤ b.col then line.length - 1
    else b.col
  some (removed, { b.setLine line with col := col, dirty := true })

def joint (line trimmed : Text) : Text :=
  if line ≠ [] ∧ line.getLast? ≠ some (chr ' ') ∧ trimmed ≠ [] then
    [chr ' ']
  else []

def joinLines (b : Buffer) : Option Buffer :=
  if b.lines.length ≤ b.row + 1 then some b
  else do
    let (next, lines) ← vecRemove b.lines (b.row + 1)
    let trimmed := trimStart next
    let line ← lines[b.row]?
    some { b with
      lines := lines.set b.row (line ++ joint line trimmed ++ trimmed)
      col := line.length
      dirty := true }

/-- Backspaces while the byte before the cursor is of a kind, at most as
many as the fuel. -/
def backspaceWhile (kind : Byte → Bool) : Nat → Buffer → Option Buffer
  | 0, b => some b
  | fuel + 1, b =>
    if b.col = 0 then some b
    else do
      let cur ← b.current
      if cur[b.col - 1]?.elim false kind then
        b.backspace.bind (backspaceWhile kind fuel)
      else some b

/-- `drop_word_left`: the blanks before the cursor, then the word. -/
def dropWordLeft (b : Buffer) : Option Buffer := do
  let b ← backspaceWhile (· = chr ' ') b.col b
  backspaceWhile (· ≠ chr ' ') b.col b

end LinuxRs.Vi.Edit
