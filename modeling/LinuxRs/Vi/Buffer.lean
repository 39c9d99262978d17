/-
The buffer of vi (user_program/src/bin/vi/buffer.rs) and its undo stack
(undo.rs).

# Panics

An operation that may panic returns `none` there. Reading a line that is
not there is one such panic: nothing in the types keeps the row inside.

# Files

What the file system answers while one key is handled is a parameter, an
`Io`: `write` gives the text of the error of a failing write.
-/
import LinuxRs.Vi.Text

namespace LinuxRs.Vi

-- ======== files

/-- An error of `read_to_string`: is it `NotFound`, and its text. -/
structure ReadError where
  notFound : Bool
  text : Text

structure Io where
  /-- `fs::write` of the bytes to the path. -/
  write : Text → Text → Except Text Unit
  /-- `fs::read_to_string` of the path. -/
  read : Text → Except ReadError Text

def fileName (path : Text) : Option Text :=
  let slash := chr '/'
  let trimmed := path.take 1 ++
    ((path.drop 1).reverse.dropWhile (· = slash)).reverse
  let name := (trimmed.reverse.takeWhile (· ≠ slash)).reverse
  if name = [] ∨ name = ascii "." ∨ name = ascii ".." then none
  else some name

-- ======== the buffer

structure Buffer where
  path : Option Text
  /-- Line contents, without the newlines. -/
  lines : List Text
  row : Nat
  /-- Byte offset in the line of the cursor. -/
  col : Nat
  /-- Modified since the last save. -/
  dirty : Bool
  newFile : Bool

namespace Buffer

def empty : Buffer where
  path := none
  lines := [[]]
  row := 0
  col := 0
  dirty := false
  newFile := true

/-- `load`: a missing file is a blank buffer for its path. -/
def load (io : Io) (path : Text) : Except Text Buffer :=
  match io.read path with
  | .ok text =>
    .ok ⟨some path, splitKeepEmpty text, 0, 0, false, false⟩
  | .error err =>
    if err.notFound then .ok ⟨some path, [[]], 0, 0, false, true⟩
    else .error err.text

def blob (b : Buffer) : Text :=
  [0x0a#8].intercalate b.lines ++ [0x0a#8]

/-- `save_as`: how many bytes were written, and the buffer after. -/
def saveAs (io : Io) (b : Buffer) (path : Text) : Except Text Nat × Buffer :=
  match io.write path b.blob with
  | .error err => (.error err, b)
  | .ok _ =>
    (.ok b.blob.length,
      { b with path := some path, dirty := false, newFile := false })

def save (io : Io) (b : Buffer) : Except Text Nat × Buffer :=
  match b.path with
  | none => (.error (ascii "no file name"), b)
  | some path => b.saveAs io path

def displayName (b : Buffer) : Text :=
  (b.path.bind fileName).getD (ascii "[No Name]")

def line (b : Buffer) (row : Nat) : Text := b.lines.getD row []

/-- The line of the cursor; `lines[row]` panics past the end. -/
def current (b : Buffer) : Option Text := b.lines[b.row]?

def setLine (b : Buffer) (line : Text) : Buffer :=
  { b with lines := b.lines.set b.row line }

def clampCol (b : Buffer) (allowOnePast : Bool) : Option Buffer := do
  let line ← b.current
  let len := line.length
  let max := if allowOnePast ∨ len = 0 then len else len - 1
  some { b with col := if b.col > max then max else b.col }

-- ======== mutations

def insertByte (b : Buffer) (byte : Byte) : Option Buffer := do
  let line ← b.current
  let line ← insertText line b.col (charOf byte)
  some { b.setLine line with col := b.col + 1, dirty := true }

def splitLine (b : Buffer) : Option Buffer := do
  let line ← b.current
  let (head, tail) ← splitOff line b.col
  let lines ← vecInsert (b.setLine head).lines (b.row + 1) tail
  some { b with lines := lines, row := b.row + 1, col := 0, dirty := true }

/-- `backspace` of insert mode; at column 0 it joins two lines. -/
def backspace (b : Buffer) : Option Buffer :=
  if b.col = 0 then
    if b.row = 0 then some b
    else do
      let (cur, lines) ← vecRemove b.lines b.row
      let above ← lines[b.row - 1]?
      some { b with
        lines := lines.set (b.row - 1) (above ++ cur)
        row := b.row - 1
        col := above.length
        dirty := true }
  else do
    let line ← b.current
    let (_, line) ← removeChar line (b.col - 1)
    some { b.setLine line with col := b.col - 1, dirty := true }

/-- `delete_at_cursor`: the deleted character, if there was one. -/
def deleteAtCursor (b : Buffer) : Option (Option Text × Buffer) := do
  let line ← b.current
  if line = [] ∨ line.length ≤ b.col then some (none, b)
  else do
    let (ch, line) ← removeChar line b.col
    let col := if line.length ≤ b.col ∧ 0 < b.col then b.col - 1 else b.col
    some (some ch, { b.setLine line with col := col, dirty := true })

/-- The line that `delete_line` takes: an only line stays as an empty one. -/
def takeLine (b : Buffer) : Option (Text × List Text) :=
  if b.lines.length = 1 then some (b.line 0, b.lines.set 0 [])
  else vecRemove b.lines b.row

def deleteLine (b : Buffer) : Option (Text × Buffer) := do
  let (removed, lines) ← b.takeLine
  let row := if lines.length ≤ b.row then lines.length - 1 else b.row
  some (removed,
    { b with lines := lines, row := row, col := 0, dirty := true })

def clearCurrentLine (b : Buffer) : Option (Text × Buffer) := do
  let old ← b.current
  some (old, { b.setLine [] with col := 0, dirty := true })

def openBelow (b : Buffer) : Option Buffer := do
  let lines ← vecInsert b.lines (b.row + 1) []
  some { b with lines := lines, row := b.row + 1, col := 0, dirty := true }

def openAbove (b : Buffer) : Option Buffer := do
  let lines ← vecInsert b.lines b.row []
  some { b with lines := lines, col := 0, dirty := true }

def replaceAtCursor (b : Buffer) (byte : Byte) : Option Buffer := do
  let line ← b.current
  if line.length ≤ b.col then some b
  else do
    let (_, line) ← removeChar line b.col
    let line ← insertText line b.col (charOf byte)
    some { b.setLine line with dirty := true }

end Buffer

-- ======== the undo stack

structure Snapshot where
  lines : List Text
  row : Nat
  col : Nat
  deriving DecidableEq

def Buffer.snapshot (b : Buffer) : Snapshot := ⟨b.lines, b.row, b.col⟩

namespace Undo

def cap : Nat := 200

end Undo

/-- The stack of snapshots, which drops its oldest. -/
structure Undo where
  stack : List Snapshot
  bounded : stack.length ≤ Undo.cap

namespace Undo

def new : Undo := ⟨[], Nat.zero_le _⟩

/-- What is kept of a stack below a new snapshot: a full one loses its
oldest. -/
def room (u : Undo) : List Snapshot :=
  if u.stack.length = cap then u.stack.dropLast else u.stack

theorem room_bounded (u : Undo) (s : Snapshot) :
    (s :: u.room).length ≤ cap := by
  have := u.bounded
  unfold room
  split
  next h =>
    rw [List.length_cons, List.length_dropLast, h]
    decide
  next h =>
    rw [List.length_cons]
    omega

def snapshot (u : Undo) (b : Buffer) : Undo :=
  ⟨b.snapshot :: u.room, u.room_bounded b.snapshot⟩

def below (u : Undo) : Undo :=
  ⟨u.stack.tail, by
    have := u.bounded
    rw [List.length_tail]
    omega⟩

/-- `pop_into`: was something restored, with the stack and the buffer. -/
def popInto (u : Undo) (b : Buffer) : Bool × Undo × Buffer :=
  match u.stack.head? with
  | none => (false, u, b)
  | some s =>
    (true, u.below,
      { b with lines := s.lines, row := s.row, col := s.col, dirty := true })

end Undo

end LinuxRs.Vi
