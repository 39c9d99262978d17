/-
What the console shows, with no addresses in it: a screen of cells in
row-major order, a cursor by column and row, and the same parser.

The operations are those of the console read off the screen. Nothing here
depends on where in video memory the screen lies or on how a scroll gets it
there; the console refines this machine whatever the adapter.
-/
import LinuxRs.Driver.Vga
import Mathlib.Logic.Function.Iterate

namespace LinuxRs.Driver.Vga

/-- A screen; cells past the last one are never shown and stay zero. -/
@[ext] structure Screen where
  columns : Nat
  lines : Nat
  eraseCell : Cell
  cursorX : Nat
  cursorY : Nat
  scrollTop : Nat
  scrollBottom : Nat
  attr : Byte
  savedX : Nat
  savedY : Nat
  parser : AnsiParser
  cells : Nat → Cell

namespace Screen

-- ======== cells

def size (s : Screen) : Nat := s.lines * s.columns

def rowStart (s : Screen) : Nat := s.cursorY * s.columns

def here (s : Screen) : Nat := s.rowStart + s.cursorX

def paint (s : Screen) (f : Nat → Cell) : Screen :=
  { s with cells := fun i => if i < s.size then f i else 0#16 }

def erase (s : Screen) (lo hi : Nat) : Screen :=
  s.paint fun i => if lo ≤ i ∧ i < hi then s.eraseCell else s.cells i

def put (s : Screen) (cell : Cell) : Screen :=
  s.paint fun i => if i = s.here then cell else s.cells i

-- ======== movements

def moveCursor (s : Screen) (x y : Nat) : Screen :=
  if x > s.columns ∨ y ≥ s.lines then s else { s with cursorX := x, cursorY := y }

def scrollUp (s : Screen) : Screen :=
  s.paint fun i =>
    if s.scrollTop * s.columns ≤ i ∧ i + s.columns < s.scrollBottom * s.columns
    then s.cells (i + s.columns)
    else if s.scrollTop * s.columns ≤ i ∧ i < s.scrollBottom * s.columns
    then s.eraseCell
    else s.cells i

def scrollDown (s : Screen) : Screen :=
  s.paint fun i =>
    if s.scrollTop * s.columns + s.columns ≤ i ∧ i < s.scrollBottom * s.columns
    then s.cells (i - s.columns)
    else if s.scrollTop * s.columns ≤ i ∧ i < s.scrollBottom * s.columns
    then s.eraseCell
    else s.cells i

def lineFeed (s : Screen) : Screen :=
  if s.cursorY + 1 < s.scrollBottom then { s with cursorY := s.cursorY + 1 }
  else s.scrollUp

def wrapLine (s : Screen) : Screen :=
  lineFeed { s with cursorX := s.cursorX - s.columns }

def reverseIndex (s : Screen) : Screen :=
  if s.cursorY > s.scrollTop then { s with cursorY := s.cursorY - 1 }
  else s.scrollDown

def carriageReturn (s : Screen) : Screen := { s with cursorX := 0 }

def backspace (s : Screen) : Screen :=
  if s.cursorX > 0 then { s with cursorX := s.cursorX - 1 } else s

def delete (s : Screen) : Screen :=
  if s.cursorX > 0 then put { s with cursorX := s.cursorX - 1 } s.eraseCell
  else s

def tab (s : Screen) : Screen :=
  let s := { s with cursorX := s.cursorX + (8 - s.cursorX % 8) }
  if s.cursorX > s.columns then s.wrapLine else s

def saveCursor (s : Screen) : Screen :=
  { s with savedX := s.cursorX, savedY := s.cursorY }

def restoreCursor (s : Screen) : Screen := s.moveCursor s.savedX s.savedY

-- ======== erasing, editing

/-- Erase from the cursor on, up to it, or everything. A cursor past the
last cell has nothing after it to count. -/
def eraseDisplay (s : Screen) (mode : Nat) : Except Fault Screen :=
  match mode with
  | 0 => if s.here ≤ s.size then .ok (s.erase s.here s.size) else .error .underflow
  | 1 => .ok (s.erase 0 s.here)
  | 2 => .ok (s.erase 0 s.size)
  | _ => .ok s

def eraseLine (s : Screen) (mode : Nat) : Screen :=
  match mode with
  | 0 => if s.cursorX ≥ s.columns then s
      else s.erase s.here (s.rowStart + s.columns)
  | 1 => s.erase s.rowStart (s.rowStart
      + if s.cursorX < s.columns then s.cursorX else s.columns)
  | 2 => s.erase s.rowStart (s.rowStart + s.columns)
  | _ => s

def insertChar (s : Screen) : Screen :=
  s.paint fun i =>
    if s.here ≤ i ∧ i < s.rowStart + s.columns then
      if i = s.here then s.eraseCell else s.cells (i - 1)
    else s.cells i

def deleteChar (s : Screen) : Screen :=
  if s.cursorX ≥ s.columns then s
  else s.paint fun i =>
    if s.here ≤ i ∧ i < s.rowStart + s.columns then
      if i + 1 = s.rowStart + s.columns then s.eraseCell else s.cells (i + 1)
    else s.cells i

def insertChars (s : Screen) (count : Nat) : Except Fault Screen :=
  (clampCount count s.columns).map fun n => insertChar^[n] s

def deleteChars (s : Screen) (count : Nat) : Except Fault Screen :=
  (clampCount count s.columns).map fun n => deleteChar^[n] s

def belowCursor (s : Screen) (body : Screen → Screen) : Screen :=
  { body { s with scrollTop := s.cursorY, scrollBottom := s.lines } with
    scrollTop := s.scrollTop, scrollBottom := s.scrollBottom }

def insertLines (s : Screen) (count : Nat) : Except Fault Screen :=
  (clampCount count s.lines).map fun n => s.belowCursor scrollDown^[n]

def deleteLines (s : Screen) (count : Nat) : Except Fault Screen :=
  (clampCount count s.lines).map fun n => s.belowCursor scrollUp^[n]

def setGraphicRendition (s : Screen) : Screen :=
  { s with attr := s.parser.graphicRendition s.attr }

def setScrollRegion (s : Screen) : Screen :=
  match s.parser.scrollRegion s.lines with
  | some region => { s with scrollTop := region.1, scrollBottom := region.2 }
  | none => s

-- ======== bytes

variable (checks : Bool)

def dispatchCsi (s : Screen) (finalCh : Byte) : Except Fault Screen :=
  let count := (s.parser.paramOr firstParam 1#32).toNat
  let col := (s.parser.paramOr firstParam 1#32).toNat - 1
  let row := (s.parser.paramOr firstParam 1#32).toNat - 1
  match csiOf finalCh with
  | .column => .ok (s.moveCursor col s.cursorY)
  | .up => .ok (s.moveCursor s.cursorX (s.cursorY - count))
  | .down => (sum checks s.cursorY count).map fun y => s.moveCursor s.cursorX y
  | .right => (sum checks s.cursorX count).map fun x => s.moveCursor x s.cursorY
  | .left => .ok (s.moveCursor (s.cursorX - count) s.cursorY)
  | .nextLine => (sum checks s.cursorY count).map fun y => s.moveCursor 0 y
  | .previousLine => .ok (s.moveCursor 0 (s.cursorY - count))
  | .row => .ok (s.moveCursor s.cursorX row)
  | .position =>
    .ok (s.moveCursor ((s.parser.paramOr secondParam 1#32).toNat - 1) row)
  | .eraseDisplay => s.eraseDisplay (s.parser.paramOr firstParam 0#32).toNat
  | .eraseLine => .ok (s.eraseLine (s.parser.paramOr firstParam 0#32).toNat)
  | .insertLines => s.insertLines count
  | .deleteLines => s.deleteLines count
  | .deleteChars => s.deleteChars count
  | .insertChars => s.insertChars count
  | .graphicRendition => .ok s.setGraphicRendition
  | .scrollRegion => .ok s.setScrollRegion
  | .saveCursor => .ok s.saveCursor
  | .restoreCursor => .ok s.restoreCursor
  | .unknown => .ok s

def enter (s : Screen) (state : AnsiState) : Screen :=
  { s with parser := { s.parser with state := state } }

def handleCsiParam (s : Screen) (byte : Byte) : Except Fault Screen := do
  match ← s.parser.csiParam checks byte with
  | some parser => return { s with parser := parser }
  | none => (s.enter .normal).dispatchCsi checks byte

def handleCsiEntry (s : Screen) (byte : Byte) : Except Fault Screen :=
  if byte = 0x3f#8 then .ok (s.enter .csiParam)
  else (s.enter .csiParam).handleCsiParam checks byte

def handleEscape (s : Screen) (byte : Byte) : Screen :=
  let s := s.enter .normal
  if byte = 0x5b#8 then
    { s with parser := { s.parser.resetParams with state := .csiEntry } }
  else if byte = 0x45#8 then s.moveCursor 0 (s.cursorY + 1)
  else if byte = 0x4d#8 then s.reverseIndex
  else if byte = 0x44#8 then s.lineFeed
  else if byte = 0x37#8 then s.saveCursor
  else if byte = 0x38#8 then s.restoreCursor
  else s

def printChar (s : Screen) (byte : Byte) : Screen :=
  let s := if s.cursorX ≥ s.columns then s.wrapLine else s
  let s := s.put (cellOf s.attr byte)
  { s with cursorX := s.cursorX + 1 }

def handleNormal (s : Screen) (byte : Byte) : Screen :=
  if Control.firstPrintable ≤ byte ∧ byte ≤ Control.lastPrintable then
    s.printChar byte
  else if byte = Control.escape then s.enter .escape
  else if byte = Control.lineFeed ∨ byte = Control.verticalTab
      ∨ byte = Control.formFeed then s.lineFeed
  else if byte = Control.carriageReturn then s.carriageReturn
  else if byte = Control.delete then s.delete
  else if byte = Control.backspace then s.backspace
  else if byte = Control.tab then s.tab
  else s

def writeByte (s : Screen) (byte : Byte) : Except Fault Screen :=
  match s.parser.state with
  | .normal => .ok (s.handleNormal byte)
  | .escape => .ok (s.handleEscape byte)
  | .csiEntry => s.handleCsiEntry checks byte
  | .csiParam => s.handleCsiParam checks byte

def writeBytes : Screen → List Byte → Except Fault Screen
  | s, [] => .ok s
  | s, byte :: bytes => do writeBytes (← s.writeByte checks byte) bytes

end Screen

end LinuxRs.Driver.Vga
