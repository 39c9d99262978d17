/-
The VGA text console (kernel/src/driver/character/console/vga.rs): video
memory, the screen geometry and cursor, scrolling, erasing, and the
escape-sequence parser in front of them.

# Arithmetic

`usize` subtractions go through `sub`, which stops the machine on an
underflow. The sums that an escape parameter enters go through `sum`, and
the accumulation of a parameter through `accumulate`: both stop in a build
with overflow checks and wrap in one without, as `checks` says. The other
sums are of positions within a screen and stay plain.

# Memory

Video memory is a map from byte addresses to cells. Every load and store
of a cell is recorded in `touched`, so that where a byte stream reaches in
memory is a fact about the state.
-/
import Mathlib.Tactic.Common
import Mathlib.Logic.Function.Basic

namespace LinuxRs.Driver.Vga

abbrev Byte := BitVec 8

abbrev Cell := BitVec 16

-- ======== constants

def maxAnsiParams : Nat := 16

def crtcStartHigh : Nat := 12

def crtcCursorHigh : Nat := 14

def attrNormal : Byte := 0x07#8

def attrBold : Byte := 0x0f#8

def attrInverse : Byte := 0x70#8

def cellOf (attr byte : Byte) : Cell := attr ++ byte

def eraseCell : Cell := cellOf attrNormal 0x20#8

def monoVideoMode : BitVec 16 := 7#16

def noEgaSentinel : BitVec 16 := 0x10#16

def screenLines : Nat := 25

/-- `EARLY_VGA_COLUMNS` of the boot-time logger. -/
def earlyVgaColumns : Nat := 80

namespace Control

def bell : Byte := 0x07#8

def backspace : Byte := 0x08#8

def tab : Byte := 0x09#8

def lineFeed : Byte := 0x0a#8

def verticalTab : Byte := 0x0b#8

def formFeed : Byte := 0x0c#8

def carriageReturn : Byte := 0x0d#8

def escape : Byte := 0x1b#8

def delete : Byte := 0x7f#8

def firstPrintable : Byte := 0x20#8

def lastPrintable : Byte := 0x7e#8

end Control

-- ======== state

inductive DisplayType
  | mda
  | cga
  | egaMonochrome
  | egaColor

def DisplayType.isEga : DisplayType → Bool
  | .egaMonochrome | .egaColor => true
  | .mda | .cga => false

inductive AnsiState
  | normal
  | escape
  | csiEntry
  | csiParam

/-- `AnsiParser`; the parameter in progress is one of the array's. -/
structure AnsiParser where
  state : AnsiState
  params : Fin maxAnsiParams → BitVec 32
  paramCount : Fin maxAnsiParams

def firstParam : Fin maxAnsiParams := ⟨0, by unfold maxAnsiParams; omega⟩

def secondParam : Fin maxAnsiParams := ⟨1, by unfold maxAnsiParams; omega⟩

def AnsiParser.new : AnsiParser := ⟨.normal, fun _ => 0#32, firstParam⟩

def AnsiParser.resetParams (p : AnsiParser) : AnsiParser :=
  { p with params := fun _ => 0#32, paramCount := firstParam }

def AnsiParser.paramOr (p : AnsiParser) (index : Fin maxAnsiParams)
    (default : BitVec 32) : BitVec 32 :=
  if p.params index = 0#32 then default else p.params index

/-- `VgaConsole`, with the video memory and the CRT controller registers
it drives. `touched` lists the addresses of the cells loaded and stored. -/
structure VgaConsole where
  displayType : DisplayType
  columns : Nat
  lines : Nat
  rowBytes : Nat
  memStart : Nat
  memEnd : Nat
  eraseCell : Cell
  origin : Nat
  screenEnd : Nat
  cursorPos : Nat
  cursorX : Nat
  cursorY : Nat
  scrollTop : Nat
  scrollBottom : Nat
  attr : Byte
  savedX : Nat
  savedY : Nat
  parser : AnsiParser
  vram : Nat → Cell
  touched : List Nat
  crtc : Nat → Byte

-- ======== arithmetic

/-- Arithmetic that a checked build stops at. -/
inductive Fault
  | overflow
  | underflow
  | clamp
  deriving DecidableEq

def sub (a b : Nat) : Except Fault Nat :=
  if b ≤ a then .ok (a - b) else .error .underflow

/-- The number of values of a `usize`, and of a `u32`. -/
def wordSize : Nat := 4294967296

/-- A value that does not fit a word stops a checked build and wraps in an
unchecked one. -/
def fitWord (checks : Bool) (n : Nat) : Except Fault Nat :=
  if n < wordSize then .ok n
  else if checks then .error .overflow
  else .ok (n % wordSize)

def sum (checks : Bool) (a b : Nat) : Except Fault Nat := fitWord checks (a + b)

/-- The next value of a parameter, `params[i] * 10 + digit`. -/
def accumulate (checks : Bool) (value : BitVec 32) (digit : Nat) :
    Except Fault (BitVec 32) :=
  (fitWord checks (value.toNat * 10 + digit)).map (BitVec.ofNat 32)

/-- `count.clamp(1, max)`, which asserts that its bounds are in order. -/
def clampCount (count max : Nat) : Except Fault Nat :=
  if 1 ≤ max then .ok (Nat.min (Nat.max count 1) max) else .error .clamp

-- ======== memory access

namespace VgaConsole

def touch (s : VgaConsole) (addr : Nat) : VgaConsole :=
  { s with touched := addr :: s.touched }

def store (s : VgaConsole) (addr : Nat) (cell : Cell) : VgaConsole :=
  { s with vram := Function.update s.vram addr cell, touched := addr :: s.touched }

def cellAddrs (addr count : Nat) : List Nat :=
  (List.range count).map fun i => addr + 2 * i

/-- `ptr::copy` of `count` cells, which may overlap. -/
def copyCells (s : VgaConsole) (src dst count : Nat) : VgaConsole :=
  { s with
    vram := fun a =>
      if dst ≤ a ∧ a < dst + 2 * count ∧ (a - dst) % 2 = 0
      then s.vram (src + (a - dst)) else s.vram a
    touched := cellAddrs src count ++ (cellAddrs dst count ++ s.touched) }

def fillErase (s : VgaConsole) (addr : Nat) : Nat → VgaConsole
  | 0 => s
  | count + 1 => (s.store addr s.eraseCell).fillErase (addr + 2) count

def writeCrtcWord (s : VgaConsole) (indexHigh value : Nat) : VgaConsole :=
  let high := Function.update s.crtc indexHigh (BitVec.ofNat 8 (value / 256))
  { s with crtc := Function.update high (indexHigh + 1) (BitVec.ofNat 8 value) }

-- ======== cursor

/-- `move_cursor`; a position off the screen is ignored. -/
def moveCursor (s : VgaConsole) (newX newY : Nat) : VgaConsole :=
  if newX > s.columns ∨ newY ≥ s.lines then s
  else { s with
    cursorX := newX
    cursorY := newY
    cursorPos := s.origin + newY * s.rowBytes + 2 * newX }

def syncHardwareCursor (s : VgaConsole) : Except Fault VgaConsole := do
  let bytes ← sub s.cursorPos s.memStart
  return s.writeCrtcWord crtcCursorHigh (bytes / 2)

def saveCursor (s : VgaConsole) : VgaConsole :=
  { s with savedX := s.cursorX, savedY := s.cursorY }

def restoreCursor (s : VgaConsole) : VgaConsole := s.moveCursor s.savedX s.savedY

def putChar (s : VgaConsole) (byte : Byte) : VgaConsole :=
  s.store s.cursorPos (cellOf s.attr byte)

-- ======== scrolling

def setOrigin (s : VgaConsole) : Except Fault VgaConsole := do
  let bytes ← sub s.origin s.memStart
  return s.writeCrtcWord crtcStartHigh (bytes / 2)

/-- The first half of the EGA/VGA branch of `scroll_up`: the display origin
moves down a row. -/
def advanceOrigin (s : VgaConsole) : VgaConsole :=
  { s with
    origin := s.origin + s.rowBytes
    cursorPos := s.cursorPos + s.rowBytes
    screenEnd := s.screenEnd + s.rowBytes }

def rewindPositions (s : VgaConsole) : Except Fault VgaConsole := do
  let moved ← sub s.origin s.memStart
  let screenEnd ← sub s.screenEnd moved
  let cursorPos ← sub s.cursorPos moved
  setOrigin { s with
    screenEnd := screenEnd
    cursorPos := cursorPos
    origin := s.memStart }

/-- The visible lines go back to the start of video memory, and a blank one
after them. -/
def rewindOrigin (s : VgaConsole) : Except Fault VgaConsole := do
  let lineCount ← sub s.lines 1
  let s := s.copyCells s.origin s.memStart (lineCount * s.columns)
  let s := s.fillErase (s.memStart + lineCount * s.rowBytes) s.columns
  s.rewindPositions

def clearLastLine (s : VgaConsole) : Except Fault VgaConsole := do
  let lastLine ← sub s.screenEnd s.rowBytes
  setOrigin (s.fillErase lastLine s.columns)

def scrollUpFast (s : VgaConsole) : Except Fault VgaConsole :=
  if s.advanceOrigin.screenEnd > s.advanceOrigin.memEnd then
    s.advanceOrigin.rewindOrigin
  else s.advanceOrigin.clearLastLine

def scrollUpCopy (s : VgaConsole) : Except Fault VgaConsole := do
  let dst := s.origin + s.rowBytes * s.scrollTop
  let src := dst + s.rowBytes
  let height ← sub s.scrollBottom s.scrollTop
  let lineCount ← sub height 1
  let s := s.copyCells src dst (lineCount * s.columns)
  let lastRow ← sub s.scrollBottom 1
  return s.fillErase (s.origin + s.rowBytes * lastRow) s.columns

def scrollUp (s : VgaConsole) : Except Fault VgaConsole :=
  if s.displayType.isEga ∧ s.scrollTop = 0 ∧ s.scrollBottom = s.lines then
    s.scrollUpFast
  else s.scrollUpCopy

def scrollDown (s : VgaConsole) : Except Fault VgaConsole := do
  let height ← sub s.scrollBottom s.scrollTop
  let lineCount ← sub height 1
  let s := s.copyCells (s.origin + s.rowBytes * s.scrollTop)
    (s.origin + s.rowBytes * (s.scrollTop + 1)) (lineCount * s.columns)
  return s.fillErase (s.origin + s.rowBytes * s.scrollTop) s.columns

-- ======== line operations

def lineFeed (s : VgaConsole) : Except Fault VgaConsole :=
  if s.cursorY + 1 < s.scrollBottom then
    .ok { s with cursorY := s.cursorY + 1, cursorPos := s.cursorPos + s.rowBytes }
  else s.scrollUp

/-- The cursor goes back by a row of columns and down a line, as the
printable characters and `tab` do past the last column. -/
def wrapLine (s : VgaConsole) : Except Fault VgaConsole := do
  let cursorX ← sub s.cursorX s.columns
  let cursorPos ← sub s.cursorPos s.rowBytes
  lineFeed { s with cursorX := cursorX, cursorPos := cursorPos }

def reverseIndex (s : VgaConsole) : Except Fault VgaConsole :=
  if s.cursorY > s.scrollTop then do
    let cursorPos ← sub s.cursorPos s.rowBytes
    return { s with cursorY := s.cursorY - 1, cursorPos := cursorPos }
  else s.scrollDown

def carriageReturn (s : VgaConsole) : Except Fault VgaConsole := do
  let cursorPos ← sub s.cursorPos (2 * s.cursorX)
  return { s with cursorPos := cursorPos, cursorX := 0 }

def backspace (s : VgaConsole) : Except Fault VgaConsole :=
  if s.cursorX > 0 then do
    let cursorPos ← sub s.cursorPos 2
    return { s with cursorX := s.cursorX - 1, cursorPos := cursorPos }
  else .ok s

def delete (s : VgaConsole) : Except Fault VgaConsole :=
  if s.cursorX > 0 then do
    let cursorPos ← sub s.cursorPos 2
    let s := { s with cursorPos := cursorPos, cursorX := s.cursorX - 1 }
    return s.store s.cursorPos s.eraseCell
  else .ok s

def tab (s : VgaConsole) : Except Fault VgaConsole :=
  let spaces := 8 - s.cursorX % 8
  let s := { s with
    cursorX := s.cursorX + spaces
    cursorPos := s.cursorPos + 2 * spaces }
  if s.cursorX > s.columns then s.wrapLine else .ok s

-- ======== erase operations

def eraseDisplay (s : VgaConsole) (mode : Nat) : Except Fault VgaConsole :=
  match mode with
  | 0 => do
      let bytes ← sub s.screenEnd s.cursorPos
      return s.fillErase s.cursorPos (bytes / 2)
  | 1 => do
      let bytes ← sub s.cursorPos s.origin
      return s.fillErase s.origin (bytes / 2)
  | 2 => .ok (s.fillErase s.origin (s.columns * s.lines))
  | _ => .ok s

def eraseLine (s : VgaConsole) (mode : Nat) : Except Fault VgaConsole :=
  match mode with
  | 0 =>
    if s.cursorX ≥ s.columns then .ok s
    else do
      let count ← sub s.columns s.cursorX
      return s.fillErase s.cursorPos count
  | 1 => do
      let start ← sub s.cursorPos (2 * s.cursorX)
      return s.fillErase start
        (if s.cursorX < s.columns then s.cursorX else s.columns)
  | 2 => do
      let start ← sub s.cursorPos (2 * s.cursorX)
      return s.fillErase start s.columns
  | _ => .ok s

-- ======== insert / delete

/-- The loop of `insert_char_at_cursor`: `left` columns are ahead, `carry`
is the cell pushed on. -/
def insertCharLoop (s : VgaConsole) (column : Nat) (carry : Cell) :
    Nat → Except Fault VgaConsole
  | 0 => .ok s
  | left + 1 => do
      let offset ← sub column s.cursorX
      let addr := s.cursorPos + 2 * offset
      insertCharLoop ((s.touch addr).store addr carry) (column + 1)
        (s.vram addr) left

/-- `insert_char_at_cursor`; the loop runs while the column is below
`columns`. -/
def insertCharAtCursor (s : VgaConsole) : Except Fault VgaConsole :=
  s.insertCharLoop s.cursorX s.eraseCell (s.columns - s.cursorX)

/-- The loop of `delete_char_at_cursor` and the store that ends it, at the
column the loop stopped at. -/
def deleteCharLoop (s : VgaConsole) (i : Nat) : Nat → Except Fault VgaConsole
  | 0 => do
      let offset ← sub i s.cursorX
      return s.store (s.cursorPos + 2 * offset) s.eraseCell
  | left + 1 => do
      let nextOffset ← sub (i + 1) s.cursorX
      let offset ← sub i s.cursorX
      let next := s.cursorPos + 2 * nextOffset
      deleteCharLoop
        ((s.touch next).store (s.cursorPos + 2 * offset) (s.vram next))
        (i + 1) left

/-- `delete_char_at_cursor`; the loop runs while `i + 1` is below
`columns`. -/
def deleteCharAtCursor (s : VgaConsole) : Except Fault VgaConsole :=
  if s.cursorX ≥ s.columns then .ok s
  else s.deleteCharLoop s.cursorX (s.columns - 1 - s.cursorX)

def times (body : VgaConsole → Except Fault VgaConsole) :
    Nat → VgaConsole → Except Fault VgaConsole
  | 0, s => .ok s
  | n + 1, s => do times body n (← body s)

def insertChars (s : VgaConsole) (count : Nat) : Except Fault VgaConsole := do
  let n ← clampCount count s.columns
  times insertCharAtCursor n s

def deleteChars (s : VgaConsole) (count : Nat) : Except Fault VgaConsole := do
  let n ← clampCount count s.columns
  times deleteCharAtCursor n s

def scrollRegionTemporarily (s : VgaConsole)
    (body : VgaConsole → Except Fault VgaConsole) :
    Except Fault VgaConsole := do
  let s' ← body { s with scrollTop := s.cursorY, scrollBottom := s.lines }
  return { s' with scrollTop := s.scrollTop, scrollBottom := s.scrollBottom }

def insertLines (s : VgaConsole) (count : Nat) : Except Fault VgaConsole :=
  s.scrollRegionTemporarily fun console => do
    let n ← clampCount count console.lines
    times scrollDown n console

def deleteLines (s : VgaConsole) (count : Nat) : Except Fault VgaConsole :=
  s.scrollRegionTemporarily fun console => do
    let n ← clampCount count console.lines
    times scrollUp n console

-- ======== escape sequences

end VgaConsole

inductive Csi
  | column
  | up
  | down
  | right
  | left
  | nextLine
  | previousLine
  | row
  | position
  | eraseDisplay
  | eraseLine
  | insertLines
  | deleteLines
  | deleteChars
  | insertChars
  | graphicRendition
  | scrollRegion
  | saveCursor
  | restoreCursor
  | unknown

def csiOf (finalCh : Byte) : Csi :=
  match finalCh.toNat with
  | 0x47 | 0x60 => .column -- G and the backtick
  | 0x41 => .up -- A
  | 0x42 | 0x65 => .down -- B, e
  | 0x43 | 0x61 => .right -- C, a
  | 0x44 => .left -- D
  | 0x45 => .nextLine -- E
  | 0x46 => .previousLine -- F
  | 0x64 => .row -- d
  | 0x48 | 0x66 => .position -- H, f
  | 0x4a => .eraseDisplay -- J
  | 0x4b => .eraseLine -- K
  | 0x4c => .insertLines -- L
  | 0x4d => .deleteLines -- M
  | 0x50 => .deleteChars -- P
  | 0x40 => .insertChars -- @
  | 0x6d => .graphicRendition -- m
  | 0x72 => .scrollRegion -- r
  | 0x73 => .saveCursor -- s
  | 0x75 => .restoreCursor -- u
  | _ => .unknown

/-- One parameter of `set_graphic_rendition`. -/
def rendition (attr : Byte) (param : BitVec 32) : Byte :=
  if param = 0#32 ∨ param = 27#32 then attrNormal
  else if param = 1#32 ∨ param = 4#32 then attrBold
  else if param = 7#32 then attrInverse
  else attr

/-- The attribute after the parameters up to `paramCount`, in order. -/
def AnsiParser.graphicRendition (p : AnsiParser) (attr : Byte) : Byte :=
  ((List.finRange maxAnsiParams).filter (· ≤ p.paramCount)).foldl
    (fun a i => rendition a (p.params i)) attr

/-- The scroll region `set_scroll_region` asks for, if it is one. -/
def AnsiParser.scrollRegion (p : AnsiParser) (lines : Nat) : Option (Nat × Nat) :=
  let top := (p.paramOr firstParam 1#32).toNat - 1
  let bottom := if p.paramOr secondParam 0#32 = 0#32 then lines
    else (p.paramOr secondParam 0#32).toNat
  if top < bottom ∧ bottom ≤ lines then some (top, bottom) else none

/-- What a byte of a CSI sequence does to the parser: it is a separator or
a digit, or it ends the sequence. -/
def AnsiParser.csiParam (checks : Bool) (p : AnsiParser) (byte : Byte) :
    Except Fault (Option AnsiParser) :=
  if h : byte = 0x3b#8 ∧ p.paramCount.val < maxAnsiParams - 1 then
    .ok (some { p with paramCount := ⟨p.paramCount.val + 1, by omega⟩ })
  else if 0x30#8 ≤ byte ∧ byte ≤ 0x39#8 then do
    let value ← accumulate checks (p.params p.paramCount) (byte - 0x30#8).toNat
    return some { p with params := Function.update p.params p.paramCount value }
  else .ok none

namespace VgaConsole

def setGraphicRendition (s : VgaConsole) : VgaConsole :=
  { s with attr := s.parser.graphicRendition s.attr }

def setScrollRegion (s : VgaConsole) : VgaConsole :=
  match s.parser.scrollRegion s.lines with
  | some region => { s with scrollTop := region.1, scrollBottom := region.2 }
  | none => s

variable (checks : Bool)

def dispatchCsi (s : VgaConsole) (finalCh : Byte) : Except Fault VgaConsole :=
  let count := (s.parser.paramOr firstParam 1#32).toNat
  let col := (s.parser.paramOr firstParam 1#32).toNat - 1
  let row := (s.parser.paramOr firstParam 1#32).toNat - 1
  match csiOf finalCh with
  | .column => .ok (s.moveCursor col s.cursorY)
  | .up => .ok (s.moveCursor s.cursorX (s.cursorY - count))
  | .down => do return s.moveCursor s.cursorX (← sum checks s.cursorY count)
  | .right => do return s.moveCursor (← sum checks s.cursorX count) s.cursorY
  | .left => .ok (s.moveCursor (s.cursorX - count) s.cursorY)
  | .nextLine => do return s.moveCursor 0 (← sum checks s.cursorY count)
  | .previousLine => .ok (s.moveCursor 0 (s.cursorY - count))
  | .row => .ok (s.moveCursor s.cursorX row)
  | .position =>
    .ok (s.moveCursor ((s.parser.paramOr secondParam 1#32).toNat - 1) row)
  | .eraseDisplay => s.eraseDisplay (s.parser.paramOr firstParam 0#32).toNat
  | .eraseLine => s.eraseLine (s.parser.paramOr firstParam 0#32).toNat
  | .insertLines => s.insertLines count
  | .deleteLines => s.deleteLines count
  | .deleteChars => s.deleteChars count
  | .insertChars => s.insertChars count
  | .graphicRendition => .ok s.setGraphicRendition
  | .scrollRegion => .ok s.setScrollRegion
  | .saveCursor => .ok s.saveCursor
  | .restoreCursor => .ok s.restoreCursor
  | .unknown => .ok s

def enter (s : VgaConsole) (state : AnsiState) : VgaConsole :=
  { s with parser := { s.parser with state := state } }

def handleCsiParam (s : VgaConsole) (byte : Byte) : Except Fault VgaConsole := do
  match ← s.parser.csiParam checks byte with
  | some parser => return { s with parser := parser }
  | none => (s.enter .normal).dispatchCsi checks byte

def handleCsiEntry (s : VgaConsole) (byte : Byte) : Except Fault VgaConsole :=
  if byte = 0x3f#8 then .ok (s.enter .csiParam)
  else (s.enter .csiParam).handleCsiParam checks byte

/-- `handle_escape`, on the characters `[`, `E`, `M`, `D`, `7` and `8`. -/
def handleEscape (s : VgaConsole) (byte : Byte) : Except Fault VgaConsole :=
  let s := s.enter .normal
  if byte = 0x5b#8 then
    .ok { s with parser := { s.parser.resetParams with state := .csiEntry } }
  else if byte = 0x45#8 then .ok (s.moveCursor 0 (s.cursorY + 1))
  else if byte = 0x4d#8 then s.reverseIndex
  else if byte = 0x44#8 then s.lineFeed
  else if byte = 0x37#8 then .ok s.saveCursor
  else if byte = 0x38#8 then .ok s.restoreCursor
  else .ok s

def makeRoom (s : VgaConsole) : Except Fault VgaConsole :=
  if s.cursorX ≥ s.columns then s.wrapLine else .ok s

/-- The printable branch of `handle_normal`. -/
def printChar (s : VgaConsole) (byte : Byte) : Except Fault VgaConsole := do
  let s ← s.makeRoom
  let s := s.putChar byte
  return { s with cursorPos := s.cursorPos + 2, cursorX := s.cursorX + 1 }

/-- `handle_normal`; `bell` drives the speaker and nothing here. -/
def handleNormal (s : VgaConsole) (byte : Byte) : Except Fault VgaConsole :=
  if Control.firstPrintable ≤ byte ∧ byte ≤ Control.lastPrintable then
    s.printChar byte
  else if byte = Control.escape then .ok (s.enter .escape)
  else if byte = Control.lineFeed ∨ byte = Control.verticalTab
      ∨ byte = Control.formFeed then s.lineFeed
  else if byte = Control.carriageReturn then s.carriageReturn
  else if byte = Control.delete then s.delete
  else if byte = Control.backspace then s.backspace
  else if byte = Control.tab then s.tab
  else .ok s

def writeByte (s : VgaConsole) (byte : Byte) : Except Fault VgaConsole :=
  match s.parser.state with
  | .normal => s.handleNormal byte
  | .escape => s.handleEscape byte
  | .csiEntry => s.handleCsiEntry checks byte
  | .csiParam => s.handleCsiParam checks byte

def writeBytes : VgaConsole → List Byte → Except Fault VgaConsole
  | s, [] => .ok s
  | s, byte :: bytes => do writeBytes (← s.writeByte checks byte) bytes

-- ======== initialization

/-- `uninitialized`, over some memory contents. -/
def uninitialized (vram : Nat → Cell) : VgaConsole where
  displayType := .cga
  columns := 80
  lines := screenLines
  rowBytes := 160
  memStart := 0xb8000
  memEnd := 0xba000
  eraseCell := Vga.eraseCell
  origin := 0xb8000
  screenEnd := 0xb8000 + screenLines * 160
  cursorPos := 0xb8000
  cursorX := 0
  cursorY := 0
  scrollTop := 0
  scrollBottom := screenLines
  attr := attrNormal
  savedX := 0
  savedY := 0
  parser := AnsiParser.new
  vram := vram
  touched := []
  crtc := fun _ => 0#8

end VgaConsole

/-- The columns the BIOS reports in the high byte of the mode word. -/
def biosColumns (videoMode : BitVec 16) : Nat := (videoMode >>> 8).toNat

def detectAdapter (videoMode egaBx : BitVec 16) : DisplayType × Nat × Nat :=
  if videoMode &&& 0xff#16 = monoVideoMode then
    if egaBx &&& 0xff#16 ≠ noEgaSentinel then (.egaMonochrome, 0xb0000, 0xb8000)
    else (.mda, 0xb0000, 0xb2000)
  else
    if egaBx &&& 0xff#16 ≠ noEgaSentinel then (.egaColor, 0xb8000, 0xbc000)
    else (.cga, 0xb8000, 0xba000)

/-- `early_vga_cursor`, the column and row the boot-time logger left. -/
def earlyVgaCursor (pos : Nat) : Nat × Nat :=
  (pos % earlyVgaColumns, pos / earlyVgaColumns)

/-- The fields `detect_and_init` sets before it touches the screen. -/
def VgaConsole.detected (s : VgaConsole) (videoMode egaBx : BitVec 16) :
    VgaConsole :=
  let adapter := detectAdapter videoMode egaBx
  { s with
    columns := biosColumns videoMode
    lines := screenLines
    rowBytes := biosColumns videoMode * 2
    eraseCell := Vga.eraseCell
    displayType := adapter.1
    memStart := adapter.2.1
    memEnd := adapter.2.2
    origin := adapter.2.1
    screenEnd := adapter.2.1 + screenLines * (biosColumns videoMode * 2)
    scrollTop := 0
    scrollBottom := screenLines
    attr := attrNormal
    parser := AnsiParser.new }

/-- `detect_and_init`, on the BIOS words and the boot-time logger's
position. -/
def VgaConsole.detectAndInit (s : VgaConsole) (videoMode egaBx : BitVec 16)
    (earlyPos : Nat) : Except Fault VgaConsole := do
  let s := s.detected videoMode egaBx
  let s := s.moveCursor (earlyVgaCursor earlyPos).1 (earlyVgaCursor earlyPos).2
  let s ← s.eraseDisplay 0
  s.syncHardwareCursor

end LinuxRs.Driver.Vga
