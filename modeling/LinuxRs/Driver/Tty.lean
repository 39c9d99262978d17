/-
A terminal: its queues, `termios` state and line discipline
(kernel/src/driver/character/tty).

# The flow of input

Received bytes are pushed on `rawInput`, the line discipline moves them
to `cookedInput` as long as that has room, and a read drains it. Echo and
rub-out go to `output`.

# The steps

A step is one call: bytes received by an interrupt with the discipline
run that follows, the draining part of a read that need not sleep, the
flush and `termios` requests, and the backend taking output.
-/
import LinuxRs.Driver.TtyRing

namespace LinuxRs.Driver

-- ======== termios

def hasFlag (mode flag : BitVec 32) : Bool := mode &&& flag = flag

/-- The slots of the control-character table that the terminal reads. -/
inductive ControlChar
  | intr
  | quit
  | erase
  | kill
  | eof
  | start
  | stop

def ControlChar.index : ControlChar → Nat
  | .intr => 0
  | .quit => 1
  | .erase => 2
  | .kill => 3
  | .eof => 4
  | .start => 8
  | .stop => 9

structure Termios where
  inputMode : BitVec 32
  localMode : BitVec 32
  controlChars : Nat → BitVec 8

/-- `Termio`, the part that ends up in `Termios`. -/
structure Termio where
  inputMode : BitVec 16
  localMode : BitVec 16
  controlChars : Nat → BitVec 8

def ncc : Nat := 8

namespace Termios

def controlChar (t : Termios) (cc : ControlChar) : BitVec 8 :=
  t.controlChars cc.index

def lowHalf (mode : BitVec 32) (low : BitVec 16) : BitVec 32 :=
  (mode &&& ~~~0xffff#32) ||| low.setWidth 32

def applyTermio (t : Termios) (termio : Termio) : Termios where
  inputMode := lowHalf t.inputMode termio.inputMode
  localMode := lowHalf t.localMode termio.localMode
  controlChars i := if i < ncc then termio.controlChars i else t.controlChars i

end Termios

-- ======== the state

/-- A terminal's settings and its queues. -/
structure TtyState where
  termios : Termios
  foregroundGroup : BitVec 32
  stopped : Bool
  rawInput : RingBuffer
  cookedInput : RingBuffer
  output : RingBuffer
  pendingLines : Nat
  outputCrPending : Bool

inductive TtySignal
  | int
  | quit

def readCanonicalLowWater : Nat := 20

def newline : BitVec 8 := 10#8

def carriageReturn : BitVec 8 := 13#8

def backspace : BitVec 8 := 8#8

def delete : BitVec 8 := 0x7f#8

def toAsciiLowercase (byte : BitVec 8) : BitVec 8 :=
  if 65#8 ≤ byte ∧ byte ≤ 90#8 then byte + 32#8 else byte

def boundary (eof byte : BitVec 8) : Bool := byte = newline ∨ byte = eof

namespace TtyState

def isCanonical (s : TtyState) : Bool := hasFlag s.termios.localMode 0o2#32

def eof (s : TtyState) : BitVec 8 := s.termios.controlChar .eof

def hasReadableData (s : TtyState) : Bool :=
  if s.isCanonical then
    0 < s.pendingLines ∨ s.cookedInput.remaining ≤ readCanonicalLowWater
  else !s.cookedInput.isEmpty

def isLineBoundary (s : TtyState) (byte : BitVec 8) : Bool :=
  boundary s.eof byte

def pushOutput (s : TtyState) (byte : BitVec 8) : TtyState :=
  { s with output := s.output.push byte }

-- ======== the line discipline

def mapInput (s : TtyState) (byte : BitVec 8) : Option (BitVec 8) :=
  let mode := s.termios.inputMode
  let byte := if hasFlag mode 0o40#32 then byte &&& 0x7f#8 else byte
  if byte = carriageReturn ∧ hasFlag mode 0o200#32 then none
  else
    let byte :=
      if byte = carriageReturn ∧ hasFlag mode 0o400#32 then newline
      else if byte = newline ∧ hasFlag mode 0o100#32 then carriageReturn
      else byte
    some (if hasFlag mode 0o1000#32 then toAsciiLowercase byte else byte)

/-- `handle_flow_control`, with the flush it asks for; `none` is a byte
that was not consumed. -/
def handleFlowControl (s : TtyState) (byte : BitVec 8) :
    Option (TtyState × Bool) :=
  if byte = s.termios.controlChar .stop then
    some ({ s with stopped := true }, false)
  else if byte = s.termios.controlChar .start then
    some ({ s with stopped := false }, true)
  else none

/-- `handle_signal`: the signal for the foreground group. -/
def handleSignal (s : TtyState) (byte : BitVec 8) : Option TtySignal :=
  if byte = s.termios.controlChar .intr then some .int
  else if byte = s.termios.controlChar .quit then some .quit
  else none

def isControl (byte : BitVec 8) : Bool := byte < 0x20#8

def echoedAsCaret (byte : BitVec 8) : Bool := isControl byte || byte = delete

def pushEraseSequence (s : TtyState) : TtyState :=
  ((s.pushOutput backspace).pushOutput 32#8).pushOutput backspace

/-- `echo_erase`, with the flush it asks for. -/
def echoErase (s : TtyState) (erased : BitVec 8) : TtyState × Bool :=
  if hasFlag s.termios.localMode 0o10#32 = false then (s, false)
  else if hasFlag s.termios.localMode 0o20#32 then
    if echoedAsCaret erased then
      (s.pushEraseSequence.pushEraseSequence, true)
    else (s.pushEraseSequence, true)
  else (s.pushOutput backspace, true)

/-- `erase_last`; `none` is the start of the line. -/
def eraseLast (s : TtyState) : Option (TtyState × Bool) :=
  match s.cookedInput.last with
  | none => none
  | some last =>
    if s.isLineBoundary last then none
    else
      let r := s.echoErase last
      some ({ r.1 with cookedInput := r.1.cookedInput.popLast }, r.2)

/-- The loop of KILL; the queue is at most `fuel` bytes long. -/
def eraseLine : Nat → TtyState → TtyState × Bool
  | 0, s => (s, false)
  | fuel + 1, s =>
    match s.eraseLast with
    | none => (s, false)
    | some (s, echoed) =>
      let r := eraseLine fuel s
      (r.1, echoed || r.2)

def isBackspaceAlias (byte erase : BitVec 8) : Bool :=
  (erase = 0x7f#8 ∧ byte = 8#8) ∨ (erase = 8#8 ∧ byte = 0x7f#8)

/-- `handle_editing`, with the flush it asks for; `none` is a byte that was
not consumed. -/
def handleEditing (s : TtyState) (byte : BitVec 8) :
    Option (TtyState × Bool) :=
  let erase := s.termios.controlChar .erase
  if byte = s.termios.controlChar .kill then
    some (eraseLine s.cookedInput.len s)
  else if byte = erase ∨ isBackspaceAlias byte erase then
    match s.eraseLast with
    | none => some (s, false)
    | some r => some r
  else none

def echo (s : TtyState) (byte : BitVec 8) : TtyState × Bool :=
  if byte = newline then
    ((s.pushOutput newline).pushOutput carriageReturn, true)
  else if isControl byte then
    if hasFlag s.termios.localMode 0o1000#32 then
      ((s.pushOutput 94#8).pushOutput (byte + 64#8), true)
    else (s, false)
  else (s.pushOutput byte, true)

def accept (s : TtyState) (byte : BitVec 8) : TtyState × Bool :=
  let s := if s.isLineBoundary byte then
    { s with pendingLines := s.pendingLines + 1 } else s
  let r := if hasFlag s.termios.localMode 0o10#32 then s.echo byte
    else (s, false)
  ({ r.1 with cookedInput := r.1.cookedInput.push byte }, r.2)

/-- The handlers after the input mapping, in the order in which they are
asked. -/
def dispatch (s : TtyState) (byte : BitVec 8) :
    TtyState × Bool × List TtySignal :=
  match (if s.isCanonical then s.handleFlowControl byte else none) with
  | some (s, flush) => (s, flush, [])
  | none =>
    match (if hasFlag s.termios.localMode 0o1#32 then s.handleSignal byte
      else none) with
    | some signal => (s, false, [signal])
    | none =>
      match (if s.isCanonical then s.handleEditing byte else none) with
      | some (s, flush) => (s, flush, [])
      | none => ((s.accept byte).1, (s.accept byte).2, [])

/-- One turn of the loop of `process_raw_input`. -/
def processByte (s : TtyState) (raw : BitVec 8) :
    TtyState × Bool × List TtySignal :=
  match s.mapInput raw with
  | none => (s, false, [])
  | some byte => s.dispatch byte

/-- The loop of `process_raw_input`, which takes a raw byte on every turn:
its state, whether output is to be flushed, and the signals sent to the
foreground group. -/
def processLoop : Nat → TtyState → TtyState × Bool × List TtySignal
  | 0, s => (s, false, [])
  | fuel + 1, s =>
    if s.cookedInput.isFull then (s, false, [])
    else
      match s.rawInput.pop with
      | none => (s, false, [])
      | some (raw, rest) =>
        let turn := ({ s with rawInput := rest } : TtyState).processByte raw
        let r := processLoop fuel turn.1
        (r.1, turn.2.1 || r.2.1, turn.2.2 ++ r.2.2)

def processRawInput (s : TtyState) : TtyState × Bool × List TtySignal :=
  processLoop s.rawInput.len s

-- ======== calls

/-- The state part of `TtyDevice::receive_input`. -/
def receiveInput (s : TtyState) (bytes : List (BitVec 8)) :
    TtyState × Bool × List TtySignal :=
  processRawInput { s with rawInput := bytes.foldl RingBuffer.push s.rawInput }

def takeCooked (s : TtyState) (byte : BitVec 8) (rest : RingBuffer) :
    TtyState :=
  { s with
    cookedInput := rest
    pendingLines :=
      if s.isLineBoundary byte ∧ 0 < s.pendingLines then s.pendingLines - 1
      else s.pendingLines }

/-- `TtyState::drain_cooked` into a buffer with room for `room` bytes. -/
def drainCooked : Nat → TtyState → TtyState × List (BitVec 8)
  | 0, s => (s, [])
  | room + 1, s =>
    match s.cookedInput.pop with
    | none => (s, [])
    | some (byte, rest) =>
      if s.isCanonical ∧ byte = s.eof then (s.takeCooked byte rest, [])
      else
        let r := drainCooked room (s.takeCooked byte rest)
        (r.1, byte :: r.2)

def flushInput (s : TtyState) : TtyState :=
  { s with
    rawInput := s.rawInput.clear
    cookedInput := s.cookedInput.clear
    pendingLines := 0 }

def flushOutput (s : TtyState) : TtyState :=
  { s with output := s.output.clear, outputCrPending := false }

def takeLoop : Nat → RingBuffer → RingBuffer
  | 0, r => r
  | n + 1, r =>
    match r.pop with
    | none => r
    | some (_, r) => takeLoop n r

def takeOutput (s : TtyState) (room : Nat) : TtyState :=
  if s.stopped then s else { s with output := takeLoop room s.output }

end TtyState

inductive FlushSelector
  | input
  | output
  | both

/-- What reaches a terminal: bytes of the line, reads and ioctls. -/
inductive TtyOp
  | receive (bytes : List (BitVec 8))
  | read (room : Nat)
  | flush (selector : FlushSelector)
  | setTermios (termios : Termios)
  | setTermiosFlush (termios : Termios)
  | setTermio (termio : Termio)
  | setTermioFlush (termio : Termio)
  | takeOutput (room : Nat)

def TtyState.step (s : TtyState) : TtyOp → Option TtyState
  | .receive bytes => some (s.receiveInput bytes).1
  | .read room =>
    if room = 0 then some s
    else if s.hasReadableData then some (s.drainCooked room).1
    else none
  | .flush .input => some s.flushInput
  | .flush .output => some s.flushOutput
  | .flush .both => some s.flushInput.flushOutput
  | .setTermios termios => some { s with termios := termios }
  | .setTermiosFlush termios => some { s.flushInput with termios := termios }
  | .setTermio termio =>
    some { s with termios := s.termios.applyTermio termio }
  | .setTermioFlush termio =>
    some { s.flushInput with termios := s.termios.applyTermio termio }
  | .takeOutput room => some (s.takeOutput room)

end LinuxRs.Driver
