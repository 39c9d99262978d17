/-
The editor of vi (user_program/src/bin/vi/main.rs): what each key does in
each mode.

# Keys and commands

`Reader` gives only printable ASCII as `Char`, so `Key.char` carries that.
Normal mode first tells which command a key is (`Key.command`), then runs
it; the match of the source does both at once.

# What is left out

The screen and its viewport, which no edit reads, and the text of the last
insert, which nothing reads.
-/
import LinuxRs.Vi.Ex

namespace LinuxRs.Vi

-- ======== keys

/-- A byte that `Reader` takes for a printable one. -/
def isPrintable (b : Byte) : Bool := 0x20#8 ≤ b && b ≤ 0x7e#8

abbrev Printable := { b : Byte // isPrintable b = true }

inductive Key where
  | char (b : Printable)
  | ctrl (b : Byte)
  | enter
  | backspace
  | tab
  | esc
  | up
  | down
  | left
  | right
  | home
  | «end»
  | pageUp
  | pageDown
  | delete
  | unknown (b : Byte)
  deriving DecidableEq

namespace Key

/-- `Reader::next`, of a byte with nothing behind it. -/
def ofByte (b : Byte) : Key :=
  if b = 0x0d#8 ∨ b = 0x0a#8 then .enter
  else if b = 0x09#8 then .tab
  else if b = 0x7f#8 ∨ b = 0x08#8 then .backspace
  else if b = 0x1b#8 then .esc
  else if 0x01#8 ≤ b ∧ b ≤ 0x1a#8 then .ctrl (b + chr 'a' - 1#8)
  else if h : isPrintable b then .char ⟨b, h⟩
  else .unknown b

def isChar (key : Key) (c : Char) : Bool :=
  match key with
  | .char b => b.val = chr c
  | _ => false

end Key

def typed (s : String) : List Key := (ascii s).map Key.ofByte

-- ======== the commands

inductive Operator where
  | d
  | y
  | c
  | Z
  deriving DecidableEq

inductive FindVerb where
  | f
  | F
  | t
  | T

inductive CommandKind where
  | ex
  | searchForward
  | searchBackward
  deriving DecidableEq

inductive Command where
  | left
  | right
  | up
  | down
  | wordNext
  | wordBack
  | wordEnd
  | lineStart
  | firstNonBlank
  | lineEnd
  | gPrefix
  | goLine
  | matchingBracket
  | find (verb : FindVerb)
  | pageDown
  | pageUp
  | insert
  | insertNonBlank
  | append
  | appendEnd
  | openBelow
  | openAbove
  | deleteChar
  | backspaceChar
  | replaceOne
  | deleteToEol
  | joinLines
  | operator (op : Operator)
  | pasteAfter
  | pasteBefore
  | undo
  | line (kind : CommandKind)
  | searchNext
  | searchPrev
  | redraw

def charCommands : List (Char × Command) :=
  [('h', .left), ('l', .right), (' ', .right), ('k', .up), ('j', .down),
    ('w', .wordNext), ('b', .wordBack), ('e', .wordEnd), ('0', .lineStart),
    ('^', .firstNonBlank), ('$', .lineEnd), ('g', .gPrefix), ('G', .goLine),
    ('%', .matchingBracket), ('f', .find .f), ('F', .find .F),
    ('t', .find .t), ('T', .find .T), ('i', .insert), ('I', .insertNonBlank),
    ('a', .append), ('A', .appendEnd), ('o', .openBelow), ('O', .openAbove),
    ('x', .deleteChar), ('X', .backspaceChar), ('r', .replaceOne),
    ('D', .deleteToEol), ('J', .joinLines), ('d', .operator .d),
    ('y', .operator .y), ('c', .operator .c), ('Z', .operator .Z),
    ('p', .pasteAfter), ('P', .pasteBefore), ('u', .undo), (':', .line .ex),
    ('/', .line .searchForward), ('?', .line .searchBackward),
    ('n', .searchNext), ('N', .searchPrev)]

def Key.command : Key → Option Command
  | .char b => (charCommands.find? fun e => chr e.1 = b.val).map (·.2)
  | .ctrl b =>
    if b = chr 'f' then some .pageDown
    else if b = chr 'b' then some .pageUp
    else if b = chr 'l' then some .redraw
    else none
  | .left => some .left
  | .backspace => some .left
  | .right => some .right
  | .up => some .up
  | .down => some .down
  | .enter => some .down
  | .home => some .firstNonBlank
  | .end => some .lineEnd
  | .pageDown => some .pageDown
  | .pageUp => some .pageUp
  | .tab => none
  | .esc => none
  | .delete => none
  | .unknown _ => none

-- ======== the editor

inductive Mode where
  | normal
  | insert
  | replaceOne
  | commandLine (kind : CommandKind)
  deriving DecidableEq

/-- The editor between two keys. -/
structure Editor (ρ : Type) where
  buffer : Buffer
  mode : Mode
  /-- The line that is typed after `:`, `/` or `?`. -/
  cmdline : List Printable
  undo : Undo
  search : Search ρ
  /-- Last-yanked text; a newline at its end marks it as lines. -/
  register : Text
  status : Text
  showNumbers : Bool
  count : Nat
  pendingOp : Option Operator
  gPrefix : Bool
  pendingFind : Option FindVerb

inductive Outcome (ρ : Type) where
  | running (ed : Editor ρ)
  | left (code : Int)

def textRows : Nat := 23

namespace Editor

variable {ρ : Type}

def start (b : Buffer) : Editor ρ where
  buffer := b
  mode := .normal
  cmdline := []
  undo := Undo.new
  search := Search.new
  register := []
  status :=
    if b.newFile then ascii "\"" ++ b.displayName ++ ascii "\" [new file]"
    else ascii "\"" ++ b.displayName ++ ascii "\" " ++ decimal b.lines.length
      ++ ascii "L"
  showNumbers := false
  count := 0
  pendingOp := none
  gPrefix := false
  pendingFind := none

def withBuffer (ed : Editor ρ) (b : Buffer) : Editor ρ :=
  { ed with buffer := b }

def edit (ed : Editor ρ) (f : Buffer → Option Buffer) : Option (Editor ρ) :=
  (f ed.buffer).map ed.withBuffer

def snapshot (ed : Editor ρ) : Editor ρ :=
  { ed with undo := ed.undo.snapshot ed.buffer }

def enterInsert (ed : Editor ρ) : Editor ρ :=
  { ed with mode := .insert }.snapshot

def take (ed : Editor ρ) (f : Buffer → Option (Text × Buffer)) :
    Option (Editor ρ) :=
  (f ed.buffer).map fun r => { ed with register := r.1, buffer := r.2 }

def takeLine (ed : Editor ρ) (f : Buffer → Option (Text × Buffer)) :
    Option (Editor ρ) :=
  ed.take fun b => (f b).map fun r => (r.1 ++ [0x0a#8], r.2)

-- ======== the helpers

/-- A byte is its target: `t` stops before it, `T` behind it. -/
def findTarget (verb : FindVerb) (b : Buffer) (target : Byte) :
    Option (Bool × Buffer) :=
  match verb with
  | .f => Motion.findForward b target
  | .F => Motion.findBackward b target
  | .t => (Motion.findForward b target).map fun r =>
    (r.1, if r.1 ∧ 0 < r.2.col then { r.2 with col := r.2.col - 1 }
      else r.2)
  | .T => (Motion.findBackward b target).map fun r =>
    (r.1, if r.1 then { r.2 with col := r.2.col + 1 } else r.2)

def executeFind (ed : Editor ρ) (verb : FindVerb) (target : Byte) :
    Option (Editor ρ) := do
  let (moved, b) ← findTarget verb ed.buffer target
  let ed := ed.withBuffer b
  some (if moved then ed
    else { ed with
      status := charOf target ++ ascii " not found on this line" })

/-- `execute_operator`: the result of the `wq` of `ZZ` is not looked at. -/
def executeOperator (lib : RegexLib ρ) (io : Io) (ed : Editor ρ)
    (op : Operator) (key : Key) : Option (Editor ρ) :=
  if op = .d ∧ key.isChar 'd' then ed.snapshot.takeLine Buffer.deleteLine
  else if op = .y ∧ key.isChar 'y' then
    some { ed with register := Edit.yankLine ed.buffer ++ [0x0a#8] }
  else if op = .d ∧ key.isChar 'w' then ed.snapshot.take Edit.deleteWord
  else if op = .c ∧ key.isChar 'w' then
    (ed.snapshot.take Edit.deleteWord).map enterInsert
  else if op = .c ∧ key.isChar 'c' then
    (ed.snapshot.takeLine Buffer.clearCurrentLine).map enterInsert
  else if op = .c ∧ key.isChar '$' then
    (ed.snapshot.take Edit.deleteToEol).map enterInsert
  else if op = .Z ∧ key.isChar 'Z' then
    (Ex.dispatch lib io (ascii "wq") ed.buffer ed.showNumbers).map fun r =>
      { ed with
        buffer := r.2.1, showNumbers := r.2.2, status := ascii "ZZ" }
  else some ed

/-- `a`: one column on, but not past the end of the line. -/
def appendBuffer (b : Buffer) : Option Buffer := do
  let line ← b.current
  { b with col := if line = [] then b.col else b.col + 1 }.clampCol true

/-- The buffer for `A`: behind the last byte of the line. -/
def appendEndBuffer (b : Buffer) : Option Buffer := do
  let line ← b.current
  some { b with col := line.length }

/-- `G`: to the line of its count, or to the last one. -/
def goLine (count : Nat) (explicit : Bool) (b : Buffer) : Option Buffer :=
  if explicit then
    some { b with row := min (count - 1) (b.lines.length - 1), col := 0 }
  else Motion.bufEnd b

def searched (ed : Editor ρ) (result : Option (Bool × Buffer)) :
    Option (Editor ρ) :=
  result.map fun r =>
    if r.1 then ed.withBuffer r.2
    else { ed.withBuffer r.2 with status := ascii "pattern not found" }

def paste (ed : Editor ρ) (f : Buffer → Text → Option Buffer) :
    Option (Editor ρ) :=
  if ed.register = [] then some ed
  else ed.snapshot.edit (f · ed.register)

def undoOne (ed : Editor ρ) : Editor ρ :=
  match ed.undo.popInto ed.buffer with
  | (true, undo, b) => { ed with undo := undo, buffer := b }
  | (false, undo, b) =>
    { ed with
      undo := undo, buffer := b
      status := ascii "already at oldest change" }

-- ======== normal mode

def runCommand (lib : RegexLib ρ) (ed : Editor ρ) (count : Nat)
    (explicit : Bool) : Command → Option (Editor ρ)
  | .left => ed.edit (times (fun b => some (Motion.left b)) count)
  | .right => ed.edit (times Motion.right count)
  | .up => ed.edit (times Motion.up count)
  | .down => ed.edit (times Motion.down count)
  | .wordNext => ed.edit (times (fun b => some (Motion.wordNext b)) count)
  | .wordBack => ed.edit (times (fun b => some (Motion.wordBack b)) count)
  | .wordEnd => ed.edit (times (fun b => some (Motion.wordEnd b)) count)
  | .lineStart => some (ed.withBuffer (Motion.lineStart ed.buffer))
  | .firstNonBlank => ed.edit Motion.firstNonBlank
  | .lineEnd => ed.edit Motion.lineEnd
  | .gPrefix => some { ed with gPrefix := true }
  | .goLine => ed.edit (goLine count explicit)
  | .matchingBracket => ed.edit Motion.matchingBracket
  | .find verb => some { ed with pendingFind := some verb }
  | .pageDown => ed.edit (times (times Motion.down textRows) count)
  | .pageUp => ed.edit (times (times Motion.up textRows) count)
  | .insert => some ed.enterInsert
  | .insertNonBlank => (ed.edit Motion.firstNonBlank).map enterInsert
  | .append => (ed.edit appendBuffer).map enterInsert
  | .appendEnd => (ed.edit appendEndBuffer).map enterInsert
  | .openBelow => ({ ed.snapshot with mode := .insert }).edit Buffer.openBelow
  | .openAbove => ({ ed.snapshot with mode := .insert }).edit Buffer.openAbove
  | .deleteChar =>
    ed.snapshot.edit (times (fun b => (Edit.deleteChar b).map (·.2)) count)
  | .backspaceChar =>
    ed.snapshot.edit (times (fun b => (Edit.backspaceChar b).map (·.2)) count)
  | .replaceOne => some { ed with mode := .replaceOne }
  | .deleteToEol => ed.snapshot.take Edit.deleteToEol
  | .joinLines => ed.snapshot.edit (times Edit.joinLines count)
  | .operator op => some { ed with pendingOp := some op }
  | .pasteAfter => ed.paste Edit.pasteAfter
  | .pasteBefore => ed.paste Edit.pasteBefore
  | .undo => some ed.undoOne
  | .line kind => some { ed with mode := .commandLine kind, cmdline := [] }
  | .searchNext => ed.searched (ed.search.findNext lib ed.buffer)
  | .searchPrev => ed.searched (ed.search.findPrev lib ed.buffer)
  | .redraw => some ed

def countDigit (count : Nat) (b : Byte) : Nat :=
  (min (count * 10) Ex.usizeMax + Ex.digitValue b) % (Ex.usizeMax + 1)

/-- Does a key go on with a count; a leading `0` is a motion. -/
def digitOf (count : Nat) : Key → Option Byte
  | .char b =>
    if Ex.isDigit b.val ∧ ¬ (b.val = chr '0' ∧ count = 0) then some b.val
    else none
  | _ => none

/-- `handle_normal` from the second `g` on. -/
def handleVerb (lib : RegexLib ρ) (io : Io) (ed : Editor ρ) (key : Key) :
    Option (Editor ρ) :=
  if ed.gPrefix ∧ key.isChar 'g' then
    { ed with gPrefix := false, count := 0 }.edit Motion.bufStart
  else
    let count := ed.count
    let ed := { ed with gPrefix := false, count := 0 }
    match ed.pendingOp with
    | some op => executeOperator lib io { ed with pendingOp := none } op key
    | none =>
      match key.command with
      | some cmd => runCommand lib ed (max count 1) (decide (0 < count)) cmd
      | none => some ed

/-- `handle_normal`; no key of normal mode leaves the editor. -/
def handleNormal (lib : RegexLib ρ) (io : Io) (ed : Editor ρ) (key : Key) :
    Option (Editor ρ) :=
  match ed.pendingFind with
  | some verb =>
    let ed := { ed with pendingFind := none, count := 0 }
    match key with
    | .char b => executeFind ed verb b.val
    | _ => some ed
  | none =>
    match digitOf ed.count key with
    | some b => some { ed with count := countDigit ed.count b }
    | none => handleVerb lib io ed key

-- ======== the other modes

/-- Right in insert mode: the cursor may stand behind the last byte. -/
def insertRight (b : Buffer) : Option Buffer := do
  let line ← b.current
  some (if b.col < line.length then { b with col := b.col + 1 } else b)

def insertUp (b : Buffer) : Option Buffer :=
  if 0 < b.row then { b with row := b.row - 1 }.clampCol true else some b

def insertDown (b : Buffer) : Option Buffer :=
  if b.row + 1 < b.lines.length then
    { b with row := b.row + 1 }.clampCol true
  else some b

def handleInsert (ed : Editor ρ) (key : Key) : Option (Editor ρ) :=
  match key with
  | .esc => { ed with mode := .normal }.edit (Buffer.clampCol · false)
  | .enter => ed.edit Buffer.splitLine
  | .backspace => ed.edit Buffer.backspace
  | .char b => ed.edit (Buffer.insertByte · b.val)
  | .tab => ed.edit (Buffer.insertByte · (chr '\t'))
  | .left => some (ed.withBuffer (Motion.left ed.buffer))
  | .right => ed.edit insertRight
  | .up => ed.edit insertUp
  | .down => ed.edit insertDown
  | .ctrl b => if b = chr 'w' then ed.edit Edit.dropWordLeft else some ed
  | _ => some ed

def handleReplace (ed : Editor ρ) (key : Key) : Option (Editor ρ) :=
  match key with
  | .char b =>
    { ed.snapshot with mode := .normal }.edit (Buffer.replaceAtCursor · b.val)
  | _ => some { ed with mode := .normal }

def typedLine (ed : Editor ρ) : Text := ed.cmdline.map (·.val)

def say (ed : Editor ρ) (message : Option Text) : Editor ρ :=
  { ed with status := message.getD ed.status }

def finishEx (ed : Editor ρ) : ExResult → Outcome ρ
  | .continuing message => .running (ed.say message)
  | .quit code => .left code
  | .replace b message =>
    .running ({ ed with buffer := b, undo := Undo.new }.say message)

def enterEx (lib : RegexLib ρ) (io : Io) (ed : Editor ρ) :
    Option (Outcome ρ) := do
  let (result, b, showNumbers) ←
    Ex.dispatch lib io ed.typedLine ed.buffer ed.showNumbers
  some (finishEx { ed with
    mode := .normal, cmdline := [], buffer := b
    showNumbers := showNumbers } result)

def enterSearch (lib : RegexLib ρ) (ed : Editor ρ) (forward : Bool) :
    Option (Editor ρ) :=
  let line := ed.typedLine
  let ed := { ed with mode := .normal, cmdline := [] }
  match Search.set lib line forward with
  | .error err => some { ed with status := err }
  | .ok search =>
    { ed with search := search }.searched (search.findFirst lib ed.buffer)

def handleCmdline (lib : RegexLib ρ) (io : Io) (ed : Editor ρ) (key : Key)
    (kind : CommandKind) : Option (Outcome ρ) :=
  match key with
  | .enter =>
    match kind with
    | .ex => enterEx lib io ed
    | .searchForward => (enterSearch lib ed true).map .running
    | .searchBackward => (enterSearch lib ed false).map .running
  | .esc => some (.running { ed with cmdline := [], mode := .normal })
  | .backspace =>
    some (.running (if ed.cmdline = [] then { ed with mode := .normal }
      else { ed with cmdline := ed.cmdline.dropLast }))
  | .char b => some (.running { ed with cmdline := ed.cmdline ++ [b] })
  | _ => some (.running ed)

-- ======== the main loop

/-- The frame is drawn: the status was shown, unless a line is typed. -/
def draw (ed : Editor ρ) : Editor ρ :=
  match ed.mode with
  | .commandLine _ => ed
  | _ => { ed with status := [] }

def step (lib : RegexLib ρ) (io : Io) (ed : Editor ρ) (key : Key) :
    Option (Outcome ρ) :=
  match ed.draw.mode with
  | .normal => (handleNormal lib io ed.draw key).map .running
  | .insert => (handleInsert ed.draw key).map .running
  | .replaceOne => (handleReplace ed.draw key).map .running
  | .commandLine kind => handleCmdline lib io ed.draw key kind

/-- `run` over keys, each with what the files answer while it is handled;
a panic gives `none`. -/
def run (lib : RegexLib ρ) (ed : Editor ρ) :
    List (Io × Key) → Option (Outcome ρ)
  | [] => some (.running ed)
  | (io, key) :: rest =>
    (step lib io ed key).bind fun
      | .running ed => run lib ed rest
      | .left code => some (.left code)

end Editor

end LinuxRs.Vi
