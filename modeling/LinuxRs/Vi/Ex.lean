/-
The ex commands of vi (user_program/src/bin/vi/ex.rs).

# The line

It was typed, so it is printable ASCII; `usize` has 32 bits here.

# Results

Writing gives the same kind of result for a success and for a failure, a
message for the status line.
-/
import LinuxRs.Vi.Search

namespace LinuxRs.Vi

inductive ExResult where
  /-- Go on editing, maybe with a message. -/
  | continuing (message : Option Text)
  /-- Leave the editor. -/
  | quit (code : Int)
  /-- Another buffer instead of the one edited. -/
  | replace (buffer : Buffer) (message : Option Text)

namespace Ex

variable {ρ : Type}

-- ======== the parsing

def isDigit (b : Byte) : Bool := chr '0' ≤ b && b ≤ chr '9'

def digitValue (b : Byte) : Nat := b.toNat - (chr '0').toNat

def usizeMax : Nat := 4294967295

def parseUsize (s : Text) : Option Nat :=
  let digits := if s.head? = some (chr '+') then s.tail else s
  if digits ≠ [] ∧ digits.all isDigit then
    let n := digits.foldl (fun n b => n * 10 + digitValue b) 0
    if n ≤ usizeMax then some n else none
  else none

def splitVerb (line : Text) : Text × Text :=
  if (ascii "q!").isPrefixOf line then (ascii "q!", line.drop 2)
  else line.span fun b => !Motion.isBlank b

/-- `split_unescaped`, with the part that is being read. -/
def splitUnescaped (sep : Byte) : Text → Text → List Text
  | [], cur => [cur]
  | [c], cur => if c = sep then [cur, []] else [cur ++ [c]]
  | c :: d :: rest, cur =>
    if c = chr '\x5c' ∧ d = sep then
      splitUnescaped sep rest (cur ++ [sep])
    else if c = sep then cur :: splitUnescaped sep (d :: rest) []
    else splitUnescaped sep (d :: rest) (cur ++ [c])

structure Substitution where
  globalLines : Bool
  pattern : Text
  replacement : Text
  globalInLine : Bool

/-- Does `dispatch` take a line for a substitution. -/
def isSubstitution (line : Text) : Bool :=
  (ascii "s/").isPrefixOf line || (ascii "%s/").isPrefixOf line

def parseSubstitution (line : Text) : Option Substitution :=
  let globalLines := (ascii "%s/").isPrefixOf line
  let body := if globalLines then line.drop 3 else line.drop 2
  match splitUnescaped (chr '/') body [] with
  | pattern :: replacement :: more =>
    some ⟨globalLines, pattern, replacement,
      (more.headD []).contains (chr 'g')⟩
  | _ => none

-- ======== the commands

def writeMessage (result : Except Text Nat) (b : Buffer) : Text :=
  match result with
  | .ok bytes =>
    ascii "\"" ++ b.displayName ++ ascii "\" " ++ decimal b.lines.length
      ++ ascii "L, " ++ decimal bytes ++ ascii "B written"
  | .error err => ascii "write failed: " ++ err

/-- The save of `write`: to the path of the buffer, or to the argument. -/
def saveTo (io : Io) (b : Buffer) (arg : Text) : Except Text Nat × Buffer :=
  if arg = [] then b.save io else b.saveAs io arg

def write (io : Io) (b : Buffer) (arg : Text) : ExResult × Buffer :=
  let (result, b) := saveTo io b arg
  (.continuing (some (writeMessage result b)), b)

def quit (b : Buffer) (force : Bool) : ExResult :=
  if b.dirty ∧ force = false then
    .continuing (some (ascii "no write since last change (add ! to override)"))
  else .quit 0

def writeQuit (io : Io) (b : Buffer) (arg : Text) : ExResult × Buffer :=
  match write io b arg with
  | (.continuing _, b) => (.quit 0, b)
  | (other, b) => (other, b)

def edit (io : Io) (arg : Text) : ExResult :=
  if arg = [] then .continuing (some (ascii "usage: :e PATH"))
  else
    match Buffer.load io arg with
    | .ok b =>
      .replace b (some (if b.newFile then
        ascii "\"" ++ arg ++ ascii "\" [new file]"
      else ascii "\"" ++ arg ++ ascii "\" " ++ decimal b.lines.length
        ++ ascii "L"))
    | .error err =>
      .continuing (some (ascii "can't open " ++ arg ++ ascii ": " ++ err))

def readInto (io : Io) (b : Buffer) (arg : Text) :
    Option (ExResult × Buffer) :=
  if arg = [] then
    some (.continuing (some (ascii "usage: :r PATH")), b)
  else
    match io.read arg with
    | .error err =>
      some (.continuing (some
        (ascii "can't read " ++ arg ++ ascii ": " ++ err.text)), b)
    | .ok text => do
        let lines ← Edit.insertLines (b.row + 1) (textLines text) b.lines
        some (.continuing (some (ascii "\"" ++ arg ++ ascii "\" "
              ++ decimal (textLines text).length ++ ascii "L read")),
          { b with lines := lines, dirty := true })

def setOption (arg : Text) (showNumbers : Bool) : ExResult × Bool :=
  if arg = ascii "nu" ∨ arg = ascii "number" then (.continuing none, true)
  else if arg = ascii "nonu" ∨ arg = ascii "nonumber" then
    (.continuing none, false)
  else (.continuing (some (ascii "unknown option: " ++ arg)), showNumbers)

def rewrite (lib : RegexLib ρ) (re : ρ) (s : Substitution) (line : Text) :
    Text :=
  if s.globalInLine then lib.replaceAll re line s.replacement
  else lib.replaceOne re line s.replacement

def substitutions (lib : RegexLib ρ) (re : ρ) (s : Substitution)
    (line : Text) : Nat :=
  if s.globalInLine then (lib.findIter re line).length else 1

/-- The loop of `substitute` over its rows, with its count. -/
def substituteRows (lib : RegexLib ρ) (re : ρ) (s : Substitution) :
    List Nat → Nat × Buffer → Option (Nat × Buffer)
  | [], state => some state
  | r :: rest, (count, b) => do
      let line ← b.lines[r]?
      let new := rewrite lib re s line
      if new = line then substituteRows lib re s rest (count, b)
      else
        substituteRows lib re s rest (count + substitutions lib re s line,
            { b with lines := b.lines.set r new, dirty := true })

def substitute (lib : RegexLib ρ) (line : Text) (b : Buffer) :
    Option (ExResult × Buffer) :=
  match parseSubstitution line with
  | none =>
    some (.continuing (some (ascii "usage: :s/pattern/replacement/[g]")), b)
  | some s =>
    match lib.compile s.pattern with
    | .error err =>
      some (.continuing (some (ascii "bad pattern: " ++ err)), b)
    | .ok re => do
        let rows := if s.globalLines then List.range b.lines.length
          else [b.row]
        let (count, b) ← substituteRows lib re s rows (0, b)
        some (.continuing (some (decimal count ++ ascii " substitutions")), b)

def helpLine : Text :=
  ascii ("h/j/k/l move | i insert | x del | dd cut | yy/p copy/paste | "
    ++ "u undo | /pat search | :w :q :wq")

def runVerb (io : Io) (verb arg : Text) (b : Buffer) (showNumbers : Bool) :
    Option (ExResult × Buffer × Bool) :=
  if verb = ascii "w" then
    let (result, b) := write io b arg
    some (result, b, showNumbers)
  else if verb = ascii "q" then some (quit b false, b, showNumbers)
  else if verb = ascii "q!" then some (quit b true, b, showNumbers)
  else if verb = ascii "wq" ∨ verb = ascii "x" then
    let (result, b) := writeQuit io b arg
    some (result, b, showNumbers)
  else if verb = ascii "e" then some (edit io arg, b, showNumbers)
  else if verb = ascii "r" then
    (readInto io b arg).map fun r => (r.1, r.2, showNumbers)
  else if verb = ascii "set" then
    let (result, showNumbers) := setOption arg showNumbers
    some (result, b, showNumbers)
  else if verb = ascii "help" then
    some (.continuing (some helpLine), b, showNumbers)
  else
    some (.continuing (some (ascii "not an editor command: " ++ verb)), b,
      showNumbers)

/-- The verb and the argument that `dispatch` reads from a trimmed line. -/
def command (trimmed : Text) : Text × Text :=
  let (verb, rest) := splitVerb trimmed
  (verb, trimStart rest)

def dispatch (lib : RegexLib ρ) (io : Io) (line : Text) (b : Buffer)
    (showNumbers : Bool) : Option (ExResult × Buffer × Bool) :=
  let trimmed := trimSpaces line
  if trimmed = [] then some (.continuing none, b, showNumbers)
  else
    match parseUsize trimmed with
    | some n =>
      some (.continuing none,
        { b with row := min (n - 1) (b.lines.length - 1), col := 0 },
        showNumbers)
    | none =>
      if isSubstitution trimmed then
        (substitute lib trimmed b).map fun r => (r.1, r.2, showNumbers)
      else
        let (verb, arg) := command trimmed
        runVerb io verb arg b showNumbers

end Ex

end LinuxRs.Vi
