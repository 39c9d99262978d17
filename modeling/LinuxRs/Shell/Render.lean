/-
Trees of the grammar in concrete syntax.

# Trees

`Std` is a tree one can write down: words are plain literals that are not
reserved, a redirection has the target its operator takes, every construct
has a body. A list with one element that is run in sequence is a tree here;
the parser returns the element (`Cmd.norm`).

# Text

A tree is rendered as tokens, and these are spelled with a blank behind
each but an IO number. `lines` chooses between `;` and a newline behind a
command that is run in sequence.

The parser takes each byte of a word for a character, so what it returns
for the text of a tree is the tree with `byteChars` at its words.
-/
import LinuxRs.Shell.Parser

namespace LinuxRs.Shell

/-- What a tree of the grammar can stand as. -/
inductive Level
  | command
  | pipeline
  | andOr
  | body

-- ======== words

def Keyword.token (kw : Keyword) : Token := .word [.lit kw.text]

def isPlain (c : Char) : Bool :=
  !isWordEnd c && c != '\\' && c != '\'' && c != '"' && c != '\x60' && c != '$'

/-- A text that is a word without quotes. -/
structure PlainText (t : Text) : Prop where
  nonempty : t ≠ []
  plain : ∀ c ∈ t, isPlain c = true
  head : ∀ c ∈ t.head?, c ≠ '#' ∧ c ≠ '~'

/-- A word that is one literal and not reserved. -/
structure PlainWord (w : Word) : Prop where
  literal : ∃ t, w = [.lit t] ∧ PlainText t
  free : wordAsReserved w = none

-- ======== trees

/-- An assignment of a plain text to a name. -/
structure Assignment.Std (a : Assignment) : Prop where
  name : isValidName a.name = true
  value : a.value = [] ∨ ∃ t, a.value = [.lit t] ∧ t ≠ [] ∧ ∀ c ∈ t, isPlain c = true

/-- A redirection one can write. `&>` takes no IO number. -/
structure Redir.Std (r : Redir) : Prop where
  fd : ∀ k ∈ r.fd, k ≤ 2147483647 ∧ r.op ≠ .outBoth
  target : ∃ w, r.target = redirTarget r.op w ∧ PlainWord w

/-- A simple command that can be written down. -/
structure SimpleCmd.Std (s : SimpleCmd) : Prop where
  nonempty : s.assigns ≠ [] ∨ s.words ≠ [] ∨ s.redirs ≠ []
  assigns : ∀ a ∈ s.assigns, a.Std
  words : ∀ w ∈ s.words, PlainWord w
  name : ∀ w ∈ s.words.head?, wordAsAssignment w = none
  redirs : ∀ r ∈ s.redirs, r.Std

/-- The trees that can be written down, by their level. -/
inductive Std : Level → Cmd → Prop
  | simple {s : SimpleCmd} (h : s.Std) : Std .command (.simple s)
  | subshell {body : Cmd} {redirs : List Redir} (h : Std .body body)
      (hredirs : ∀ r ∈ redirs, r.Std) : Std .command (.subshell body redirs)
  | group {body : Cmd} {redirs : List Redir} (h : Std .body body)
      (hredirs : ∀ r ∈ redirs, r.Std) : Std .command (.group body redirs)
  | ifThen {cond body : Cmd} {elifs : List (Cmd × Cmd)} {els : Option Cmd}
      {redirs : List Redir} (hcond : Std .body cond) (hbody : Std .body body)
      (hconds : ∀ e ∈ elifs, Std .body e.1)
      (hbodies : ∀ e ∈ elifs, Std .body e.2)
      (hels : ∀ b ∈ els, Std .body b) (hredirs : ∀ r ∈ redirs, r.Std) :
      Std .command (.ifThen cond body elifs els redirs)
  | whileDo {cond body : Cmd} {untilDo : Bool} {redirs : List Redir}
      (hcond : Std .body cond) (hbody : Std .body body)
      (hredirs : ∀ r ∈ redirs, r.Std) :
      Std .command (.whileDo cond body untilDo redirs)
  | forIn {var : Text} {words : Option (List Word)} {body : Cmd}
      {redirs : List Redir} (hvar : isValidName var = true)
      (hwords : ∀ ws ∈ words, ∀ w ∈ ws, PlainWord w) (h : Std .body body)
      (hredirs : ∀ r ∈ redirs, r.Std) :
      Std .command (.forIn var words body redirs)
  | funcDef {name : Text} {body : Cmd} (hname : isValidName name = true)
      (hfree : wordAsReserved [.lit name] = none) (h : Std .command body) :
      Std .command (.funcDef name body)
  | stage {c : Cmd} (h : Std .command c) : Std .pipeline c
  | pipeline {negated : Bool} {first : Cmd} {parts : List Cmd}
      (hfirst : Std .command first) (hparts : ∀ p ∈ parts, Std .command p)
      (hwrap : negated = true ∨ parts ≠ []) :
      Std .pipeline (.pipeline negated (first :: parts))
  | operand {c : Cmd} (h : Std .pipeline c) : Std .andOr c
  | andOr {left right : Cmd} {op : AndOrOp} (hleft : Std .andOr left)
      (hright : Std .pipeline right) : Std .andOr (.andOr left op right)
  | item {c : Cmd} (h : Std .andOr c) : Std .body c
  | list {items : List (Cmd × Sep)} (hne : items ≠ [])
      (h : ∀ i ∈ items, Std .andOr i.1) : Std .body (.list items)

-- ======== what is read back

def Seg.mapLit (f : Text → Text) : Seg → Seg
  | .lit t => .lit (f t)
  | s => s

def Word.mapLit (f : Text → Text) (w : Word) : Word := w.map (Seg.mapLit f)

def RedirTarget.mapLit (f : Text → Text) : RedirTarget → RedirTarget
  | .file w => .file (Word.mapLit f w)
  | .fd w => .fd (Word.mapLit f w)

def Redir.mapLit (f : Text → Text) (r : Redir) : Redir :=
  { r with target := r.target.mapLit f }

def Assignment.mapLit (f : Text → Text) (a : Assignment) : Assignment :=
  { a with value := Word.mapLit f a.value }

def SimpleCmd.mapLit (f : Text → Text) (s : SimpleCmd) : SimpleCmd where
  assigns := s.assigns.map (·.mapLit f)
  words := s.words.map (Word.mapLit f)
  redirs := s.redirs.map (·.mapLit f)

mutual

/-- A tree with its words changed, and each one-element sequential list
replaced by its element. -/
def Cmd.norm (f : Text → Text) : Cmd → Cmd
  | .simple s => .simple (s.mapLit f)
  | .pipeline negated parts => .pipeline negated (normParts f parts)
  | .andOr left op right => .andOr (left.norm f) op (right.norm f)
  | .list items => listCmd (normItems f items)
  | .subshell body redirs => .subshell (body.norm f) (redirs.map (·.mapLit f))
  | .group body redirs => .group (body.norm f) (redirs.map (·.mapLit f))
  | .ifThen cond body elifs els redirs =>
    .ifThen (cond.norm f) (body.norm f) (normElifs f elifs) (normElse f els)
      (redirs.map (·.mapLit f))
  | .whileDo cond body untilDo redirs =>
    .whileDo (cond.norm f) (body.norm f) untilDo (redirs.map (·.mapLit f))
  | .forIn var words body redirs =>
    .forIn var (words.map (·.map (Word.mapLit f))) (body.norm f)
      (redirs.map (·.mapLit f))
  | .funcDef name body => .funcDef name (body.norm f)
  | .empty => .empty

def normParts (f : Text → Text) : List Cmd → List Cmd
  | [] => []
  | p :: ps => p.norm f :: normParts f ps

def normItems (f : Text → Text) : List (Cmd × Sep) → List (Cmd × Sep)
  | [] => []
  | (c, sep) :: items => (c.norm f, sep) :: normItems f items

def normElifs (f : Text → Text) : List (Cmd × Cmd) → List (Cmd × Cmd)
  | [] => []
  | (c, b) :: elifs => (c.norm f, b.norm f) :: normElifs f elifs

def normElse (f : Text → Text) : Option Cmd → Option Cmd
  | none => none
  | some b => some (b.norm f)

end

-- ======== tokens

def RedirOp.token : RedirOp → Token
  | .read => .less
  | .out => .greater
  | .append => .dGreater
  | .clobber => .clobber
  | .dupOut => .greaterAnd
  | .dupIn => .lessAnd
  | .outBoth => .ampGreater

def AndOrOp.token : AndOrOp → Token
  | .and => .andAnd
  | .or => .orOr

def RedirTarget.word : RedirTarget → Word
  | .file w => w
  | .fd w => w

def Word.text : Word → Text
  | [] => []
  | .lit t :: segs => t ++ Word.text segs
  | _ :: segs => Word.text segs

def Redir.toks (r : Redir) : List Token :=
  (r.fd.map Token.ioNumber).toList ++ [r.op.token, .word r.target.word]

def redirsToks (redirs : List Redir) : List Token := redirs.flatMap Redir.toks

def Assignment.token (a : Assignment) : Token :=
  .word [.lit (a.name ++ '=' :: Word.text a.value)]

def SimpleCmd.toks (s : SimpleCmd) : List Token :=
  s.assigns.map Assignment.token ++ s.words.map Token.word ++ redirsToks s.redirs

def breakToken (lines : Bool) : Token := if lines then .newline else .semi

def Sep.token (lines : Bool) : Sep → Token
  | .seq => breakToken lines
  | .bg => .amp

/-- What stands behind a body: the items of a list are ended already. -/
def bodyEnd (lines : Bool) : Cmd → List Token
  | .list _ => []
  | _ => [breakToken lines]

def forToks (lines : Bool) : Option (List Word) → List Token
  | none => []
  | some ws =>
    Keyword.kwIn.token :: (ws.map Token.word ++ [breakToken lines])

mutual

def Cmd.toks (lines : Bool) : Cmd → List Token
  | .simple s => s.toks
  | .pipeline negated parts =>
    (if negated then [Keyword.kwBang.token] else []) ++ partsToks lines parts
  | .andOr left op right => left.toks lines ++ op.token :: right.toks lines
  | .list items => itemsToks lines items
  | .subshell body redirs =>
    .lParen :: (body.toks lines ++ bodyEnd lines body ++
      .rParen :: redirsToks redirs)
  | .group body redirs =>
    Keyword.kwOpen.token :: (body.toks lines ++ bodyEnd lines body ++
      Keyword.kwClose.token :: redirsToks redirs)
  | .ifThen cond body elifs els redirs =>
    Keyword.kwIf.token :: (cond.toks lines ++ bodyEnd lines cond ++
      Keyword.kwThen.token :: (body.toks lines ++ bodyEnd lines body ++
      (elifsToks lines elifs ++ (elseToks lines els ++
      Keyword.kwFi.token :: redirsToks redirs))))
  | .whileDo cond body untilDo redirs =>
    (if untilDo then Keyword.kwUntil.token else Keyword.kwWhile.token) ::
      (cond.toks lines ++ bodyEnd lines cond ++
      Keyword.kwDo.token :: (body.toks lines ++ bodyEnd lines body ++
      Keyword.kwDone.token :: redirsToks redirs))
  | .forIn var words body redirs =>
    Keyword.kwFor.token :: .word [.lit var] :: (forToks lines words ++
      Keyword.kwDo.token :: (body.toks lines ++ bodyEnd lines body ++
      Keyword.kwDone.token :: redirsToks redirs))
  | .funcDef name body =>
    .word [.lit name] :: .lParen :: .rParen :: body.toks lines
  | .empty => []

def partsToks (lines : Bool) : List Cmd → List Token
  | [] => []
  | p :: ps => p.toks lines ++ pipedToks lines ps

def pipedToks (lines : Bool) : List Cmd → List Token
  | [] => []
  | p :: ps => .pipe :: (p.toks lines ++ pipedToks lines ps)

def itemsToks (lines : Bool) : List (Cmd × Sep) → List Token
  | [] => []
  | (c, sep) :: items =>
    c.toks lines ++ sep.token lines :: itemsToks lines items

def elifsToks (lines : Bool) : List (Cmd × Cmd) → List Token
  | [] => []
  | (c, b) :: elifs =>
    Keyword.kwElif.token :: (c.toks lines ++ bodyEnd lines c ++
      Keyword.kwThen.token :: (b.toks lines ++ bodyEnd lines b ++
      elifsToks lines elifs))

def elseToks (lines : Bool) : Option Cmd → List Token
  | none => []
  | some b =>
    Keyword.kwElse.token :: (b.toks lines ++ bodyEnd lines b)

end

def bodyToks (lines : Bool) (c : Cmd) : List Token :=
  c.toks lines ++ bodyEnd lines c

-- ======== texts

def Token.spell : Token → Text
  | .word w => Word.text w ++ [' ']
  | .newline => ['\n']
  | .semi => [';', ' ']
  | .amp => ['&', ' ']
  | .andAnd => ['&', '&', ' ']
  | .orOr => ['|', '|', ' ']
  | .pipe => ['|', ' ']
  | .lParen => ['(', ' ']
  | .rParen => [')', ' ']
  | .less => ['<', ' ']
  | .greater => ['>', ' ']
  | .dGreater => ['>', '>', ' ']
  | .clobber => ['>', '|', ' ']
  | .lessAnd => ['<', '&', ' ']
  | .greaterAnd => ['>', '&', ' ']
  | .ampGreater => ['&', '>', ' ']
  | .ioNumber k => showNat k
  | .eof => []

def Cmd.render (lines : Bool) (c : Cmd) : Text :=
  (bodyToks lines c).flatMap Token.spell

end LinuxRs.Shell
