/-
The parser of the shell (user_program/src/bin/sh/parser.rs).

# State

`Parser` holds the lexer and one token. What the lexer will return is fixed
by the source, so the state here is the stream of the tokens still to come,
the looked-at one first. A failure of the lexer is an element of the stream;
it is an error of the parser when the parser moves onto it.

# Recursion

The functions of the source call each other. Here each takes the parser of
commands it calls as an argument, and `parseCommand` ties the knot: with
`n + 1` units of fuel it is the body of the source over `parseCommand n`. A
loop takes one unit a round. The source has no fuel: what it does is what
happens here with enough of it, and where no fuel is enough it does not
return.
-/
import LinuxRs.Shell.Lexer
import LinuxRs.Lib.Result

namespace LinuxRs.Shell

-- ======== tokens

/-- What `next_token` will return, call after call. -/
inductive Toks
  | eof
  | fail (e : LexError)
  | cons (t : Token) (rest : Toks)

def Toks.cur : Toks → Token
  | .cons t _ => t
  | _ => .eof

def lexToks : Nat → Text → Toks
  | 0, _ => .fail .outOfFuel
  | n + 1, src =>
    match nextToken src with
    | .error e => .fail e
    | .ok (.eof, _) => .eof
    | .ok (t, rest) => .cons t (lexToks n rest)

def tokens (src : Text) : Toks :=
  lexToks ((byteChars src).length + 1) (byteChars src)

/-- `LexError` as the parser returns it, and an outcome the source does not
have. -/
inductive ParseError
  | lex (e : LexError)
  | plain (msg : Text)
  /-- `unexpected token: …`. -/
  | unexpected (tok : Token)
  | outOfFuel

abbrev Parser := EStateM ParseError Toks

def cur : Parser Token := fun toks => .ok toks.cur toks

def advance : Parser Unit := fun toks =>
  match toks with
  | .cons _ (.fail e) => .error (.lex e) toks
  | .cons _ rest => .ok () rest
  | .fail e => .error (.lex e) toks
  | .eof => .ok () .eof

/-- The round of `skip_newlines` over what is left. -/
def dropNewlines : Toks → Except LexError Toks
  | .fail e => .error e
  | .cons .newline rest => dropNewlines rest
  | toks => .ok toks

def skipNewlines : Parser Unit := fun toks =>
  match dropNewlines toks with
  | .error e => .error (.lex e) toks
  | .ok rest => .ok () rest

-- ======== words

/-- The reserved words, in the order of `word_as_reserved`. -/
inductive Keyword
  | kwIf
  | kwThen
  | kwElse
  | kwElif
  | kwFi
  | kwWhile
  | kwUntil
  | kwDo
  | kwDone
  | kwFor
  | kwIn
  | kwOpen
  | kwClose
  | kwBang
  deriving DecidableEq

def Keyword.text : Keyword → Text
  | .kwIf => "if".toList
  | .kwThen => "then".toList
  | .kwElse => "else".toList
  | .kwElif => "elif".toList
  | .kwFi => "fi".toList
  | .kwWhile => "while".toList
  | .kwUntil => "until".toList
  | .kwDo => "do".toList
  | .kwDone => "done".toList
  | .kwFor => "for".toList
  | .kwIn => "in".toList
  | .kwOpen => ['{']
  | .kwClose => ['}']
  | .kwBang => ['!']

def Keyword.all : List Keyword :=
  [.kwIf, .kwThen, .kwElse, .kwElif, .kwFi, .kwWhile, .kwUntil, .kwDo, .kwDone,
    .kwFor, .kwIn, .kwOpen, .kwClose, .kwBang]

def wordIsLiteralKeyword (w : Word) (kw : Keyword) : Bool :=
  match w with
  | [.lit s] => s == kw.text
  | _ => false

def wordAsReserved (w : Word) : Option Keyword :=
  Keyword.all.find? (wordIsLiteralKeyword w)

def isValidName : Text → Bool
  | [] => false
  | c :: rest => isNameStart c && rest.all isNameCont

def wordAsSimpleName (w : Word) : Option Text :=
  match w with
  | [.lit s] => if isValidName s then some s else none
  | _ => none

def wordAsAssignment (w : Word) : Option Assignment :=
  match w with
  | .lit text :: segs =>
    match text.dropWhile (· != '=') with
    | [] => none
    | _ :: rest =>
      if isValidName (text.takeWhile (· != '=')) then
        some ⟨text.takeWhile (· != '='),
          if rest = [] then segs else .lit rest :: segs⟩
      else none
  | _ => none

/-- `redir_op_for`; `none` for every other token. -/
def redirOpFor : Token → Option RedirOp
  | .less => some .read
  | .greater => some .out
  | .dGreater => some .append
  | .lessAnd => some .dupIn
  | .greaterAnd => some .dupOut
  | .ampGreater => some .outBoth
  | .clobber => some .clobber
  | _ => none

def redirTarget (op : RedirOp) (w : Word) : RedirTarget :=
  match op with
  | .dupIn | .dupOut => .fd w
  | _ => .file w

/-- `peek_keyword`, on the token looked at. -/
def Token.isKeyword (kw : Keyword) : Token → Bool
  | .word w => wordIsLiteralKeyword w kw
  | _ => false

def expectWord (what : Text) : Parser Word := do
  match ← cur with
  | .word w => do
      advance
      return w
  | _ => throw (.plain ("expected ".toList ++ what))

def expectKeyword (kw : Keyword) : Parser Unit := do
  if (← cur).isKeyword kw then advance
  else throw (.plain ("expected \x60".toList ++ kw.text ++ "\x60".toList))

-- ======== redirections

/-- The redirection in front, behind `pending_fd`. -/
def parseRedir (fd : Option Nat) (op : RedirOp) : Parser Redir := do
  advance
  let w ← expectWord "redirection target".toList
  return ⟨fd, op, redirTarget op w⟩

def trailingLoop : Nat → Option Nat → Parser (List Redir)
  | 0, _ => throw .outOfFuel
  | n + 1, fd => do
      match ← cur with
      | .ioNumber k => do
          advance
          trailingLoop n (some k)
      | t =>
        match redirOpFor t with
        | some op => do
            let redir ← parseRedir fd op
            let rest ← trailingLoop n none
            return redir :: rest
        | none => return []

def parseTrailingRedirs (n : Nat) : Parser (List Redir) := trailingLoop n none

-- ======== simple commands

/-- The name of the function whose definition starts with this word: no
word and no assignment came before it, and `(` follows. -/
def funcName (s : SimpleCmd) (w : Word) : Token → Option Text
  | .lParen =>
    if s.words.isEmpty && s.assigns.isEmpty then wordAsSimpleName w else none
  | _ => none

def leadingAssignment (s : SimpleCmd) (w : Word) : Option Assignment :=
  if s.words.isEmpty then wordAsAssignment w else none

/-- The rest of a function definition, from `(`. -/
def parseFuncDef (command : Parser Cmd) (name : Text) : Parser Cmd := do
  advance
  match ← cur with
  | .rParen => do
      advance
      skipNewlines
      let body ← command
      return .funcDef name body
  | _ => throw (.plain "expected ')' in function definition".toList)

/-- The loop of `parse_simple`; `had_word` says that there are words. -/
def simpleLoop (command : Parser Cmd) : Nat → SimpleCmd → Option Nat → Parser Cmd
  | 0, _, _ => throw .outOfFuel
  | n + 1, s, fd => do
      match ← cur with
      | .ioNumber k => do
          advance
          simpleLoop command n s (some k)
      | .word w => do
          advance
          match funcName s w (← cur) with
          | some name => parseFuncDef command name
          | none =>
            match leadingAssignment s w with
            | some a =>
              simpleLoop command n { s with assigns := s.assigns ++ [a] } fd
            | none => simpleLoop command n { s with words := s.words ++ [w] } fd
      | t =>
        match redirOpFor t with
        | some op => do
            let redir ← parseRedir fd op
            simpleLoop command n { s with redirs := s.redirs ++ [redir] } none
        | none => return .simple s

def parseSimple (n : Nat) (command : Parser Cmd) : Parser Cmd :=
  simpleLoop command n ⟨[], [], []⟩ none

-- ======== pipelines

def Token.isPipe : Token → Bool
  | .pipe => true
  | _ => false

def andOrOp : Token → Option AndOrOp
  | .andAnd => some .and
  | .orOr => some .or
  | _ => none

section

variable (command : Parser Cmd)

def pipeLoop : Nat → Parser (List Cmd)
  | 0 => throw .outOfFuel
  | n + 1 => do
      if (← cur).isPipe then
        advance
        skipNewlines
        let part ← command
        let parts ← pipeLoop n
        return part :: parts
      else return []

def parseBang : Parser Bool := do
  if (← cur).isKeyword .kwBang then
    advance
    return true
  else return false

def parsePipeline (n : Nat) : Parser Cmd := do
  let negated ← parseBang
  let first ← command
  if !(← cur).isPipe && !negated then return first
  else do
    let parts ← pipeLoop command n
    return .pipeline negated (first :: parts)

def andOrLoop (fuel : Nat) : Nat → Cmd → Parser Cmd
  | 0, _ => throw .outOfFuel
  | n + 1, left => do
      match andOrOp (← cur) with
      | some op => do
          advance
          skipNewlines
          let right ← parsePipeline command fuel
          andOrLoop fuel n (.andOr left op right)
      | none => return left

def parseAndOr (n : Nat) : Parser Cmd := do
  let left ← parsePipeline command n
  andOrLoop command n n left

-- ======== lists

/-- Where a list of commands ends, and what a token is that stands behind
a command and is no separator: the end of the list (`none`), or an error. -/
structure ListRule where
  stops : Token → Bool
  missing : Token → Option ParseError

def parseSep (rule : ListRule) : Parser Sep := do
  match ← cur with
  | .amp => do
      advance
      return .bg
  | .semi | .newline => do
      advance
      return .seq
  | t =>
    match rule.missing t with
    | some e => throw e
    | none => return .seq

def itemsLoop (rule : ListRule) (fuel : Nat) : Nat → Parser (List (Cmd × Sep))
  | 0 => throw .outOfFuel
  | n + 1 => do
      if rule.stops (← cur) then return []
      else do
        let cmd ← parseAndOr command fuel
        let sep ← parseSep rule
        skipNewlines
        let items ← itemsLoop rule fuel n
        return (cmd, sep) :: items

def parseItems (rule : ListRule) (n : Nat) : Parser (List (Cmd × Sep)) := do
  skipNewlines
  itemsLoop command rule n n

def listCmd : List (Cmd × Sep) → Cmd
  | [(cmd, .seq)] => cmd
  | [] => .empty
  | items => .list items

def subshellCmd : List (Cmd × Sep) → Cmd
  | [(cmd, .seq)] => cmd
  | items => .list items

def programRule : ListRule where
  stops
    | .eof => true
    | _ => false
  missing
    | .eof => none
    | t => some (.unexpected t)

def subshellRule : ListRule where
  stops
    | .rParen => true
    | _ => false
  missing
    | .rParen => none
    | _ => some (.plain
        "expected \x60;\x60, \x60&\x60, newline, or \x60)\x60".toList)

def bodyRule (terminators : List Keyword) : ListRule where
  stops
    | .eof => true
    | t => terminators.any t.isKeyword
  missing _ := none

def parseCompoundList (n : Nat) (terminators : List Keyword) : Parser Cmd := do
  let items ← parseItems command (bodyRule terminators) n
  return listCmd items

-- ======== compound commands

/-- The condition and the body of an `if` or `elif`, behind that word. -/
def parseBranch (n : Nat) : Parser (Cmd × Cmd) := do
  let cond ← parseCompoundList command n [.kwThen]
  expectKeyword .kwThen
  let body ← parseCompoundList command n [.kwElif, .kwElse, .kwFi]
  return (cond, body)

def elifLoop (fuel : Nat) : Nat → Parser (List (Cmd × Cmd))
  | 0 => throw .outOfFuel
  | n + 1 => do
      if (← cur).isKeyword .kwElif then
        advance
        let branch ← parseBranch command fuel
        let rest ← elifLoop fuel n
        return branch :: rest
      else return []

def parseElse (n : Nat) : Parser (Option Cmd) := do
  if (← cur).isKeyword .kwElse then
    advance
    let body ← parseCompoundList command n [.kwFi]
    return some body
  else return none

def parseIf (n : Nat) : Parser Cmd := do
  advance
  let branch ← parseBranch command n
  let elifs ← elifLoop command n n
  let els ← parseElse command n
  expectKeyword .kwFi
  let redirs ← parseTrailingRedirs n
  return .ifThen branch.1 branch.2 elifs els redirs

/-- `do BODY done`, with the redirections behind it. -/
def parseDoDone (n : Nat) : Parser (Cmd × List Redir) := do
  expectKeyword .kwDo
  let body ← parseCompoundList command n [.kwDone]
  expectKeyword .kwDone
  let redirs ← parseTrailingRedirs n
  return (body, redirs)

def parseWhile (n : Nat) (untilDo : Bool) : Parser Cmd := do
  advance
  let cond ← parseCompoundList command n [.kwDo]
  let (body, redirs) ← parseDoDone command n
  return .whileDo cond body untilDo redirs

/-- The words of `for … in`, up to `do` or a token that is no word. -/
def forWords : Nat → Parser (List Word)
  | 0 => throw .outOfFuel
  | n + 1 => do
      match ← cur with
      | .word w =>
        if wordIsLiteralKeyword w .kwDo then return []
        else do
          advance
          let ws ← forWords n
          return w :: ws
      | _ => return []

def parseForSep : Parser Unit := do
  match ← cur with
  | .semi | .newline => do
      advance
      skipNewlines
  | _ => return ()

def parseForIn (n : Nat) : Parser (Option (List Word)) := do
  if (← cur).isKeyword .kwIn then
    advance
    let ws ← forWords n
    parseForSep
    return some ws
  else return none

def parseForName : Parser Text := do
  match ← cur with
  | .word w =>
    match wordAsSimpleName w with
    | some name => return name
    | none => throw (.plain "expected variable name after \x60for\x60".toList)
  | _ => throw (.plain "expected variable name after \x60for\x60".toList)

def parseFor (n : Nat) : Parser Cmd := do
  advance
  let name ← parseForName
  advance
  skipNewlines
  let words ← parseForIn n
  let (body, redirs) ← parseDoDone command n
  return .forIn name words body redirs

def parseGroup (n : Nat) : Parser Cmd := do
  advance
  let body ← parseCompoundList command n [.kwClose]
  expectKeyword .kwClose
  let redirs ← parseTrailingRedirs n
  return .group body redirs

def parseSubshell (n : Nat) : Parser Cmd := do
  advance
  let items ← parseItems command subshellRule n
  advance
  let redirs ← parseTrailingRedirs n
  return .subshell (subshellCmd items) redirs

-- ======== commands

def Token.reserved : Token → Option Keyword
  | .word w => wordAsReserved w
  | _ => none

def Token.isLParen : Token → Bool
  | .lParen => true
  | _ => false

def commandBody (n : Nat) : Parser Cmd := do
  let t ← cur
  match t.reserved with
  | some .kwIf => parseIf command n
  | some .kwWhile => parseWhile command n false
  | some .kwUntil => parseWhile command n true
  | some .kwFor => parseFor command n
  | some .kwOpen => parseGroup command n
  | _ => if t.isLParen then parseSubshell command n else parseSimple n command

end

def parseCommand : Nat → Parser Cmd
  | 0 => throw .outOfFuel
  | n + 1 => commandBody (parseCommand n) n

def parseProgram (n : Nat) : Parser Cmd := do
  let items ← parseItems (parseCommand n) programRule n
  return listCmd items

def outcome {A : Type} : EStateM.Result ParseError Toks A → Except ParseError A
  | .ok a _ => .ok a
  | .error e _ => .error e

/-- `Parser::new` and `parse_program` on a text. -/
def parseText (n : Nat) (src : Text) : Except ParseError Cmd :=
  match tokens src with
  | .fail e => .error (.lex e)
  | toks => outcome (parseProgram n toks)

end LinuxRs.Shell
