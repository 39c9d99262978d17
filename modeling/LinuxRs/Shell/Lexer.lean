/-
The lexer of the shell (user_program/src/bin/sh/lexer.rs).

The lexer walks over the bytes of the source and pushes each `as char`.
Here the source is `byteChars` of the text, so that a byte and the
character pushed for it are the same thing; `pos` is the rest of the
source.

Inside quotes and `$`-expansions the functions call each other, so they
take fuel. Every loop round and every call takes one unit; `lexFuel` is
enough for the rest of a source (`nextToken_takes`).
-/
import LinuxRs.Shell.Text

namespace LinuxRs.Shell

-- ======== tokens

inductive Token
  | word (w : Word)
  | newline
  | semi
  | amp
  | andAnd
  | orOr
  | pipe
  | lParen
  | rParen
  | less
  | greater
  | dGreater
  | clobber
  | lessAnd
  | greaterAnd
  | ampGreater
  | ioNumber (n : Nat)
  | eof

inductive LexError
  | plain (msg : Text)
  | incomplete (msg : Text)
  | outOfFuel

def isAsciiDigit (c : Char) : Bool := '0' ≤ c ∧ c ≤ '9'

def isAsciiAlphabetic (c : Char) : Bool :=
  ('a' ≤ c ∧ c ≤ 'z') ∨ ('A' ≤ c ∧ c ≤ 'Z')

def isNameStart (c : Char) : Bool := isAsciiAlphabetic c || c == '_'

def isNameCont (c : Char) : Bool :=
  isAsciiAlphabetic c || isAsciiDigit c || c == '_'

def isSpecialParam (c : Char) : Bool :=
  c == '?' || c == '$' || c == '!' || c == '#' || c == '@' || c == '*' ||
    isAsciiDigit c

def isWordEnd (c : Char) : Bool :=
  c == ' ' || c == '\t' || c == '\n' || c == ';' || c == '&' || c == '|' ||
    c == '<' || c == '>' || c == '(' || c == ')'

def flush (segs : List Seg) (lit : Text) : List Seg :=
  if lit = [] then segs else segs ++ [.lit lit]

def readSingleQuoted : Text → Text → Except LexError (Text × Text)
  | [], _ => .error (.incomplete "unterminated single quote".toList)
  | c :: rest, out =>
    if c = '\'' then .ok (out, rest) else readSingleQuoted rest (out ++ [c])

def readBacktick : Text → Text → Except LexError (Text × Text)
  | [], _ => .error (.incomplete "unterminated backtick".toList)
  | c :: rest, out =>
    if c = '\x60' then .ok (out, rest)
    else if c = '\\' then
      match rest with
      | [] => .error (.incomplete "unterminated backtick".toList)
      | n :: rest =>
        if n = '\x60' ∨ n = '$' ∨ n = '\\' then readBacktick rest (out ++ [n])
        else readBacktick rest (out ++ ['\\', n])
    else readBacktick rest (out ++ [c])

/-- The single-quoted region inside `read_balanced`, its end included. -/
def copySingle : Text → Text → Text × Text
  | [], out => (out, [])
  | n :: rest, out =>
    if n = '\'' then (out ++ [n], rest) else copySingle rest (out ++ [n])

/-- The double-quoted region inside `read_balanced`, its end included. -/
def copyDouble : Text → Text → Text × Text
  | [], out => (out, [])
  | n :: rest, out =>
    if n = '\\' then
      match rest with
      | [] => (out ++ ['\\'], [])
      | m :: rest => copyDouble rest (out ++ ['\\', m])
    else if n = '"' then (out ++ [n], rest)
    else copyDouble rest (out ++ [n])

/-- `read_balanced`, for `(` and `)`, or for both doubled. -/
def readBalanced : Nat → Bool → Nat → Text → Text →
    Except LexError (Text × Text)
  | 0, _, _, _, _ => .error .outOfFuel
  | _ + 1, _, _, [], _ =>
    .error (.incomplete "unterminated $\x7b\x7d / $() / $(()".toList)
  | fuel + 1, needDouble, depth, c :: rest, out =>
    if c = '\'' then
      let (out, rest) := copySingle rest (out ++ ['\''])
      readBalanced fuel needDouble depth rest out
    else if c = '"' then
      let (out, rest) := copyDouble rest (out ++ ['"'])
      readBalanced fuel needDouble depth rest out
    else if c = '\\' then
      match rest with
      | [] => readBalanced fuel needDouble depth [] (out ++ ['\\'])
      | n :: rest => readBalanced fuel needDouble depth rest (out ++ ['\\', n])
    else if needDouble then
      match c, rest with
      | '$', '(' :: '(' :: rest =>
        match readBalanced fuel true 1 rest [] with
        | .error e => .error e
        | .ok (inner, rest) =>
          readBalanced fuel true depth rest
            (out ++ ['$', '(', '('] ++ inner ++ [')', ')'])
      | '$', '(' :: rest =>
        match readBalanced fuel false 1 rest [] with
        | .error e => .error e
        | .ok (inner, rest) =>
          readBalanced fuel true depth rest
            (out ++ ['$', '('] ++ inner ++ [')'])
      | '(', '(' :: rest =>
        readBalanced fuel true (depth + 1) rest (out ++ ['(', '('])
      | ')', ')' :: rest =>
        if depth = 1 then .ok (out, rest)
        else readBalanced fuel true (depth - 1) rest (out ++ [')', ')'])
      | c, rest => readBalanced fuel true depth rest (out ++ [c])
    else if c = '(' then
      readBalanced fuel false (depth + 1) rest (out ++ [c])
    else if c = ')' then
      if depth = 1 then .ok (out, rest)
      else readBalanced fuel false (depth - 1) rest (out ++ [c])
    else readBalanced fuel false depth rest (out ++ [c])

-- ======== expansions

/-- `${#name}`: whether this is the length form, and the rest. -/
def braceLength : Text → Bool × Text
  | '#' :: '}' :: rest => (false, '#' :: '}' :: rest)
  | '#' :: rest => (true, rest)
  | src => (false, src)

def braceName : Text → Except LexError (Text × Text)
  | [] => .error (.plain "bad substitution".toList)
  | c :: rest =>
    if isSpecialParam c then .ok ([c], rest)
    else if isNameStart c then
      .ok ((c :: rest).takeWhile fun n => isNameStart n || isAsciiDigit n,
        (c :: rest).dropWhile fun n => isNameStart n || isAsciiDigit n)
    else .error (.plain "bad substitution".toList)

/-- The operator inside `${…}`; `none` is the closing brace. -/
def braceOp : Text → Except LexError (Option (ParamOp × Text))
  | '}' :: _ => .ok none
  | ':' :: '-' :: rest => .ok (some (.dashNull, rest))
  | ':' :: '=' :: rest => .ok (some (.eqNull, rest))
  | ':' :: '+' :: rest => .ok (some (.plusNull, rest))
  | ':' :: '?' :: rest => .ok (some (.qmarkNull, rest))
  | '-' :: rest => .ok (some (.dashUnset, rest))
  | '=' :: rest => .ok (some (.eqUnset, rest))
  | '+' :: rest => .ok (some (.plusUnset, rest))
  | '?' :: rest => .ok (some (.qmarkUnset, rest))
  | _ => .error (.plain "bad substitution".toList)

/-- The closing brace of `read_brace_param`. -/
def closeBrace (name : Text) (op : Option ParamOp) (arg : Option Word)
    (length : Bool) : Text → Except LexError (Seg × Text)
  | '}' :: rest => .ok (.param name op arg length, rest)
  | _ => .error (.incomplete "unterminated $\x7b...\x7d".toList)

mutual

def readDoubleQuoted : Nat → Text → List Seg → Text →
    Except LexError (List Seg × Text)
  | 0, _, _, _ => .error .outOfFuel
  | _ + 1, [], _, _ => .error (.incomplete "unterminated double quote".toList)
  | fuel + 1, c :: rest, segs, lit =>
    if c = '"' then .ok (flush segs lit, rest)
    else if c = '\\' then
      match rest with
      | [] => .error (.incomplete "unterminated quoted backslash".toList)
      | n :: rest =>
        if n = '\n' then readDoubleQuoted fuel rest segs lit
        else if n = '$' ∨ n = '\x60' ∨ n = '"' ∨ n = '\\' then
          readDoubleQuoted fuel rest segs (lit ++ [n])
        else readDoubleQuoted fuel rest segs (lit ++ ['\\', n])
    else if c = '\x60' then
      match readBacktick rest [] with
      | .error e => .error e
      | .ok (body, rest) =>
        readDoubleQuoted fuel rest (flush segs lit ++ [.cmdSub body]) []
    else if c = '$' then
      match readDollar fuel rest with
      | .error e => .error e
      | .ok (seg, rest) =>
        readDoubleQuoted fuel rest (flush segs lit ++ [seg]) []
    else readDoubleQuoted fuel rest segs (lit ++ [c])

def readDollar : Nat → Text → Except LexError (Seg × Text)
  | 0, _ => .error .outOfFuel
  | _ + 1, [] => .ok (.lit ['$'], [])
  | fuel + 1, c :: rest =>
    if c = '(' then
      match rest with
      | '(' :: rest =>
        match readBalanced fuel true 1 rest [] with
        | .error e => .error e
        | .ok (body, rest) => .ok (.arith body, rest)
      | rest =>
        match readBalanced fuel false 1 rest [] with
        | .error e => .error e
        | .ok (body, rest) => .ok (.cmdSub body, rest)
    else if c = '{' then readBraceParam fuel rest
    else if isSpecialParam c then .ok (.param [c] none none false, rest)
    else if isNameStart c then
      .ok (.param (c :: rest.takeWhile isNameCont) none none false,
        rest.dropWhile isNameCont)
    else .ok (.lit ['$'], c :: rest)

def readBraceParam : Nat → Text → Except LexError (Seg × Text)
  | 0, _ => .error .outOfFuel
  | fuel + 1, src =>
    let (length, src) := braceLength src
    match braceName src with
    | .error e => .error e
    | .ok (name, src) =>
      match braceOp src with
      | .error e => .error e
      | .ok none => closeBrace name none none length src
      | .ok (some (op, src)) =>
        match readUntilBrace fuel src [] [] 1 with
        | .error e => .error e
        | .ok (arg, src) => closeBrace name (some op) (some arg) length src

/-- `read_until_brace`; the closing brace stays. -/
def readUntilBrace : Nat → Text → List Seg → Text → Nat →
    Except LexError (Word × Text)
  | 0, _, _, _, _ => .error .outOfFuel
  | _ + 1, [], _, _, _ => .error (.incomplete "unterminated $\x7b...\x7d".toList)
  | fuel + 1, c :: rest, segs, lit, depth =>
    if c = '}' then
      if depth = 1 then .ok (flush segs lit, c :: rest)
      else readUntilBrace fuel rest segs (lit ++ ['}']) (depth - 1)
    else if c = '{' then
      readUntilBrace fuel rest segs (lit ++ ['{']) (depth + 1)
    else if c = '\\' then
      match rest with
      | [] => readUntilBrace fuel [] segs lit depth
      | n :: rest => readUntilBrace fuel rest segs (lit ++ [n]) depth
    else if c = '\'' then
      match readSingleQuoted rest [] with
      | .error e => .error e
      | .ok (body, rest) =>
        readUntilBrace fuel rest (flush segs lit ++ [.sQuoted body]) [] depth
    else if c = '"' then
      match readDoubleQuoted fuel rest [] [] with
      | .error e => .error e
      | .ok (inner, rest) =>
        readUntilBrace fuel rest (flush segs lit ++ [.dQuoted inner]) [] depth
    else if c = '$' then
      match readDollar fuel rest with
      | .error e => .error e
      | .ok (seg, rest) =>
        readUntilBrace fuel rest (flush segs lit ++ [seg]) [] depth
    else if c = '\x60' then
      match readBacktick rest [] with
      | .error e => .error e
      | .ok (body, rest) =>
        readUntilBrace fuel rest (flush segs lit ++ [.cmdSub body]) [] depth
    else readUntilBrace fuel rest segs (lit ++ [c]) depth

end

-- ======== words

/-- The characters of a user name behind `~`. -/
def isTildeName (c : Char) : Bool :=
  isAsciiAlphabetic c || isAsciiDigit c || c == '_' || c == '.' || c == '-'

def readWordLoop : Nat → Text → List Seg → Text → Bool →
    Except LexError (Word × Text)
  | 0, _, _, _, _ => .error .outOfFuel
  | _ + 1, [], segs, lit, _ => .ok (flush segs lit, [])
  | fuel + 1, c :: rest, segs, lit, atWordStart =>
    if isWordEnd c then .ok (flush segs lit, c :: rest)
    else if c = '#' ∧ atWordStart ∧ segs.isEmpty ∧ lit = [] then
      .ok (flush segs lit, c :: rest)
    else if c = '\\' then
      match rest with
      | [] => .error (.incomplete "unterminated backslash".toList)
      | n :: rest =>
        if n = '\n' then readWordLoop fuel rest segs lit false
        else if n = '*' ∨ n = '?' ∨ n = '[' then
          readWordLoop fuel rest segs (lit ++ ['\\', n]) false
        else readWordLoop fuel rest segs (lit ++ [n]) false
    else if c = '\'' then
      match readSingleQuoted rest [] with
      | .error e => .error e
      | .ok (body, rest) =>
        readWordLoop fuel rest (flush segs lit ++ [.sQuoted body]) [] false
    else if c = '"' then
      match readDoubleQuoted fuel rest [] [] with
      | .error e => .error e
      | .ok (inner, rest) =>
        readWordLoop fuel rest (flush segs lit ++ [.dQuoted inner]) [] false
    else if c = '\x60' then
      match readBacktick rest [] with
      | .error e => .error e
      | .ok (body, rest) =>
        readWordLoop fuel rest (flush segs lit ++ [.cmdSub body]) [] false
    else if c = '$' then
      match readDollar fuel rest with
      | .error e => .error e
      | .ok (seg, rest) =>
        readWordLoop fuel rest (flush segs lit ++ [seg]) [] false
    else readWordLoop fuel rest segs (lit ++ [c]) false

def readWord (fuel : Nat) : Text → Except LexError (Word × Text)
  | '~' :: rest =>
    readWordLoop fuel (rest.dropWhile isTildeName)
      [.tilde (rest.takeWhile isTildeName)] [] false
  | src => readWordLoop fuel src [] [] true

/-- `skip_blanks_and_comments`; in a comment everything up to the line's
end is skipped. -/
def skipBlanks : Bool → Text → Text
  | _, [] => []
  | true, c :: rest =>
    if c = '\n' then c :: rest else skipBlanks true rest
  | false, ' ' :: rest => skipBlanks false rest
  | false, '\t' :: rest => skipBlanks false rest
  | false, '\\' :: '\n' :: rest => skipBlanks false rest
  | false, '#' :: rest => skipBlanks true rest
  | false, src => src

def ioNumber (w : Word) (used : Nat) (next : Option Char) : Option Nat :=
  match w with
  | [.lit text] =>
    if text.all isAsciiDigit ∧ text ≠ [] ∧
        (next = some '<' ∨ next = some '>') ∧ used = text.length then
      (parseI32 text).map Int.toNat
    else none
  | _ => none

/-- The end of `next_token`: a word, or the IO number it spells. -/
def wordToken (start : Text) :
    Except LexError (Word × Text) → Except LexError (Token × Text)
  | .error e => .error e
  | .ok (w, rest) =>
    match ioNumber w (start.length - rest.length) rest.head? with
    | some n => .ok (.ioNumber n, rest)
    | none => .ok (.word w, rest)

def nextTokenWith (fuel : Nat) (src : Text) : Except LexError (Token × Text) :=
  match skipBlanks false src with
  | [] => .ok (.eof, [])
  | '\n' :: rest => .ok (.newline, rest)
  | ';' :: rest => .ok (.semi, rest)
  | '(' :: rest => .ok (.lParen, rest)
  | ')' :: rest => .ok (.rParen, rest)
  | '|' :: '|' :: rest => .ok (.orOr, rest)
  | '|' :: rest => .ok (.pipe, rest)
  | '&' :: '&' :: rest => .ok (.andAnd, rest)
  | '&' :: '>' :: rest => .ok (.ampGreater, rest)
  | '&' :: rest => .ok (.amp, rest)
  | '<' :: '&' :: rest => .ok (.lessAnd, rest)
  | '<' :: rest => .ok (.less, rest)
  | '>' :: '>' :: rest => .ok (.dGreater, rest)
  | '>' :: '&' :: rest => .ok (.greaterAnd, rest)
  | '>' :: '|' :: rest => .ok (.clobber, rest)
  | '>' :: rest => .ok (.greater, rest)
  | start => wordToken start (readWord fuel start)

def lexFuel (src : Text) : Nat := 2 * src.length + 2

/-- `next_token` on what is left of the source. -/
def nextToken (src : Text) : Except LexError (Token × Text) :=
  nextTokenWith (lexFuel src) src

end LinuxRs.Shell
