/-
The parser combinators (user_program/src/compiler/parse.rs).

# Parsers

A `Parser` is a boxed function on the stream. Here it is that function; the
loops of `many`, `sep_by` and their kin run for a number of rounds, and
`none` is that these were not enough.

# What is kept beside the source

A `ParseError` also has the index of the token whose place it carries, and
the stream notes the places where a primitive parser failed. The program
keeps neither.
-/
import Mathlib.Data.List.Basic

namespace LinuxRs.Compiler

abbrev Text := List Char

-- ======== stream

/-- `Token`, with its place in the text. -/
structure Token (Tok : Type) where
  kind : Tok
  text : Text
  line : Nat
  col : Nat

/-- `ParseError`, with the index of the token it points at. -/
structure ParseError where
  line : Nat
  col : Nat
  expected : Text
  found : Text
  index : Nat

/-- `Stream`, with the places where a primitive parser failed. -/
structure Stream (Tok : Type) where
  tokens : List (Token Tok)
  pos : Nat
  farthest : Nat
  farthestErr : Option ParseError
  failures : List Nat

variable {Tok α β γ : Type}

namespace Stream

def new (tokens : List (Token Tok)) : Stream Tok := ⟨tokens, 0, 0, none, []⟩

def rewind (s : Stream Tok) (pos : Nat) : Stream Tok := { s with pos := pos }

def peek (s : Stream Tok) : Option (Token Tok) := (s.tokens.drop s.pos).head?

def bump (s : Stream Tok) : Stream Tok :=
  if s.peek.isSome then { s with pos := s.pos + 1 } else s

def record (s : Stream Tok) (err : ParseError) : Stream Tok :=
  if s.farthest ≤ s.pos then
    { s with farthest := s.pos, farthestErr := some err }
  else s

def error (s : Stream Tok) (expected : Text) : ParseError :=
  match s.peek with
  | some t =>
    { line := t.line
      col := t.col
      expected := expected
      found := '\x60' :: t.text ++ ['\x60']
      index := s.pos }
  | none =>
    let place := (s.tokens.getLast?.map fun t =>
      (t.line, t.col + t.text.length)).getD (1, 1)
    { line := place.1
      col := place.2
      expected := expected
      found := "end of input".toList
      index := s.pos }

def fail (s : Stream Tok) (expected : Text) : ParseError × Stream Tok :=
  let err := s.error expected
  (err, { s.record err with failures := s.failures ++ [s.pos] })

end Stream

-- ======== combinators

def Parser (Tok α : Type) : Type :=
  Stream Tok → Option (Except ParseError α × Stream Tok)

namespace Parser

/-- `tok_if`, on the token that is looked at. -/
def tokIf (pred : Tok → Bool) (label : Text) : Parser Tok (Token Tok) := fun s =>
  match s.peek with
  | some t =>
    if pred t.kind then some (.ok t, s.bump)
    else some (.error (s.fail label).1, (s.fail label).2)
  | none => some (.error (s.fail label).1, (s.fail label).2)

def tok [DecidableEq Tok] (name : Tok → Text) (kind : Tok) :
    Parser Tok (Token Tok) :=
  tokIf (fun k => k = kind) (name kind)

def pure (value : α) : Parser Tok α := fun s => some (.ok value, s)

def map (f : α → β) (p : Parser Tok α) : Parser Tok β := fun s =>
  (p s).map fun r => (r.1.map f, r.2)

/-- What goes on with the value of a parser, or stops with its error. -/
def bind (p : Parser Tok α) (k : α → Parser Tok β) : Parser Tok β := fun s =>
  (p s).bind fun r =>
    match r with
    | (.ok v, s) => k v s
    | (.error e, s) => some (.error e, s)

/-- The closure in `Sequence::into_parser`: one parser of the tuple and then
the others. -/
def andThen (p : Parser Tok α) (rest : Parser Tok β) : Parser Tok (α × β) :=
  p.bind fun v => rest.map fun w => (v, w)

/-- `seq`, around that closure: on a failure the stream is rewound. -/
def seq (body : Parser Tok α) : Parser Tok α := fun s =>
  (body s).map fun r =>
    match r with
    | (.ok v, s') => (.ok v, s')
    | (.error e, s') => (.error e, s'.rewind s.pos)

/-- The alternatives of `choice` from some on, with the last error. -/
def choiceFrom (start : Nat) (last : ParseError) : List (Parser Tok α) →
    Parser Tok α
  | [], s => some (.error last, s.rewind start)
  | p :: rest, s =>
    (p (s.rewind start)).bind fun r =>
      match r with
      | (.ok v, s) => some (.ok v, s)
      | (.error e, s) => choiceFrom start e rest s

/-- `choice`; the tuple has one alternative at least. -/
def choice (p : Parser Tok α) (rest : List (Parser Tok α)) : Parser Tok α :=
  fun s =>
    (p (s.rewind s.pos)).bind fun r =>
      match r with
      | (.ok v, s') => some (.ok v, s')
      | (.error e, s') => choiceFrom s.pos e rest s'

def optional (p : Parser Tok α) : Parser Tok (Option α) := fun s =>
  (p s).map fun r =>
    match r with
    | (.ok v, s') => (.ok (some v), s')
    | (.error _, s') => (.ok none, s'.rewind s.pos)

def manyLoop (p : Parser Tok α) : Nat → List α → Parser Tok (List α)
  | 0, _, _ => none
  | rounds + 1, out, s =>
    (p s).bind fun r =>
      match r with
      | (.ok v, s') =>
        if s'.pos = s.pos then some (.ok (out ++ [v]), s')
        else manyLoop p rounds (out ++ [v]) s'
      | (.error _, s') => some (.ok out, s'.rewind s.pos)

def many (rounds : Nat) (p : Parser Tok α) : Parser Tok (List α) :=
  manyLoop p rounds []

def many1 (rounds : Nat) (p : Parser Tok α) : Parser Tok (List α) :=
  p.bind fun first => manyLoop p rounds [first]

def sepLoop (p : Parser Tok α) (sep : Parser Tok β) :
    Nat → List α → Parser Tok (List α)
  | 0, _, _ => none
  | rounds + 1, out, s =>
    (sep s).bind fun r =>
      match r with
      | (.error _, s') => some (.ok out, s'.rewind s.pos)
      | (.ok _, s') => (p.bind fun v => sepLoop p sep rounds (out ++ [v])) s'

def sepBy (rounds : Nat) (p : Parser Tok α) (sep : Parser Tok β) :
    Parser Tok (List α) := fun s =>
  (p s).bind fun r =>
    match r with
    | (.ok first, s') => sepLoop p sep rounds [first] s'
    | (.error _, s') => some (.ok [], s'.rewind s.pos)

def sepBy1 (rounds : Nat) (p : Parser Tok α) (sep : Parser Tok β) :
    Parser Tok (List α) :=
  p.bind fun first => sepLoop p sep rounds [first]

def labeled (what : Text) (p : Parser Tok α) : Parser Tok α := fun s =>
  (p s).map fun r =>
    match r with
    | (.ok v, s') => (.ok v, s')
    | (.error _, s') =>
      let s' := s'.rewind s.pos
      (.error (s'.error what), s'.record (s'.error what))

def conclude (r : Except ParseError α × Stream Tok) : Except ParseError α :=
  match r with
  | (.ok v, s) =>
    if s.pos = s.tokens.length then .ok v
    else .error (s.error "end of input".toList)
  | (.error err, s) => .error (s.farthestErr.getD err)

def parse (p : Parser Tok α) (tokens : List (Token Tok)) :
    Option (Except ParseError α) :=
  (p (.new tokens)).map conclude

end Parser

-- ======== what is built

/-- The parsers that are built from the combinators, with loops of a number
of rounds. A tuple that is given to `seq` is built from its parsers. -/
inductive Built [DecidableEq Tok] (name : Tok → Text) (rounds : Nat) :
    {α : Type} → Parser Tok α → Prop
  | tok (kind : Tok) : Built name rounds (.tok name kind)
  | tokIf (pred : Tok → Bool) (label : Text) :
      Built name rounds (.tokIf pred label)
  | pure {α : Type} (value : α) : Built name rounds (.pure value)
  | map {α β : Type} (f : α → β) {p : Parser Tok α} :
      Built name rounds p → Built name rounds (p.map f)
  | andThen {α β : Type} {p : Parser Tok α} {rest : Parser Tok β} :
      Built name rounds p → Built name rounds rest →
        Built name rounds (p.andThen rest)
  | seq {α : Type} {body : Parser Tok α} :
      Built name rounds body → Built name rounds body.seq
  | choice {α : Type} {p : Parser Tok α} {rest : List (Parser Tok α)} :
      Built name rounds p → (∀ q ∈ rest, Built name rounds q) →
        Built name rounds (.choice p rest)
  | optional {α : Type} {p : Parser Tok α} :
      Built name rounds p → Built name rounds p.optional
  | many {α : Type} {p : Parser Tok α} :
      Built name rounds p → Built name rounds (p.many rounds)
  | many1 {α : Type} {p : Parser Tok α} :
      Built name rounds p → Built name rounds (p.many1 rounds)
  | sepBy {α β : Type} {p : Parser Tok α} {sep : Parser Tok β} :
      Built name rounds p → Built name rounds sep →
        Built name rounds (p.sepBy rounds sep)
  | sepBy1 {α β : Type} {p : Parser Tok α} {sep : Parser Tok β} :
      Built name rounds p → Built name rounds sep →
        Built name rounds (p.sepBy1 rounds sep)
  | labeled {α : Type} (what : Text) {p : Parser Tok α} :
      Built name rounds p → Built name rounds (p.labeled what)

end LinuxRs.Compiler
