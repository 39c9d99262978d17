/-
Command-line arguments (user_program/src/cli.rs).

# Text

An argument is the list of its bytes, each as the character that `as char`
makes of it. The declared short flags are ASCII, so a value that is cut off
behind one starts at a character.

# Declarations

`cli_args!` turns a list of fields into a loop over `Parser::next_arg`. Here
the fields are a list, and what a field does to the struct is a function on
the struct's type `ρ`. `parseFrom` also notes, for every call of
`Parser::value`, for which flag it was made and where the value came from;
the program does not keep that.
-/
import Mathlib.Algebra.Ring.Nat
import Mathlib.Data.List.Basic

namespace LinuxRs.Cli

abbrev Text := List Char

-- ======== parser

inductive Arg
  | short (c : Char)
  | long (name : Text)
  | value (v : Text)

inductive CliError
  | unknownShort (c : Char)
  | unknownLong (name : Text)
  | unexpectedPositional (v : Text)
  | missingValue (flag : Text)
  | invalidValue (flag value : Text)

/-- `Parser`; the arguments that remain are in order. -/
structure Parser where
  remaining : List Text
  shortCluster : Option (Text × Nat)
  longValue : Option Text
  lastFlag : Option Text
  positionalOnly : Bool

def formatShort (c : Char) : Text := ['-', c]

def formatLong (name : Text) : Text := '-' :: '-' :: name

namespace Parser

def fromArgs (args : List Text) : Parser := ⟨args, none, none, none, false⟩

/-- The name and the value of a long option, split at the first `=`. -/
def splitLong (rest : Text) : Text × Option Text :=
  if '=' ∈ rest then
    (rest.takeWhile (· ≠ '='), some ((rest.dropWhile (· ≠ '=')).drop 1))
  else (rest, none)

def startCluster (p : Parser) (c : Char) (cluster : Text) : Option Arg × Parser :=
  (some (.short c), { p with
    shortCluster := if cluster = [] then p.shortCluster else some (c :: cluster, 1)
    lastFlag := some (formatShort c) })

def yieldValue (p : Parser) (raw : Text) : Option Arg × Parser :=
  (some (.value raw), { p with lastFlag := none })

/-- `next_arg` behind a `--` that was just read. -/
def nextPositional (p : Parser) : Option Arg × Parser :=
  match p.remaining with
  | [] => (none, p)
  | raw :: rest => { p with remaining := rest }.yieldValue raw

def nextRaw (p : Parser) : Option Arg × Parser :=
  match p.remaining with
  | [] => (none, p)
  | raw :: rest =>
    let p := { p with remaining := rest }
    if p.positionalOnly then p.yieldValue raw
    else
      match raw with
      | ['-', '-'] => { p with positionalOnly := true }.nextPositional
      | '-' :: '-' :: name =>
        (some (.long (splitLong name).1), { p with
          lastFlag := some (formatLong (splitLong name).1)
          longValue := (splitLong name).2 })
      | '-' :: c :: cluster => p.startCluster c cluster
      | raw => p.yieldValue raw

def nextArg (p : Parser) : Option Arg × Parser :=
  match p.shortCluster with
  | some (cluster, idx) =>
    let p := { p with shortCluster := none }
    match cluster.drop idx with
    | [] => p.nextRaw
    | ch :: more =>
      (some (.short ch), { p with
        shortCluster := if more = [] then none else some (cluster, idx + 1)
        lastFlag := some (formatShort ch) })
  | none => p.nextRaw

def lastFlagName (p : Parser) : Text := p.lastFlag.getD []

/-- Where the value of an option can stand. -/
inductive Source
  | long
  | cluster
  | next

def source (p : Parser) : Source :=
  if p.longValue.isSome then .long
  else if p.shortCluster.isSome then .cluster
  else .next

def value (p : Parser) : Except CliError Text × Parser :=
  match p.longValue with
  | some v => (.ok v, { p with longValue := none })
  | none =>
    match p.shortCluster with
    | some (cluster, idx) =>
      (.ok (cluster.drop idx), { p with shortCluster := none })
    | none =>
      match p.remaining with
      | [] => (.error (.missingValue p.lastFlagName), p)
      | v :: rest => (.ok v, { p with remaining := rest })

end Parser

-- ======== declarations

section Declaration

variable (ρ : Type)

/-- `FromCli::set_from_flag`: a boolean is set, every other field takes a
value and may refuse it. -/
inductive Action
  | flag (set : ρ → ρ)
  | value (set : Text → Text → ρ → Except CliError ρ)

/-- A field of a declaration: a positional sink, or flags with an action. -/
inductive Field
  | positional (push : Text → ρ → Except CliError ρ)
  | option (flags : List Text) (action : Action ρ)

/-- How `parse_from` ends; `-h`, `--help` and `--version` print and exit. -/
inductive Outcome
  | parsed (out : ρ)
  | failed (e : CliError)
  | help
  | version

end Declaration

variable {ρ : Type}

def matchShort (c : Char) (flag : Text) : Bool := flag = ['-', c] ∧ c ≠ '-'

def matchLong (name : Text) (flag : Text) : Bool := flag = formatLong name

def Field.action (hit : Text → Bool) : Field ρ → Option (Action ρ)
  | .positional _ => none
  | .option flags action => if flags.any hit then some action else none

def shortAction (fields : List (Field ρ)) (c : Char) : Option (Action ρ) :=
  fields.findSome? (Field.action (matchShort c))

def longAction (fields : List (Field ρ)) (name : Text) : Option (Action ρ) :=
  fields.findSome? (Field.action (matchLong name))

def sink (fields : List (Field ρ)) : Option (Text → ρ → Except CliError ρ) :=
  fields.findSome? fun
    | .positional push => some push
    | .option _ _ => none

/-- A call of `value` that the loop makes: the flag and the place the value
comes from. -/
abbrev Call := Arg × Parser.Source

def Action.run (p : Parser) (out : ρ) : Action ρ → Except CliError ρ × Parser
  | .flag set => (.ok (set out), p)
  | .value set =>
    match p.value with
    | (.error e, p) => (.error e, p)
    | (.ok raw, q) => (set p.lastFlagName raw out, q)

def Action.calls (arg : Arg) (p : Parser) : Action ρ → List Call
  | .flag _ => []
  | .value _ => [(arg, p.source)]

def handle (fields : List (Field ρ)) (arg : Arg) (p : Parser) (out : ρ) :
    (Outcome ρ ⊕ (Parser × ρ)) × List Call :=
  let finish (action : Action ρ) :=
    match action.run p out with
    | (.error e, _) => (.inl (.failed e), action.calls arg p)
    | (.ok out, q) => (.inr (q, out), action.calls arg p)
  match arg with
  | .value v =>
    match sink fields with
    | none => (.inl (.failed (.unexpectedPositional v)), [])
    | some push =>
      match push v out with
      | .error e => (.inl (.failed e), [])
      | .ok out => (.inr (p, out), [])
  | .short c =>
    match shortAction fields c with
    | some action => finish action
    | none => (.inl (if c = 'h' then .help else .failed (.unknownShort c)), [])
  | .long name =>
    match longAction fields name with
    | some action => finish action
    | none =>
      (.inl (if name = "help".toList then .help
        else if name = "version".toList then .version
        else .failed (.unknownLong name)), [])

/-- The loop of `parse_from`, for a number of rounds. -/
def parseLoop (fields : List (Field ρ)) :
    Nat → Parser → ρ → Option (Outcome ρ × List Call)
  | 0, _, _ => none
  | rounds + 1, p, out =>
    match p.nextArg with
    | (none, _) => some (.parsed out, [])
    | (some arg, p) =>
      match handle fields arg p out with
      | (.inl outcome, calls) => some (outcome, calls)
      | (.inr (p, out), calls) =>
        (parseLoop fields rounds p out).map fun r => (r.1, calls ++ r.2)

def roundsFor (args : List Text) : Nat :=
  (args.map fun arg => arg.length + 1).sum + 1

/-- `parse_from`, from the defaults of the struct. -/
def parseFrom (fields : List (Field ρ)) (default : ρ) (args : List Text) :
    Option (Outcome ρ × List Call) :=
  parseLoop fields (roundsFor args) (.fromArgs args) default

end LinuxRs.Cli
