/-
Word expansion (user_program/src/bin/sh/expand.rs): the tagged bytes of a
word, field splitting, and pathname expansion up to the walk over the
directories.

A tagged byte is kept as the character it becomes. Command substitution
and arithmetic run the shell again, and `match_glob` reads directories;
they are parameters.
-/
import LinuxRs.Shell.Text
import LinuxRs.Shell.State

namespace LinuxRs.Shell

/-- What expansion calls: the process, a subshell, the arithmetic, and
the directories. -/
structure ExpandEnv where
  processId : Nat
  runCommandSubstitution : Text → State → Except Text Text × State
  evalArith : Text → State → Except Text Int × State
  matchGlob : Text → List Text

structure Tag where
  byte : Char
  quoted : Bool

def pushStr (s : Text) (quoted : Bool) : List Tag :=
  (byteChars s).map fun b => ⟨b, quoted⟩

-- ======== parameters

def joinBlank : List Text → Text
  | [] => []
  | [s] => s
  | s :: rest => s ++ ' ' :: joinBlank rest

def State.positional (st : State) (index : Nat) : Text :=
  if index = 0 then st.arg0 else (st.params[index - 1]?).getD []

/-- `str::parse::<usize>` of digits, or zero. -/
def parseIndex (digits : Text) : Nat :=
  match parseDigits digits 0 with
  | some n => if n ≤ 4294967295 then n else 0
  | none => 0

def lookupParam (env : ExpandEnv) (name : Text) (st : State) : Option Text :=
  if name = ['?'] then some (showInt st.lastStatus)
  else if name = ['$'] then some (showNat env.processId)
  else if name = ['!'] then some (showNat st.lastBgPid)
  else if name = ['#'] then some (showNat st.params.length)
  else if name = ['@'] then some (joinBlank st.params)
  else if name = ['*'] then some (joinBlank st.params)
  else if (name.all fun c => '0' ≤ c ∧ c ≤ '9') ∧ name ≠ [] then
    some (st.positional (parseIndex name))
  else st.get name

/-- `"$@"`: the parameters with the synthetic separator between them. -/
def pushParams : List Text → List Tag
  | [] => []
  | [p] => pushStr p true
  | p :: rest => pushStr p true ++ ⟨'\x01', false⟩ :: pushParams rest

/-- Whether `${name OP word}` uses the word, by the operator. -/
def ParamOp.isMissing : ParamOp → Option Text → Bool
  | .dashUnset, value => value.isNone
  | .dashNull, value => value.getD [] = []
  | .eqUnset, value => value.isNone
  | .eqNull, value => value.getD [] = []
  | .plusUnset, value => value.isNone
  | .plusNull, value => value.getD [] = []
  | .qmarkUnset, value => value.isNone
  | .qmarkNull, value => value.getD [] = []

def ParamOp.inverts : ParamOp → Bool
  | .plusUnset => true
  | .plusNull => true
  | _ => false

def ParamOp.assigns : ParamOp → Bool
  | .eqUnset => true
  | .eqNull => true
  | _ => false

def ParamOp.errorsOnMiss : ParamOp → Bool
  | .qmarkUnset => true
  | .qmarkNull => true
  | _ => false

def missMessage (name word : Text) : Text :=
  if word = [] then name ++ ": parameter null or not set".toList
  else name ++ ": ".toList ++ word

def pushParam (name : Text) (length quoted : Bool) (expanded : Text)
    (st : State) : List Tag :=
  if length then pushStr (showNat expanded.length) quoted
  else if name = ['@'] ∧ quoted then pushParams st.params
  else pushStr expanded quoted

-- ======== words

mutual

def expandSeg (env : ExpandEnv) :
    Seg → State → Bool → Bool → Except Text (List Tag) × State
  | .lit s, st, quoted, _ => (.ok (pushStr s quoted), st)
  | .sQuoted s, st, _, _ => (.ok (pushStr s true), st)
  | .dQuoted inner, st, _, _ => expandInner env inner st true false
  | .tilde name, st, quoted, wordStart =>
    if wordStart then
      if name = [] then
        (.ok (pushStr ((st.get "HOME".toList).getD []) quoted), st)
      else (.ok (pushStr ('~' :: name) quoted), st)
    else (.ok (pushStr ['~'] quoted ++ pushStr name quoted), st)
  | .param name op arg length, st, quoted, _ =>
    let value := lookupParam env name st
    match op with
    | none => (.ok (pushParam name length quoted (value.getD []) st), st)
    | some op =>
      match arg with
      | none => (.ok (pushParam name length quoted (value.getD []) st), st)
      | some arg =>
        if op.isMissing value = op.inverts then
          -- The word is not used.
          let expanded := if op.inverts then [] else value.getD []
          (.ok (pushParam name length quoted expanded st), st)
        else
          match expandInner env arg st false true with
          | (.error e, st) => (.error e, st)
          | (.ok tagged, st) =>
            let new := tagged.map Tag.byte
            if op.errorsOnMiss then
              (.error (missMessage name new), st)
            else
              let st := if op.assigns then st.set name new else st
              (.ok (pushParam name length quoted new st), st)
  | .cmdSub src, st, quoted, _ =>
    match env.runCommandSubstitution src st with
    | (.error e, st) => (.error e, st)
    | (.ok captured, st) => (.ok (pushStr captured quoted), st)
  | .arith src, st, quoted, _ =>
    match env.evalArith src st with
    | (.error e, st) => (.error e, st)
    | (.ok val, st) => (.ok (pushStr (showInt val) quoted), st)

def expandInner (env : ExpandEnv) :
    List Seg → State → Bool → Bool → Except Text (List Tag) × State
  | [], st, _, _ => (.ok [], st)
  | seg :: rest, st, quoted, first =>
    match expandSeg env seg st quoted first with
    | (.error e, st) => (.error e, st)
    | (.ok tagged, st) =>
      match expandInner env rest st quoted false with
      | (.error e, st) => (.error e, st)
      | (.ok more, st) => (.ok (tagged ++ more), st)

end

def expandToTagged (env : ExpandEnv) (w : Word) (st : State)
    (parentQuoted : Bool) : Except Text (List Tag) × State :=
  expandInner env w st parentQuoted true

def expandWordUnsplit (env : ExpandEnv) (w : Word) (st : State) :
    Except Text Text × State :=
  match expandToTagged env w st false with
  | (.error e, st) => (.error e, st)
  | (.ok tagged, st) => (.ok (tagged.map Tag.byte), st)

-- ======== fields

def isAsciiWhitespace (c : Char) : Bool :=
  c == ' ' || c == '\t' || c == '\n' || c == '\x0c' || c == '\r'

def isGlobEscape (c : Char) : Bool :=
  c == '*' || c == '?' || c == '[' || c == '\\'

def Tag.escaped (t : Tag) : Text :=
  if t.quoted ∧ isGlobEscape t.byte then ['\\', t.byte] else [t.byte]

/-- The loop of `split_fields`; blanks that follow a blank take the same
branch. -/
def splitLoop (ifs : Text) : List Tag → List Text → Text → Bool → List Text
  | [], fields, current, haveField =>
    if haveField then fields ++ [current] else fields
  | t :: rest, fields, current, haveField =>
    if t.byte = '\x01' ∧ ¬ t.quoted then
      if haveField then splitLoop ifs rest (fields ++ [current]) [] false
      else splitLoop ifs rest fields current haveField
    else if ¬ t.quoted ∧ t.byte ∈ ifs ∧ isAsciiWhitespace t.byte then
      if haveField then splitLoop ifs rest (fields ++ [current]) [] false
      else splitLoop ifs rest fields current haveField
    else if ¬ t.quoted ∧ t.byte ∈ ifs then
      splitLoop ifs rest (fields ++ [current]) [] false
    else splitLoop ifs rest fields (current ++ t.escaped) true

def splitFields (tagged : List Tag) (ifs : Text) : List Text :=
  if tagged = [] then []
  else
    let fields := splitLoop (byteChars ifs) tagged [] [] false
    if fields = [] ∧ tagged.any Tag.quoted then [[]] else fields

def hasUnescapedMeta : Text → Bool
  | [] => false
  | ['\\'] => false
  | '\\' :: _ :: rest => hasUnescapedMeta rest
  | c :: rest =>
    if c = '*' ∨ c = '?' ∨ c = '[' then true else hasUnescapedMeta rest

def unescapeGlobs : Text → Text
  | [] => []
  | [c] => [c]
  | c :: n :: rest =>
    if c = '\\' ∧ isGlobEscape n then n :: unescapeGlobs rest
    else c :: unescapeGlobs (n :: rest)

def globExpand (env : ExpandEnv) (field : Text) : List Text :=
  if hasUnescapedMeta (byteChars field) then
    match env.matchGlob field with
    | [] => [unescapeGlobs (byteChars field)]
    | ms => ms
  else [unescapeGlobs (byteChars field)]

def State.ifs (st : State) : Text := (st.get "IFS".toList).getD " \t\n".toList

def expandWord (env : ExpandEnv) (w : Word) (st : State) :
    Except Text (List Text) × State :=
  match expandToTagged env w st false with
  | (.error e, st) => (.error e, st)
  | (.ok tagged, st) =>
    (.ok ((splitFields tagged st.ifs).flatMap (globExpand env)), st)

end LinuxRs.Shell
