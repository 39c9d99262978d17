/-
The quoting round trip: `single_quote`
(user_program/src/bin/sh/builtin.rs), double quotes and backslashes, read
back by the lexer and by word expansion.

# What happens to a quoted character

The lexer and the expansion both take strings apart into bytes and push
each as a character, so only ASCII text comes back. An empty word has no
tagged bytes and gives no field, quoted or not. The quote that
`single_quote` writes for an embedded quote is itself unquoted, and so is
everything behind a backslash: such characters are split at when they are
in `IFS`. A backslash before `*`, `?` or `[` stays in the word until
pathname expansion takes it off, and takes off every second of a run of
backslashes, too.

`ReadsBack` is the law, `Unharmed` says which texts it holds of, and
`reads_back_iff` that these are all.
-/
import LinuxRs.Shell.Lexer
import LinuxRs.Shell.Expand

namespace LinuxRs.Shell

-- ======== quoting

/-- What `single_quote` writes for a character. -/
def sqEscape (c : Char) : Text :=
  if c = '\'' then ['\'', '\\', '\'', '\''] else [c]

def singleQuote (s : Text) : Text := '\'' :: (s.flatMap sqEscape ++ ['\''])

def isDqSpecial (c : Char) : Bool :=
  c == '$' || c == '\x60' || c == '"' || c == '\\'

def dqEscape (c : Char) : Text := if isDqSpecial c then ['\\', c] else [c]

/-- The text in double quotes, with backslashes where they are needed. -/
def doubleQuote (s : Text) : Text := '"' :: (s.flatMap dqEscape ++ ['"'])

def backslashQuote (s : Text) : Text := s.flatMap fun c => ['\\', c]

inductive QuoteStyle
  | single
  | double
  | backslash
  deriving DecidableEq

def QuoteStyle.quote : QuoteStyle → Text → Text
  | .single => singleQuote
  | .double => doubleQuote
  | .backslash => backslashQuote

def Delimited (rest : Text) : Prop :=
  ∀ c, rest.head? = some c → isWordEnd c = true

/-- The quoted text is lexed as one word, wherever a word may end, and
expands to the one field and to the string it was made from. -/
def ReadsBack (env : ExpandEnv) (st : State) (style : QuoteStyle) (s : Text) :
    Prop :=
  ∃ w, (∀ rest, Delimited rest →
      nextToken (byteChars (style.quote s) ++ rest) = .ok (.word w, rest)) ∧
    expandWord env w st = (.ok [s], st) ∧
    expandWordUnsplit env w st = (.ok s, st)

theorem readWordLoop_delimited {rest : Text} (h : Delimited rest) (fuel : Nat)
    (segs : List Seg) (lit : Text) (start : Bool) :
    readWordLoop (fuel + 1) rest segs lit start
      = .ok (flush segs lit, rest) := by
  cases rest with
  | nil => simp [readWordLoop]
  | cons c rest =>
    have hend : isWordEnd c = true := h c rfl
    simp [readWordLoop, hend]

/-- The segments of a single-quoted text: its quotes stand between. -/
def sqSegs : Text → Text → List Seg
  | [], body => [.sQuoted body]
  | c :: t, body =>
    if c = '\'' then .sQuoted body :: .lit ['\''] :: sqSegs t []
    else sqSegs t (body ++ [c])

def metaEscape (c : Char) : Text :=
  if c = '*' ∨ c = '?' ∨ c = '[' then ['\\', c] else [c]

theorem nextTokenWith_word {fuel : Nat} {src : Text} {c : Char}
    (hskip : skipBlanks false (c :: src) = c :: src)
    (hend : isWordEnd c = false) : nextTokenWith fuel (c :: src)
      = wordToken (c :: src) (readWord fuel (c :: src)) := by
  simp only [isWordEnd, Bool.or_eq_false_iff, beq_eq_false_iff_ne] at hend
  unfold nextTokenWith
  rw [hskip]
  split <;> simp_all

def QuoteStyle.word : QuoteStyle → Text → Word
  | .single, s => sqSegs (byteChars s) []
  | .double, s => [.dQuoted (flush [] (byteChars s))]
  | .backslash, s => flush [] ((byteChars s).flatMap metaEscape)

end LinuxRs.Shell
