/-
What is still open at the end of a text.

# The machine

The lexer is a set of functions that call each other. Here the same text is
read byte by byte, with the open regions on a stack: quotes, backticks,
`$(…)`, `$((…))`, and `${…}` with its head up to the operator. Where the
lexer looks one or two bytes ahead the machine remembers the bytes it has
seen.

# Completion

The machine is dead after a byte that no continuation can put right.
Everywhere else the innermost region can be closed, and then the next: from
every live place some text leads to the end of a word.
-/
import LinuxRs.Shell.Lexer

namespace LinuxRs.Shell.Prompt

-- ======== places

/-- Where the machine stands in `${…}` before the operator or the closing
brace: behind `${`, behind `${#`, in a name, behind a name, behind `:`. -/
inductive Head
  | first
  | hash
  | name
  | op
  | colon

/-- An open region. Of nested parentheses or braces all but `d` are
closed when one more closes. -/
inductive Mode
  | single
  | backtick
  | backtickEsc
  | double
  | doubleEsc
  /-- Behind `$`, and behind `$(`. -/
  | dollar
  | dollarParen
  | head (h : Head)
  | brace (d : Nat)
  | braceEsc (d : Nat)
  /-- `$(…)`, or `$((…))` if `dbl`, and quotes inside of them. -/
  | bal (dbl : Bool) (d : Nat)
  | balSingle (dbl : Bool) (d : Nat)
  | balDouble (dbl : Bool) (d : Nat)
  | balDoubleEsc (dbl : Bool) (d : Nat)
  | balEsc (dbl : Bool) (d : Nat)
  /-- Inside `$((…))` behind `$`, `$(`, `(` and `)`. -/
  | balDollar (d : Nat)
  | balDollarParen (d : Nat)
  | balOpen (d : Nat)
  | balClose (d : Nat)

inductive Base
  | start
  | startEsc
  | comment
  | word
  | wordEsc

/-- The open regions, the innermost first, and what is around them. -/
structure Place where
  open_ : List Mode
  base : Base

-- ======== steps

def Base.wordChar (c : Char) : Place :=
  if c = '\'' then ⟨[.single], .word⟩
  else if c = '"' then ⟨[.double], .word⟩
  else if c = '\x60' then ⟨[.backtick], .word⟩
  else if c = '$' then ⟨[.dollar], .word⟩
  else ⟨[], .word⟩

def Base.next : Base → Char → Place
  | .comment, c => if c = '\n' then ⟨[], .start⟩ else ⟨[], .comment⟩
  | .startEsc, c => if c = '\n' then ⟨[], .start⟩ else ⟨[], .word⟩
  | .wordEsc, _ => ⟨[], .word⟩
  | .start, c =>
    if isWordEnd c then ⟨[], .start⟩
    else if c = '#' then ⟨[], .comment⟩
    else if c = '\\' then ⟨[], .startEsc⟩
    else Base.wordChar c
  | .word, c =>
    if isWordEnd c then ⟨[], .start⟩
    else if c = '\\' then ⟨[], .wordEsc⟩
    else Base.wordChar c

def balNext (dbl : Bool) (d : Nat) (p : List Mode) (c : Char) : List Mode :=
  if c = '\'' then .balSingle dbl d :: p
  else if c = '"' then .balDouble dbl d :: p
  else if c = '\\' then .balEsc dbl d :: p
  else if dbl then
    if c = '$' then .balDollar d :: p
    else if c = '(' then .balOpen d :: p
    else if c = ')' then .balClose d :: p
    else .bal true d :: p
  else if c = '(' then .bal false (d + 1) :: p
  else if c = ')' then if d = 0 then p else .bal false (d - 1) :: p
  else .bal false d :: p

/-- A byte inside `${…}` behind the operator. -/
def braceNext (d : Nat) (p : List Mode) (c : Char) : List Mode :=
  if c = '}' then if d = 0 then p else .brace (d - 1) :: p
  else if c = '{' then .brace (d + 1) :: p
  else if c = '\\' then .braceEsc d :: p
  else if c = '\'' then .single :: .brace d :: p
  else if c = '"' then .double :: .brace d :: p
  else if c = '$' then .dollar :: .brace d :: p
  else if c = '\x60' then .backtick :: .brace d :: p
  else .brace d :: p

def isOperator (c : Char) : Bool := c == '-' || c == '=' || c == '+' || c == '?'

def opNext (p : List Mode) (c : Char) : Option (List Mode) :=
  if c = '}' then some p
  else if c = ':' then some (.head .colon :: p)
  else if isOperator c then some (.brace 0 :: p)
  else none

def nameNext (p : List Mode) (c : Char) : Option (List Mode) :=
  if isSpecialParam c then some (.head .op :: p)
  else if isNameStart c then some (.head .name :: p)
  else none

def Head.next (h : Head) (p : List Mode) (c : Char) : Option (List Mode) :=
  match h with
  | .first => if c = '#' then some (.head .hash :: p) else nameNext p c
  | .hash => if c = '}' then some p else nameNext p c
  | .name =>
    if isNameStart c || isAsciiDigit c then some (.head .name :: p)
    else opNext p c
  | .op => opNext p c
  | .colon => if isOperator c then some (.brace 0 :: p) else none

/-- A byte inside of the innermost region; behind `$` it may be the
surrounding region's. -/
def Mode.next (m : Mode) (p : List Mode) (c : Char) : Option (List Mode) :=
  match m with
  | .single => some (if c = '\'' then p else .single :: p)
  | .backtick =>
    some (if c = '\x60' then p
      else if c = '\\' then .backtickEsc :: p else .backtick :: p)
  | .backtickEsc => some (.backtick :: p)
  | .double =>
    some (if c = '"' then p
      else if c = '\\' then .doubleEsc :: p
      else if c = '\x60' then .backtick :: .double :: p
      else if c = '$' then .dollar :: .double :: p
      else .double :: p)
  | .doubleEsc => some (.double :: p)
  | .dollar => some p
  | .dollarParen =>
    some (if c = '(' then .bal true 0 :: p else balNext false 0 p c)
  | .head h => h.next p c
  | .brace d => some (braceNext d p c)
  | .braceEsc d => some (.brace d :: p)
  | .bal dbl d => some (balNext dbl d p c)
  | .balSingle dbl d =>
    some (if c = '\'' then .bal dbl d :: p else .balSingle dbl d :: p)
  | .balDouble dbl d =>
    some (if c = '\\' then .balDoubleEsc dbl d :: p
      else if c = '"' then .bal dbl d :: p else .balDouble dbl d :: p)
  | .balDoubleEsc dbl d => some (.balDouble dbl d :: p)
  | .balEsc dbl d => some (.bal dbl d :: p)
  | .balDollar d =>
    some (if c = '(' then .balDollarParen d :: p else balNext true d p c)
  | .balDollarParen d =>
    some (if c = '(' then .bal true 0 :: .bal true d :: p
      else balNext false 0 (.bal true d :: p) c)
  | .balOpen d =>
    some (if c = '(' then .bal true (d + 1) :: p else balNext true d p c)
  | .balClose d =>
    some (if c = ')' then if d = 0 then p else .bal true (d - 1) :: p
      else balNext true d p c)

def next : List Mode → Base → Char → Option Place
  | [], b, c => some (b.next c)
  | .dollar :: p, b, c =>
    if c = '(' then some ⟨.dollarParen :: p, b⟩
    else if c = '{' then some ⟨.head .first :: p, b⟩
    else if isSpecialParam c || isNameStart c then some ⟨p, b⟩
    else next p b c
  | m :: p, b, c => (m.next p c).map fun q => ⟨q, b⟩

def run : Place → Text → Option Place
  | q, [] => some q
  | q, c :: rest => (next q.open_ q.base c).bind fun q => run q rest

theorem run_append (q : Place) (s t : Text) :
    run q (s ++ t) = (run q s).bind fun q => run q t := by
  induction s generalizing q with
  | nil => rfl
  | cons c s ih =>
    simp only [List.cons_append, run]
    cases next q.open_ q.base c with
    | none => rfl
    | some q' => exact ih q'

-- ======== verdicts

/-- What the prompt makes of the lines typed so far. -/
inductive Verdict
  | complete
  | open_
  | inHead
  | dead

/-- At the end of the text a `$` stands for itself. -/
def verdictOf : List Mode → Base → Verdict
  | [], .start => .complete
  | [], .comment => .complete
  | [], .word => .complete
  | [], _ => .open_
  | .dollar :: p, b => verdictOf p b
  | .head _ :: _, _ => .inHead
  | _ :: _, _ => .open_

def verdict (q : Place) (src : Text) : Verdict :=
  match run q src with
  | some q => verdictOf q.open_ q.base
  | none => .dead

theorem verdictOf_ne_dead (p : List Mode) (b : Base) :
    verdictOf p b ≠ .dead := by
  induction p with
  | nil => cases b <;> exact nofun
  | cons m p ih =>
    cases m with
    | dollar => exact ih
    | _ => exact nofun

/-- The text ends between `${` and the closing brace or the operator. -/
def EndsInHead (src : Text) : Prop :=
  verdict ⟨[], .start⟩ (byteChars src) = .inHead

-- ======== completion

def Mode.completion : Mode → Text
  | .single => ['\'']
  | .backtick => ['\x60']
  | .backtickEsc => ['x', '\x60']
  | .double => ['"']
  | .doubleEsc => ['x', '"']
  | .dollar => ['x']
  | .dollarParen => [')']
  | .head .first => ['x', '}']
  | .head .colon => ['-', '}']
  | .head _ => ['}']
  | .brace d => List.replicate (d + 1) '}'
  | .braceEsc d => 'x' :: List.replicate (d + 1) '}'
  | .bal false d => List.replicate (d + 1) ')'
  | .bal true d => List.replicate (2 * (d + 1)) ')'
  | .balSingle false d => '\'' :: List.replicate (d + 1) ')'
  | .balSingle true d => '\'' :: List.replicate (2 * (d + 1)) ')'
  | .balDouble false d => '"' :: List.replicate (d + 1) ')'
  | .balDouble true d => '"' :: List.replicate (2 * (d + 1)) ')'
  | .balDoubleEsc false d => 'x' :: '"' :: List.replicate (d + 1) ')'
  | .balDoubleEsc true d => 'x' :: '"' :: List.replicate (2 * (d + 1)) ')'
  | .balEsc false d => 'x' :: List.replicate (d + 1) ')'
  | .balEsc true d => 'x' :: List.replicate (2 * (d + 1)) ')'
  | .balDollar d => 'x' :: List.replicate (2 * (d + 1)) ')'
  | .balDollarParen d => ')' :: List.replicate (2 * (d + 1)) ')'
  | .balOpen d => 'x' :: List.replicate (2 * (d + 1)) ')'
  | .balClose d => 'x' :: List.replicate (2 * (d + 1)) ')'

def completion : List Mode → Base → Text
  | [], .startEsc => ['x']
  | [], .wordEsc => ['x']
  | [], _ => []
  | m :: p, b => m.completion ++ completion p b

theorem run_braces (d : Nat) (p : List Mode) (b : Base) :
    run ⟨.brace d :: p, b⟩ (List.replicate (d + 1) '}') = some ⟨p, b⟩ := by
  induction d with
  | zero => rfl
  | succ d ih =>
    rw [List.replicate_succ]
    exact ih

theorem run_parens (d : Nat) (p : List Mode) (b : Base) :
    run ⟨.bal false d :: p, b⟩ (List.replicate (d + 1) ')') = some ⟨p, b⟩ := by
  induction d with
  | zero => rfl
  | succ d ih =>
    rw [List.replicate_succ]
    exact ih

theorem run_doubled (d : Nat) (p : List Mode) (b : Base) :
    run ⟨.bal true d :: p, b⟩ (List.replicate (2 * (d + 1)) ')') =
      some ⟨p, b⟩ := by
  induction d with
  | zero => rfl
  | succ d ih =>
    rw [show 2 * (d + 1 + 1) = 2 * (d + 1) + 1 + 1 by omega,
      List.replicate_succ, List.replicate_succ]
    exact ih

/-- The shortest text that closes a mode. -/
theorem run_mode_completion (m : Mode) (p : List Mode) (b : Base) :
    run ⟨m :: p, b⟩ m.completion = some ⟨p, b⟩ := by
  cases m with
  | head h => cases h <;> rfl
  | brace d => exact run_braces d p b
  | braceEsc d => exact run_braces d p b
  | bal dbl d =>
    cases dbl with
    | false => exact run_parens d p b
    | true => exact run_doubled d p b
  | balSingle dbl d =>
    cases dbl with
    | false => exact run_parens d p b
    | true => exact run_doubled d p b
  | balDouble dbl d =>
    cases dbl with
    | false => exact run_parens d p b
    | true => exact run_doubled d p b
  | balDoubleEsc dbl d =>
    cases dbl with
    | false => exact run_parens d p b
    | true => exact run_doubled d p b
  | balEsc dbl d =>
    cases dbl with
    | false => exact run_parens d p b
    | true => exact run_doubled d p b
  | balDollar d => exact run_doubled d p b
  | balDollarParen d => exact run_doubled d p b
  | balOpen d => exact run_doubled d p b
  | balClose d => exact run_doubled d p b
  | _ => rfl

theorem verdict_completion (p : List Mode) (b : Base) :
    verdict ⟨p, b⟩ (completion p b) = .complete := by
  induction p with
  | nil => cases b <;> rfl
  | cons m p ih =>
    unfold verdict at ih ⊢
    rw [completion, run_append, run_mode_completion]
    exact ih

theorem Mode.completion_ascii (m : Mode) :
    m.completion.all isAscii = true := by
  have hrep : ∀ n c, isAscii c = true →
      (List.replicate n c).all isAscii = true := by
    intro n c hc
    simp [hc]
  cases m with
  | head h => cases h <;> rfl
  | brace d => exact hrep _ _ rfl
  | braceEsc d => exact hrep _ _ rfl
  | bal dbl d => cases dbl <;> exact hrep _ _ rfl
  | balSingle dbl d => cases dbl <;> exact hrep _ _ rfl
  | balDouble dbl d => cases dbl <;> exact hrep _ _ rfl
  | balDoubleEsc dbl d => cases dbl <;> exact hrep _ _ rfl
  | balEsc dbl d => cases dbl <;> exact hrep _ _ rfl
  | balDollar d => exact hrep _ _ rfl
  | balDollarParen d => exact hrep _ _ rfl
  | balOpen d => exact hrep _ _ rfl
  | balClose d => exact hrep _ _ rfl
  | _ => rfl

theorem completion_ascii (p : List Mode) (b : Base) :
    (completion p b).all isAscii = true := by
  induction p with
  | nil => cases b <;> rfl
  | cons m p ih =>
    rw [completion, List.all_append, m.completion_ascii, ih]
    rfl

end LinuxRs.Shell.Prompt
