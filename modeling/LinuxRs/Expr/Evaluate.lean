/-
`expr` (user_program/src/bin/expr.rs) beside the grammar it documents.

# Two evaluators of one shape

The levels, the keywords and the counting of parentheses are the same for
both, so they are written once, over a `Design`: what to do behind the `&`
level, how to compare, how to divide, how to cut a text, and what a `:` with
nothing behind it means. `program` is the code. `grammar` has a level for `|`
and wants every argument used, compares integers as integers, saturates the
one quotient that does not fit, and never panics.

# Where they agree

`clear` is the common part of the two: it gives nothing where they differ.
An evaluation over it is below one over either (`Design.Below`,
`eval_below`), so a list that is clear has one value.

A list of arguments stands for the range `s..e`, and what is left of it for
the index a level returns. The regular expressions are a parameter.
-/
import LinuxRs.Lib.Utf8

namespace LinuxRs.Expr

open LinuxRs.Lib

abbrev Text := List Char

-- ======== outcomes

/-- What an evaluation comes to; `more` is none of the ends of the code. -/
inductive Res (A : Type)
  | more
  | panic
  | error
  | ok (a : A)
  deriving DecidableEq

namespace Res

variable {A B : Type}

def bind : Res A → (A → Res B) → Res B
  | more, _ => more
  | panic, _ => panic
  | error, _ => error
  | ok a, f => f a

instance : Monad Res where
  pure := ok
  bind := bind

/-- More fuel gives the same or an answer where there was none. -/
def Below (x y : Res A) : Prop := x = more ∨ x = y

theorem Below.rfl {x : Res A} : Below x x := .inr (Eq.refl x)

theorem Below.bind {x y : Res A} {f g : A → Res B} (h : Below x y)
    (hf : ∀ a, Below (f a) (g a)) : Below (x >>= f) (y >>= g) := by
  rcases h with rfl | rfl
  · exact .inl (Eq.refl _)
  · cases x with
    | more => exact .inl (Eq.refl _)
    | panic => exact .rfl
    | error => exact .rfl
    | ok a => exact hf a

/-- It comes to an end, and to no panic if `calm`; what it gives
satisfies `P`. -/
structure Ends (calm : Bool) (P : A → Prop) (x : Res A) : Prop where
  settled : x ≠ more
  quiet : calm = true → x ≠ panic
  result : ∀ a, x = ok a → P a

variable {calm : Bool} {P : A → Prop} {Q : B → Prop}

theorem Ends.error : Ends calm P error where
  settled h := by cases h
  quiet _ h := by cases h
  result _ h := by cases h

theorem Ends.ok {a : A} (h : P a) : Ends calm P (ok a) where
  settled h := by cases h
  quiet _ h := by cases h
  result b hb := by
    injection hb with hb
    exact hb ▸ h

theorem Ends.panic : Ends false P panic where
  settled h := by cases h
  quiet h := by cases h
  result _ h := by cases h

theorem Ends.bind {x : Res A} {f : A → Res B} (h : Ends calm P x)
    (hf : ∀ a, P a → Ends calm Q (f a)) : Ends calm Q (x >>= f) := by
  cases x with
  | more => exact absurd rfl h.settled
  | panic =>
    exact
      { settled := nofun
        quiet := fun hcalm => absurd rfl (h.quiet hcalm)
        result := fun _ hok => by cases hok }
  | error => exact .error
  | ok a => exact hf a (h.result a rfl)

end Res

-- ======== numbers

def digits (s : Text) : Option Nat :=
  if s ≠ [] ∧ s.all Char.isDigit then
    some (s.foldl (fun n c => 10 * n + (c.toNat - 48)) 0)
  else none

def parseI64 (s : Text) : Option Int :=
  let value := match s with
    | '-' :: rest => (digits rest).map fun n => -(n : Int)
    | '+' :: rest => (digits rest).map Int.ofNat
    | _ => (digits s).map Int.ofNat
  value.filter fun v => -9223372036854775808 ≤ v ∧ v ≤ 9223372036854775807

def parseUsize (s : Text) : Option Nat :=
  let value := match s with
    | '+' :: rest => digits rest
    | _ => digits s
  value.filter fun v => v < 4294967296

/-- `saturating_add` and its like: the nearest `i64`. -/
def saturate (v : Int) : Int :=
  max (-9223372036854775808) (min v 9223372036854775807)

def shown (v : Int) : Text := (toString v).toList

def len (s : Text) : Nat := (Utf8.bytes s).length

-- ======== what the two differ in

/-- The steps that the code and the grammar do in their own way. -/
structure Design where
  finish : (List Text → Res (Text × List Text)) → Text → List Text → Res Text
  compare : Text → Text → Text → Res Text
  divide : Text → Int → Int → Res Text
  slice : Text → Nat → Nat → Res Text
  noPattern : Text → Res (Text × List Text)

/-- A compiled regular expression: `find`, and `captures` as the number of
groups and the first one. -/
structure Regex where
  find : Text → Option Text
  captures : Text → Option (Nat × Option Text)

section

variable (d : Design) (regex : Text → Option Regex)

-- ======== the levels

/-- The `while` loop of a level. Every round uses up an operator. -/
def chain (next : List Text → Res (Text × List Text)) (isOp : Text → Bool)
    (apply : Text → Text → Text → Res Text) :
    Nat → Text → List Text → Res (Text × List Text)
  | _, left, [] => .ok (left, [])
  | 0, _, _ :: _ => .more
  | rounds + 1, left, op :: rest =>
    if isOp op then
      next rest >>= fun r => apply op left r.1 >>= fun v =>
        chain next isOp apply rounds v r.2
    else .ok (left, op :: rest)

def level (next : List Text → Res (Text × List Text)) (isOp : Text → Bool)
    (apply : Text → Text → Text → Res Text) (args : List Text) :
    Res (Text × List Text) :=
  next args >>= fun r => chain next isOp apply r.2.length r.1 r.2

def zero : Text := ['0']

def truth (b : Bool) : Text := if b then ['1'] else zero

def andValue (_ left r : Text) : Res Text :=
  .ok (if left = [] ∨ r = [] ∨ left = zero ∨ r = zero then zero else left)

def holds {A : Type} [LT A] [DecidableEq A] [DecidableLT A] (op : Text)
    (left right : A) : Bool :=
  if op = ['='] then left = right
  else if op = ['!', '='] then left ≠ right
  else if op = ['<'] then left < right
  else if op = ['<', '='] then ¬ right < left
  else if op = ['>'] then right < left
  else ¬ left < right

def isComparison (op : Text) : Bool :=
  [['='], ['!', '='], ['<'], ['<', '='], ['>'], ['>', '=']].contains op

def sumValue (op left right : Text) : Res Text :=
  let l := (parseI64 left).getD 0
  let r := (parseI64 right).getD 0
  .ok (shown (saturate (if op = ['+'] then l + r else l - r)))

def productValue (op left right : Text) : Res Text :=
  let l := (parseI64 left).getD 0
  let r := (parseI64 right).getD 1
  if op = ['*'] then .ok (shown (saturate (l * r)))
  else if r = 0 then .error
  else d.divide op l r

/-- `str::replace` of a backslash and a character by that character. -/
def unescape (c : Char) : Text → Text
  | '\\' :: x :: rest =>
    if x = c then c :: unescape c rest else '\\' :: unescape c (x :: rest)
  | x :: rest => x :: unescape c rest
  | [] => []

def matchValue (re : Regex) (left : Text) : Text :=
  match re.find left with
  | none => zero
  | some found =>
    match re.captures left with
    | none => shown (len found)
    | some (groups, first) =>
      if 1 < groups then first.getD found else shown (len found)

/-- The loop of `match_pat`, behind its first operand. The pattern is an
argument as it is. -/
def matchLoop : Text → List Text → Res (Text × List Text)
  | left, [':'] :: pat :: rest =>
    match regex ('^' :: unescape ')' (unescape '(' pat)) with
    | none => .error
    | some re => matchLoop (matchValue re left) rest
  | left, [[':']] => d.noPattern left
  | left, rest => .ok (left, rest)

def findText (needle : Text) : Text → Option Nat
  | [] => if needle = [] then some 0 else none
  | c :: cs =>
    if needle.isPrefixOf (c :: cs) then some 0
    else (findText needle cs).map (· + c.utf8Size)

/-- The arguments up to the parenthesis that closes, and behind it. -/
def closing : Nat → List Text → Option (List Text × List Text)
  | _, [] => none
  | depth, tok :: rest =>
    if tok = [')'] ∧ depth = 0 then some ([], rest)
    else
      (closing (if tok = ['('] then depth + 1
        else if tok = [')'] then depth - 1 else depth) rest).map
          fun r => (tok :: r.1, r.2)

def isKeyword (tok : Text) : Option Nat :=
  if tok = "length".toList then some 1
  else if tok = "index".toList ∨ tok = "match".toList then some 2
  else if tok = "substr".toList then some 3
  else none

def callValue (tok : Text) (a b c : Text) : Res Text :=
  if tok = "length".toList then .ok (shown (len a))
  else if tok = "index".toList then
    .ok (shown (((findText b a).map Nat.succ).getD 0 : Nat))
  else if tok = "substr".toList then
    d.slice a ((parseUsize b).getD 1) ((parseUsize c).getD 0)
  else
    match regex b with
    | none => .error
    | some re => .ok (((re.find a).map fun m => shown (len m)).getD zero)

/-- `primary`, over the evaluation of what parentheses enclose. -/
def primary (ev : List Text → Res Text) : List Text → Res (Text × List Text)
  | [] => .error
  | tok :: rest =>
    match isKeyword tok with
    | some n =>
      if rest.length < n then .error
      else
        callValue d regex tok (rest.getD 0 []) (rest.getD 1 [])
          (rest.getD 2 []) >>= fun v => .ok (v, rest.drop n)
    | none =>
      if tok = ['('] then
        match closing 0 rest with
        | none => .error
        | some (inner, behind) => ev inner >>= fun v => .ok (v, behind)
      else if tok = ['+'] ∧ rest ≠ [] then primary ev rest
      else .ok (tok, rest)

def matchPat (ev : List Text → Res Text) (args : List Text) :
    Res (Text × List Text) :=
  primary d regex ev args >>= fun r => matchLoop d regex r.1 r.2

def muldiv (ev : List Text → Res Text) : List Text → Res (Text × List Text) :=
  level (matchPat d regex ev) ([['*'], ['/'], ['%']].contains ·)
    (productValue d)

def addsub (ev : List Text → Res Text) : List Text → Res (Text × List Text) :=
  level (muldiv d regex ev) ([['+'], ['-']].contains ·) sumValue

def cmp (ev : List Text → Res Text) : List Text → Res (Text × List Text) :=
  level (addsub d regex ev) isComparison d.compare

def and (ev : List Text → Res Text) : List Text → Res (Text × List Text) :=
  level (cmp d regex ev) (· = ['&']) andValue

/-- `eval` with `pipe`, for a depth of parentheses. -/
def eval : Nat → List Text → Res Text
  | 0, _ => .more
  | depth + 1, args =>
    if args = [] then .error
    else
      and d regex (eval depth) args >>= fun r =>
        d.finish (and d regex (eval depth)) r.1 r.2

end

-- ======== the designs

/-- `str_[start..end]` of `substr`, if the sum fits and both ends are between
characters. -/
def cutOut (s : Text) (pos count : Nat) : Option Text :=
  let start := min (pos - 1) (len s)
  if 4294967296 ≤ start + count then none
  else
    (Utf8.cut s start).bind fun r =>
      (Utf8.cut r.2 (min (start + count) (len s) - start)).map (·.1)

def overflows (l r : Int) : Prop := l = -9223372036854775808 ∧ r = -1

instance (l r : Int) : Decidable (overflows l r) :=
  inferInstanceAs (Decidable (_ ∧ _))

def quotient (op : Text) (l r : Int) : Text :=
  shown (if op = ['/'] then l.tdiv r else l.tmod r)

/-- The code: `pipe` drops what is left, comparisons are of texts. -/
def program : Design where
  finish _ v _ := .ok v
  compare op left right := .ok (truth (holds op left right))
  divide op l r := if overflows l r then .panic else .ok (quotient op l r)
  slice s pos count := match cutOut s pos count with
    | some t => .ok t
    | none => .panic
  noPattern left := .ok (left, [])

def compared (op left right : Text) : Bool :=
  match parseI64 left, parseI64 right with
  | some l, some r => holds op l r
  | _, _ => holds op left right

/-- What the two have in common: no argument is left behind an expression,
integers compare as their texts do, no quotient overflows, no cut is inside a
character, and no `:` is last. -/
def clear : Design where
  finish _ v rest := if rest = [] then .ok v else .more
  compare op left right :=
    if compared op left right = holds op left right then
      .ok (truth (holds op left right))
    else .more
  divide op l r := if overflows l r then .more else .ok (quotient op l r)
  slice s pos count := match cutOut s pos count with
    | some t => .ok t
    | none => .more
  noPattern _ := .more

-- ======== below

/-- The one design answers what the other does, wherever it answers. -/
structure Design.Below (d d' : Design) : Prop where
  finish : ∀ next next' v rest, (∀ l, Res.Below (next l) (next' l)) →
    Res.Below (d.finish next v rest) (d'.finish next' v rest)
  compare : ∀ op l r, Res.Below (d.compare op l r) (d'.compare op l r)
  divide : ∀ op l r, Res.Below (d.divide op l r) (d'.divide op l r)
  slice : ∀ s pos n, Res.Below (d.slice s pos n) (d'.slice s pos n)
  noPattern : ∀ v, Res.Below (d.noPattern v) (d'.noPattern v)

section

variable {d d' : Design} {regex : Text → Option Regex}
  {next next' : List Text → Res (Text × List Text)} {isOp : Text → Bool}
  {apply apply' : Text → Text → Text → Res Text} {ev ev' : List Text → Res Text}

end

/-- A level that ends on every list up to a length and uses an argument up. -/
def Steps (calm : Bool) (n : Nat) (next : List Text → Res (Text × List Text)) :
    Prop :=
  ∀ l, l.length ≤ n → Res.Ends calm (fun r => r.2.length < l.length) (next l)

/-- The design ends wherever the evaluation it is given does. -/
structure Design.Ends (d : Design) (calm : Bool) : Prop where
  finish : ∀ next n v rest, Steps calm n next → rest.length ≤ n →
    Res.Ends calm (fun _ => True) (d.finish next v rest)
  compare : ∀ op l r, Res.Ends calm (fun _ => True) (d.compare op l r)
  divide : ∀ op l r, Res.Ends calm (fun _ => True) (d.divide op l r)
  slice : ∀ s pos n, Res.Ends calm (fun _ => True) (d.slice s pos n)
  noPattern : ∀ v, Res.Ends calm (fun r => r.2 = []) (d.noPattern v)

section

variable {d : Design} {calm : Bool} {regex : Text → Option Regex} {n : Nat}
  {next : List Text → Res (Text × List Text)} {isOp : Text → Bool}
  {apply : Text → Text → Text → Res Text} {ev : List Text → Res Text}

end

end LinuxRs.Expr
