/-
The operator-precedence builder (user_program/src/compiler/parse.rs).

# The builder

A `PrattBuilder` holds an atom parser and three tables of operators; each
entry has its binding powers and a fold. `prattParse` recurses on the operand
of an operator and loops on the operators behind an operand; both run on one
number of steps, and `none` is that these were not enough.

# Expressions

`expr` is the use the builder is made for: atoms are the tokens of some kinds
and expressions in parentheses, which `lazy` closes over, and the folds build
the syntax tree.
-/
import LinuxRs.Compiler.Combinators

namespace LinuxRs.Compiler

variable {Tok T α : Type}

-- ======== operators

structure PrefixOp (Tok T : Type) where
  kind : Tok
  bp : Nat
  fold : T → T

structure InfixOp (Tok T : Type) where
  kind : Tok
  lbp : Nat
  rbp : Nat
  fold : T → T → T

structure PostfixOp (Tok T : Type) where
  kind : Tok
  lbp : Nat
  fold : T → T

structure PrattBuilder (Tok T : Type) where
  atom : Parser Tok T
  prefixes : List (PrefixOp Tok T)
  infixes : List (InfixOp Tok T)
  postfixes : List (PostfixOp Tok T)

def pratt (atom : Parser Tok T) : PrattBuilder Tok T := ⟨atom, [], [], []⟩

namespace PrattBuilder

def prefixed (b : PrattBuilder Tok T) (kind : Tok) (fold : T → T) :
    PrattBuilder Tok T :=
  { b with prefixes := b.prefixes ++ [⟨kind, 100, fold⟩] }

def infixLeft (b : PrattBuilder Tok T) (kind : Tok) (bp : Nat)
    (fold : T → T → T) : PrattBuilder Tok T :=
  { b with infixes := b.infixes ++ [⟨kind, bp, bp + 1, fold⟩] }

def infixRight (b : PrattBuilder Tok T) (kind : Tok) (bp : Nat)
    (fold : T → T → T) : PrattBuilder Tok T :=
  { b with infixes := b.infixes ++ [⟨kind, bp + 1, bp, fold⟩] }

def postfixed (b : PrattBuilder Tok T) (kind : Tok) (fold : T → T) :
    PrattBuilder Tok T :=
  { b with postfixes := b.postfixes ++ [⟨kind, 100, fold⟩] }

end PrattBuilder

-- ======== pratt_parse

variable [DecidableEq Tok]

/-- The loop on infix and postfix operators; `operand` is the recursive
call. -/
def prattLoop (b : PrattBuilder Tok T) (operand : Nat → Parser Tok T)
    (minBp : Nat) : Nat → T → Parser Tok T
  | 0, _, _ => none
  | rounds + 1, lhs, s =>
    match s.peek with
    | none => some (.ok lhs, s)
    | some t =>
      match b.postfixes.find? (fun op => op.kind = t.kind) with
      | some op =>
        if op.lbp < minBp then some (.ok lhs, s)
        else prattLoop b operand minBp rounds (op.fold lhs) s.bump
      | none =>
        match b.infixes.find? (fun op => op.kind = t.kind) with
        | some op =>
          if op.lbp < minBp then some (.ok lhs, s)
          else
            ((operand op.rbp).bind fun rhs =>
              prattLoop b operand minBp rounds (op.fold lhs rhs)) s.bump
        | none => some (.ok lhs, s)

def prattParse (b : PrattBuilder Tok T) : Nat → Nat → Parser Tok T
  | 0, _ => fun _ => none
  | steps + 1, minBp => fun s =>
    let head : Parser Tok T :=
      match s.peek.bind fun t =>
        b.prefixes.find? (fun op => op.kind = t.kind) with
      | some op => fun s => ((prattParse b steps op.bp).map op.fold) s.bump
      | none => b.atom
    head.bind (prattLoop b (prattParse b steps) minBp (steps + 1)) s

def PrattBuilder.build (b : PrattBuilder Tok T) (steps : Nat) : Parser Tok T :=
  prattParse b steps 0

-- ======== expressions

inductive Assoc where
  | left
  | right
  deriving DecidableEq

/-- An infix operator as the table declares it. -/
structure Operator (Tok : Type) where
  kind : Tok
  power : Nat
  assoc : Assoc
  deriving DecidableEq

/-- A line of a table: `prefix`, or `infix_left` and `infix_right`. -/
inductive Decl (Tok : Type) where
  | pre (kind : Tok)
  | bin (op : Operator Tok)
  deriving DecidableEq

/-- A parsed expression. -/
inductive Tree (Tok A : Type) where
  | atom (value : A)
  | pre (kind : Tok) (operand : Tree Tok A)
  | bin (op : Operator Tok) (lhs rhs : Tree Tok A)
  deriving DecidableEq

/-- Which tokens are leaves, and which two are the parentheses. -/
structure Atoms (Tok A : Type) where
  leaf : Tok → Bool
  value : Token Tok → A
  lparen : Tok
  rparen : Tok
  name : Tok → Text

variable {A : Type}

def Decl.add (b : PrattBuilder Tok (Tree Tok A)) :
    Decl Tok → PrattBuilder Tok (Tree Tok A)
  | .pre kind => b.prefixed kind (.pre kind)
  | .bin op =>
    if op.assoc = .left then b.infixLeft op.kind op.power (.bin op)
    else b.infixRight op.kind op.power (.bin op)

def Atoms.parser (atoms : Atoms Tok A) (expr : Parser Tok (Tree Tok A)) :
    Parser Tok (Tree Tok A) :=
  .choice ((Parser.tokIf atoms.leaf "expression".toList).map fun t =>
      .atom (atoms.value t))
    [((Parser.tok atoms.name atoms.lparen).andThen
      (expr.andThen (.tok atoms.name atoms.rparen))).seq.map fun r => r.2.1]

/-- The expressions of a table; `lazy` makes the parser again for each
pair of parentheses. -/
def expr (atoms : Atoms Tok A) (table : List (Decl Tok)) :
    Nat → Parser Tok (Tree Tok A)
  | 0 => fun _ => none
  | steps + 1 =>
    (table.foldl Decl.add (pratt (atoms.parser (expr atoms table steps)))).build
      (steps + 1)

end LinuxRs.Compiler
