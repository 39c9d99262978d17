/-
The precedence law of the operator-precedence builder.

# Layouts

A layout is a syntax tree with its parentheses; a tree has one with the
fewest. The parser reads a layout back whenever its binding powers agree with
its shape (`Layout.Good`): an operator takes its operands as far as the
layout says, because what stands on the spines binds as it must. The parser
enters its loop with the tree of each left operand in turn, so the law
(`prattParse_layout`) speaks of the loop that is left to run.

# Neighbouring powers

A left operator of power `p` gets the powers `p` and `p + 1`, a right one
`p + 1` and `p`. So a right operator reaches the level above its own: where
that level holds a right operator too, or is the level of the prefix
operators, it takes an operand away from it. With no such neighbours every
tree's layout is good, and with them one is read as another tree.
-/
import LinuxRs.Compiler.Pratt
import Mathlib.Data.List.Forall2

namespace LinuxRs.Compiler

variable {Tok A α β : Type}

-- ======== layouts

def Operator.lbp (op : Operator Tok) : Nat :=
  if op.assoc = .left then op.power else op.power + 1

def Operator.rbp (op : Operator Tok) : Nat :=
  if op.assoc = .left then op.power + 1 else op.power

inductive Item (Tok A : Type) where
  | atom (value : A)
  | kind (kind : Tok)

/-- An expression as it is written: a tree with its parentheses. -/
inductive Layout (Tok A : Type) where
  | atom (value : A)
  | paren (inner : Layout Tok A)
  | pre (kind : Tok) (operand : Layout Tok A)
  | bin (op : Operator Tok) (lhs rhs : Layout Tok A)

namespace Layout

def tree : Layout Tok A → Tree Tok A
  | .atom value => .atom value
  | .paren inner => inner.tree
  | .pre kind operand => .pre kind operand.tree
  | .bin op lhs rhs => .bin op lhs.tree rhs.tree

def items (atoms : Atoms Tok A) : Layout Tok A → List (Item Tok A)
  | .atom value => [.atom value]
  | .paren inner =>
    .kind atoms.lparen :: inner.items atoms ++ [.kind atoms.rparen]
  | .pre kind operand => .kind kind :: operand.items atoms
  | .bin op lhs rhs => lhs.items atoms ++ .kind op.kind :: rhs.items atoms

def leftSpine : Layout Tok A → List (Operator Tok)
  | .bin op lhs _ => op :: lhs.leftSpine
  | _ => []

def rightPowers : Layout Tok A → List Nat
  | .bin op _ rhs => op.rbp :: rhs.rightPowers
  | .pre _ operand => 100 :: operand.rightPowers
  | _ => []

def Good : Layout Tok A → Prop
  | .atom _ => True
  | .paren inner => inner.Good
  | .pre _ operand => operand.Good ∧ ∀ op ∈ operand.leftSpine, 100 ≤ op.lbp
  | .bin op lhs rhs =>
    lhs.Good ∧ rhs.Good ∧ (∀ n ∈ lhs.rightPowers, op.lbp < n) ∧
      ∀ inner ∈ rhs.leftSpine, op.rbp ≤ inner.lbp

def Over (table : List (Decl Tok)) : Layout Tok A → Prop
  | .atom _ => True
  | .paren inner => inner.Over table
  | .pre kind operand => .pre kind ∈ table ∧ operand.Over table
  | .bin op lhs rhs => .bin op ∈ table ∧ lhs.Over table ∧ rhs.Over table

def parenIf (wrap : Bool) (x : Layout Tok A) : Layout Tok A :=
  if wrap then .paren x else x

end Layout

/-- An operand needs parentheses if its operator binds less tightly, or as
tightly on the side to which the operator does not associate. -/
def Operator.wraps (op : Operator Tok) (side : Assoc) : Tree Tok A → Bool
  | .bin inner _ _ =>
    inner.power < op.power || (inner.power = op.power && op.assoc ≠ side)
  | _ => false

namespace Tree

def isBin : Tree Tok A → Bool
  | .bin _ _ _ => true
  | _ => false

/-- The layout with the fewest parentheses; the prefix operators bind more
tightly than every infix operator. -/
def layout : Tree Tok A → Layout Tok A
  | .atom value => .atom value
  | .pre kind operand => .pre kind (.parenIf operand.isBin operand.layout)
  | .bin op lhs rhs =>
    .bin op (.parenIf (op.wraps .left lhs) lhs.layout)
      (.parenIf (op.wraps .right rhs) rhs.layout)

def Over (table : List (Decl Tok)) : Tree Tok A → Prop
  | .atom _ => True
  | .pre kind operand => .pre kind ∈ table ∧ operand.Over table
  | .bin op lhs rhs => .bin op ∈ table ∧ lhs.Over table ∧ rhs.Over table

end Tree

def Atoms.Spells (atoms : Atoms Tok A) (t : Token Tok) : Item Tok A → Prop
  | .atom value => atoms.leaf t.kind = true ∧ atoms.value t = value
  | .kind kind => t.kind = kind

/-- A table of distinct operators below the prefix power, of one
associativity for each power; the tokens of the atoms are no operators where
an atom may stand. -/
structure ValidTable (atoms : Atoms Tok A) (table : List (Decl Tok)) :
    Prop where
  distinct : ∀ op op', .bin op ∈ table → .bin op' ∈ table →
    op.kind = op'.kind → op = op'
  power : ∀ op, .bin op ∈ table → op.power < 100
  assoc : ∀ op op', .bin op ∈ table → .bin op' ∈ table →
    op.power = op'.power → op.assoc = op'.assoc
  leaf : ∀ kind, .pre kind ∈ table → atoms.leaf kind = false
  lparen : .pre atoms.lparen ∉ table
  paren : atoms.leaf atoms.lparen = false
  rparen : ∀ op, .bin op ∈ table → op.kind ≠ atoms.rparen

-- ======== stream

def Stream.At (s : Stream Tok) (tokens rest : List (Token Tok)) : Prop :=
  s.tokens = tokens ∧ s.pos ≤ tokens.length ∧ tokens.drop s.pos = rest

variable {s s' : Stream Tok} {tokens rest : List (Token Tok)} {t : Token Tok}

theorem Stream.At.new (tokens : List (Token Tok)) :
    (Stream.new tokens).At tokens tokens :=
  ⟨rfl, Nat.zero_le _, rfl⟩

theorem Stream.At.peek (h : s.At tokens rest) : s.peek = rest.head? := by
  obtain ⟨rfl, -, rfl⟩ := h
  rfl

theorem Stream.At.bump (h : s.At tokens (t :: rest)) :
    s.bump.At tokens rest := by
  have hpeek := h.peek
  obtain ⟨rfl, _, hdrop⟩ := h
  have hbump : s.bump = { s with pos := s.pos + 1 } := by
    unfold Stream.bump
    rw [hpeek]
    rfl
  have hlt : s.pos < s.tokens.length := by
    apply Nat.lt_of_not_le
    intro hge
    rw [List.drop_eq_nil_of_le hge] at hdrop
    cases hdrop
  rw [hbump]
  refine ⟨rfl, hlt, ?_⟩
  rw [← List.tail_drop, hdrop]
  rfl

theorem Stream.At.pos_eq (h : s.At tokens []) : s.pos = tokens.length :=
  Nat.le_antisymm h.2.1 (List.drop_eq_nil_iff.mp h.2.2)

theorem tokIf_reads {pred : Tok → Bool} (label : Text)
    (h : s.At tokens (t :: rest)) (hpred : pred t.kind = true) :
    Parser.tokIf pred label s = some (.ok t, s.bump) := by
  unfold Parser.tokIf
  rw [h.peek]
  exact if_pos hpred

theorem tok_reads [DecidableEq Tok] (name : Tok → Text) {kind : Tok}
    (h : s.At tokens (t :: rest)) (hkind : t.kind = kind) :
    Parser.tok name kind s = some (.ok t, s.bump) :=
  tokIf_reads (name kind) h (decide_eq_true hkind)

theorem tokIf_fails {pred : Tok → Bool} (label : Text)
    (h : s.At tokens (t :: rest)) (hpred : pred t.kind = false) :
    ∃ e q, Parser.tokIf pred label s = some (.error e, q) ∧
      (q.rewind s.pos).At tokens (t :: rest) := by
  refine ⟨(s.fail label).1, (s.fail label).2, ?_, ?_⟩
  · unfold Parser.tokIf
    rw [h.peek]
    exact if_neg (by rw [hpred]; exact Bool.false_ne_true)
  · unfold Stream.fail Stream.record Stream.rewind
    split
    next => exact h
    next => exact h

-- ======== the tables

variable [DecidableEq Tok]

def Operator.entry (op : Operator Tok) : InfixOp Tok (Tree Tok A) :=
  ⟨op.kind, op.lbp, op.rbp, .bin op⟩

def Decl.infixOp : Decl Tok → Option (InfixOp Tok (Tree Tok A))
  | .pre _ => none
  | .bin op => some op.entry

def Decl.prefixOp : Decl Tok → Option (PrefixOp Tok (Tree Tok A))
  | .pre kind => some ⟨kind, 100, .pre kind⟩
  | .bin _ => none

theorem Decl.add_eq (b : PrattBuilder Tok (Tree Tok A)) (d : Decl Tok) :
    d.add b = { b with
        prefixes := b.prefixes ++ d.prefixOp.toList
        infixes := b.infixes ++ d.infixOp.toList } := by
  cases d with
  | pre kind =>
    show b.prefixed kind (.pre kind) = _
    simp [PrattBuilder.prefixed, Decl.prefixOp, Decl.infixOp]
  | bin op =>
    have hadd : Decl.add b (.bin op) =
        { b with infixes := b.infixes ++ [op.entry] } := by
      unfold Decl.add Operator.entry Operator.lbp Operator.rbp
      dsimp only
      split
      next => rfl
      next => rfl
    rw [hadd]
    simp [Decl.prefixOp, Decl.infixOp]

theorem foldl_add_eq (table : List (Decl Tok))
    (b : PrattBuilder Tok (Tree Tok A)) : table.foldl (fun b d => d.add b) b =
      { b with
        prefixes := b.prefixes ++ table.filterMap Decl.prefixOp
        infixes := b.infixes ++ table.filterMap Decl.infixOp } := by
  induction table generalizing b with
  | nil => simp
  | cons d table ih =>
    rw [List.foldl_cons, ih, Decl.add_eq]
    cases d with
    | pre kind => simp [Decl.prefixOp, Decl.infixOp, List.filterMap_cons]
    | bin op => simp [Decl.prefixOp, Decl.infixOp, List.filterMap_cons]

def builder (atom : Parser Tok (Tree Tok A)) (table : List (Decl Tok)) :
    PrattBuilder Tok (Tree Tok A) :=
  { atom := atom
    prefixes := table.filterMap Decl.prefixOp
    infixes := table.filterMap Decl.infixOp
    postfixes := [] }

theorem expr_succ (atoms : Atoms Tok A) (table : List (Decl Tok)) (steps : Nat) :
    expr atoms table (steps + 1) =
      prattParse (builder (atoms.parser (expr atoms table steps)) table)
        (steps + 1) 0 := by
  show (table.foldl (fun b d => d.add b)
    (pratt (atoms.parser (expr atoms table steps)))).build (steps + 1) = _
  rw [foldl_add_eq]
  rfl

section

variable {atoms : Atoms Tok A} {table : List (Decl Tok)}
  {atom : Parser Tok (Tree Tok A)}

theorem mem_infixes {entry : InfixOp Tok (Tree Tok A)} :
    entry ∈ (builder atom table).infixes ↔
      ∃ op, .bin op ∈ table ∧ op.entry = entry := by
  show entry ∈ table.filterMap Decl.infixOp ↔ _
  rw [List.mem_filterMap]
  constructor
  · intro h
    obtain ⟨d, hd, heq⟩ := h
    cases d with
    | pre kind => cases heq
    | bin op => exact ⟨op, hd, Option.some.inj heq⟩
  · intro h
    obtain ⟨op, hop, heq⟩ := h
    exact ⟨.bin op, hop, congrArg some heq⟩

theorem mem_prefixes {entry : PrefixOp Tok (Tree Tok A)} :
    entry ∈ (builder atom table).prefixes ↔
      ∃ kind, .pre kind ∈ table ∧ ⟨kind, 100, .pre kind⟩ = entry := by
  show entry ∈ table.filterMap Decl.prefixOp ↔ _
  rw [List.mem_filterMap]
  constructor
  · intro h
    obtain ⟨d, hd, heq⟩ := h
    cases d with
    | pre kind => exact ⟨kind, hd, Option.some.inj heq⟩
    | bin op => cases heq
  · intro h
    obtain ⟨kind, hkind, heq⟩ := h
    exact ⟨.pre kind, hkind, congrArg some heq⟩

theorem find_infix (hvalid : ValidTable atoms table) {op : Operator Tok}
    (hop : .bin op ∈ table) :
    (builder atom table).infixes.find? (fun e => e.kind = op.kind) =
      some op.entry := by
  have hmem : op.entry ∈ (builder atom table).infixes :=
    mem_infixes.mpr ⟨op, hop, rfl⟩
  cases hfind :
      (builder atom table).infixes.find? (fun e => e.kind = op.kind) with
  | none =>
    have hno := List.find?_eq_none.mp hfind op.entry hmem
    exact absurd (decide_eq_true rfl) hno
  | some found =>
    have hkind := List.find?_some hfind
    rw [decide_eq_true_iff] at hkind
    obtain ⟨other, hother, rfl⟩ :=
      mem_infixes.mp (List.mem_of_find?_eq_some hfind)
    rw [hvalid.distinct other op hother hop hkind]

theorem find_prefix {kind : Tok} (hkind : .pre kind ∈ table) :
    (builder atom table).prefixes.find? (fun e => e.kind = kind) =
      some ⟨kind, 100, .pre kind⟩ := by
  have hmem : ⟨kind, 100, .pre kind⟩ ∈ (builder atom table).prefixes :=
    mem_prefixes.mpr ⟨kind, hkind, rfl⟩
  cases hfind :
      (builder atom table).prefixes.find? (fun e => e.kind = kind) with
  | none =>
    have hno := List.find?_eq_none.mp hfind _ hmem
    exact absurd (decide_eq_true rfl) hno
  | some found =>
    have heq := List.find?_some hfind
    rw [decide_eq_true_iff] at heq
    obtain ⟨other, hother, rfl⟩ :=
      mem_prefixes.mp (List.mem_of_find?_eq_some hfind)
    rw [show other = kind from heq]

theorem find_prefix_none {kind : Tok} (hkind : .pre kind ∉ table) :
    (builder atom table).prefixes.find? (fun e => e.kind = kind) = none := by
  apply List.find?_eq_none.mpr
  intro entry hentry heq
  obtain ⟨other, hother, rfl⟩ := mem_prefixes.mp hentry
  have hother' : other = kind := of_decide_eq_true heq
  rw [hother'] at hother
  exact hkind hother

-- ======== the law

/-- What stands behind a layout is no operator that an operand at its right
end would take. -/
def Follows (table : List (Decl Tok)) (rest : List (Token Tok)) (n : Nat) :
    Prop :=
  ∀ t ∈ rest.head?, ∀ op, .bin op ∈ table → op.kind = t.kind → op.lbp < n

/-- The loop stops at what may follow. -/
theorem prattLoop_stops (hat : s.At tokens rest) {n : Nat}
    (hfollows : Follows table rest n) (operand : Nat → Parser Tok (Tree Tok A))
    (rounds : Nat) (lhs : Tree Tok A) :
    prattLoop (builder atom table) operand n (rounds + 1) lhs s =
      some (.ok lhs, s) := by
  unfold prattLoop
  rw [hat.peek]
  cases hhead : rest.head? with
  | none => rfl
  | some t =>
    have hnone : (builder atom table).postfixes.find?
        (fun op => op.kind = t.kind) = none := rfl
    dsimp only
    rw [hnone]
    dsimp only
    split
    next entry hfind =>
      obtain ⟨op, hop, rfl⟩ :=
        mem_infixes.mp (List.mem_of_find?_eq_some hfind)
      have hkind := List.find?_some hfind
      rw [decide_eq_true_iff] at hkind
      exact if_pos (hfollows t hhead op hop hkind)
    next => rfl

theorem prattLoop_takes (hvalid : ValidTable atoms table)
    (hat : s.At tokens (t :: rest)) {op : Operator Tok} {n : Nat}
    (hop : .bin op ∈ table) (hkind : t.kind = op.kind) (hle : n ≤ op.lbp)
    (operand : Nat → Parser Tok (Tree Tok A)) (rounds : Nat)
    (lhs : Tree Tok A) :
    prattLoop (builder atom table) operand n (rounds + 1) lhs s =
      ((operand op.rbp).bind fun rhs =>
        prattLoop (builder atom table) operand n rounds (.bin op lhs rhs))
          s.bump := by
  have hnone : (builder atom table).postfixes.find?
      (fun op => op.kind = t.kind) = none := rfl
  conv_lhs => unfold prattLoop
  rw [hat.peek, List.head?_cons]
  dsimp only
  rw [hnone]
  rw [hkind, find_infix hvalid hop]
  exact if_neg (Nat.not_lt.mpr hle)

theorem atom_reads (e : Parser Tok (Tree Tok A)) (hat : s.At tokens (t :: rest))
    (hleaf : atoms.leaf t.kind = true) :
    atoms.parser e s = some (.ok (.atom (atoms.value t)), s.bump) := by
  have htok := tokIf_reads "expression".toList hat hleaf
  unfold Atoms.parser Parser.choice Parser.map
  rw [show s.rewind s.pos = s from rfl, htok]
  rfl

/-- An atom in parentheses is the tree of what stands in them. -/
theorem atom_parens (hparen : atoms.leaf atoms.lparen = false)
    {e : Parser Tok (Tree Tok A)} {v : Tree Tok A} {u : Token Tok}
    {more : List (Token Tok)} (hat : s.At tokens (t :: more))
    (ht : t.kind = atoms.lparen) (hu : u.kind = atoms.rparen)
    (he : ∀ q : Stream Tok, q.At tokens more →
      ∃ q', e q = some (.ok v, q') ∧ q'.At tokens (u :: rest)) :
    ∃ s', atoms.parser e s = some (.ok v, s') ∧ s'.At tokens rest := by
  have hleaf : atoms.leaf t.kind = false := by
    rw [ht]
    exact hparen
  obtain ⟨err, q, hfail, hq⟩ := tokIf_fails "expression".toList hat hleaf
  have hopen := tok_reads atoms.name hq ht
  obtain ⟨q', hinner, hq'⟩ := he _ hq.bump
  have hclose := tok_reads atoms.name hq' hu
  refine ⟨q'.bump, ?_, hq'.bump⟩
  unfold Atoms.parser Parser.choice
  rw [show s.rewind s.pos = s from rfl]
  have hfirst : (Parser.tokIf atoms.leaf "expression".toList).map
      (fun t => (.atom (atoms.value t) : Tree Tok A)) s =
        some (.error err, q) := by
    unfold Parser.map
    rw [hfail]
    rfl
  rw [hfirst]
  dsimp only [Option.bind_some, Parser.choiceFrom]
  unfold Parser.map Parser.seq Parser.andThen Parser.bind Parser.map
  rw [hopen]
  dsimp only [Option.bind_some]
  rw [hinner]
  dsimp only [Option.bind_some]
  rw [hclose]
  rfl

theorem prattParse_operand (hat : s.At tokens (t :: rest))
    (hkind : .pre t.kind ∉ table) (steps n : Nat) :
    prattParse (builder atom table) (steps + 1) n s =
      (atom.bind (prattLoop (builder atom table)
        (prattParse (builder atom table) steps) n (steps + 1))) s := by
  conv_lhs => unfold prattParse
  rw [hat.peek, List.head?_cons, Option.bind_some, find_prefix_none hkind]
  rfl

theorem prattParse_prefixed (hat : s.At tokens (t :: rest))
    (hkind : .pre t.kind ∈ table) (steps n : Nat) :
    prattParse (builder atom table) (steps + 1) n s =
      (((prattParse (builder atom table) steps 100).map (.pre t.kind)).bind
        (prattLoop (builder atom table)
          (prattParse (builder atom table) steps) n (steps + 1))) s.bump := by
  conv_lhs => unfold prattParse
  rw [hat.peek, List.head?_cons, Option.bind_some, find_prefix hkind]
  rfl

/-- A layout is read back as its tree, whatever binding power it is read with
that its operators exceed. By induction on the layout. -/
theorem prattParse_layout (hvalid : ValidTable atoms table)
    (x : Layout Tok A) (hgood : x.Good) (hover : x.Over table)
    (n steps minBp : Nat) {s : Stream Tok} {ts rest : List (Token Tok)}
    (hts : List.Forall₂ atoms.Spells ts (x.items atoms))
    (hat : s.At tokens (ts ++ rest)) (hn : ts.length ≤ n)
    (hsteps : ts.length ≤ steps) (hleft : ∀ op ∈ x.leftSpine, minBp ≤ op.lbp)
    (hright : ∀ m ∈ x.rightPowers, Follows table rest m) :
    ∃ rounds s', steps + 2 ≤ rounds + ts.length ∧ s'.At tokens rest ∧
      prattParse (builder (atoms.parser (expr atoms table n)) table)
          (steps + 1) minBp s =
        prattLoop (builder (atoms.parser (expr atoms table n)) table)
          (prattParse (builder (atoms.parser (expr atoms table n)) table) steps)
          minBp rounds x.tree s' := by
  induction x generalizing n steps minBp s ts rest with
  | atom value =>
    obtain ⟨t, ts, ⟨hleaf, hvalue⟩, hnil, rfl⟩ :=
      List.forall₂_cons_right_iff.mp hts
    obtain rfl := List.forall₂_nil_right_iff.mp hnil
    refine ⟨steps + 1, s.bump, Nat.le_refl _, hat.bump, ?_⟩
    have hpre : Decl.pre t.kind ∉ table := by
      intro hmem
      rw [hvalid.leaf _ hmem] at hleaf
      cases hleaf
    rw [prattParse_operand hat hpre]
    unfold Parser.bind
    rw [atom_reads _ hat hleaf, hvalue]
    rfl
  | paren inner ih =>
    obtain ⟨t, ts, ht, hmore, rfl⟩ := List.forall₂_cons_right_iff.mp hts
    have hsplit := List.take_append_drop (inner.items atoms).length ts
    have hinner := List.forall₂_take_append ts _ _ hmore
    obtain ⟨u, us, hu, hnil, hdrop⟩ := List.forall₂_cons_right_iff.mp
      (List.forall₂_drop_append ts _ _ hmore)
    obtain rfl := List.forall₂_nil_right_iff.mp hnil
    generalize ts.take (inner.items atoms).length = body at hsplit hinner
    rw [hdrop] at hsplit
    subst hsplit
    have hlen : (t :: (body ++ [u])).length = body.length + 2 := by simp
    have hrest : t :: (body ++ [u]) ++ rest = t :: (body ++ u :: rest) := by
      simp
    rw [hrest] at hat
    have hpre : Decl.pre t.kind ∉ table := by
      rw [show t.kind = atoms.lparen from ht]
      exact hvalid.lparen
    obtain ⟨m, rfl⟩ : ∃ m, n = m + 1 := ⟨n - 1, by omega⟩
    obtain ⟨s', hatom, hs'⟩ := atom_parens hvalid.paren
      (e := expr atoms table (m + 1)) hat ht hu (fun q hq => by
        have hfollows : ∀ k, Follows table (u :: rest) k := by
          intro k v hv op hop hkind
          cases hv
          exact absurd (hkind.trans hu) (hvalid.rparen op hop)
        obtain ⟨rounds, q', hrounds, hq', hrun⟩ :=
          ih hgood hover m m 0 hinner hq (by omega) (by omega)
            (fun op _ => Nat.zero_le _) (fun k _ => hfollows k)
        obtain ⟨more, rfl⟩ : ∃ more, rounds = more + 1 :=
          ⟨rounds - 1, by omega⟩
        refine ⟨q', ?_, hq'⟩
        rw [expr_succ, hrun]
        exact prattLoop_stops hq' (hfollows 0) _ more _)
    refine ⟨steps + 1, s', by omega, hs', ?_⟩
    rw [prattParse_operand hat hpre]
    unfold Parser.bind
    rw [hatom]
    rfl
  | pre kind operand ih =>
    obtain ⟨hgood, hspine⟩ := hgood
    obtain ⟨hkind, hover⟩ := hover
    obtain ⟨t, ts, ht, hmore, rfl⟩ := List.forall₂_cons_right_iff.mp hts
    rw [← show t.kind = kind from ht] at hkind
    simp only [List.length_cons] at hn hsteps
    obtain ⟨less, rfl⟩ : ∃ less, steps = less + 1 := ⟨steps - 1, by omega⟩
    obtain ⟨rounds, s', hrounds, hs', hrun⟩ :=
      ih hgood hover n less 100 hmore hat.bump (by omega) (by omega) hspine
        (fun m hm => hright m (List.mem_cons_of_mem _ hm))
    obtain ⟨more, rfl⟩ : ∃ more, rounds = more + 1 := ⟨rounds - 1, by omega⟩
    refine ⟨less + 2, s', by simp only [List.length_cons]; omega, hs', ?_⟩
    rw [prattParse_prefixed hat hkind]
    unfold Parser.bind Parser.map
    rw [hrun, prattLoop_stops hs' (hright 100 (List.mem_cons_self)),
      show t.kind = kind from ht]
    rfl
  | bin op lhs rhs ihl ihr =>
    obtain ⟨hgoodl, hgoodr, hends, hspine⟩ := hgood
    obtain ⟨hop, hoverl, hoverr⟩ := hover
    have hsplit := List.take_append_drop (lhs.items atoms).length ts
    have hlhs := List.forall₂_take_append ts _ _ hts
    obtain ⟨t, us, ht, hrhs, hdrop⟩ := List.forall₂_cons_right_iff.mp
      (List.forall₂_drop_append ts _ _ hts)
    generalize ts.take (lhs.items atoms).length = body at hsplit hlhs
    rw [hdrop] at hsplit
    subst hsplit
    have hlen : (body ++ t :: us).length = body.length + us.length + 1 := by
      simp only [List.length_append, List.length_cons]
      omega
    rw [List.append_assoc, List.cons_append] at hat
    -- the operator stands behind the left operand
    have hfollows : ∀ m ∈ lhs.rightPowers,
        Follows table (t :: (us ++ rest)) m := by
      intro m hm v hv other hother hkind
      cases hv
      rw [hvalid.distinct other op hother hop (hkind.trans ht)]
      exact hends m hm
    obtain ⟨rounds, s', hrounds, hs', hrun⟩ :=
      ihl hgoodl hoverl n steps minBp hlhs hat (by omega) (by omega)
        (fun inner hinner => hleft inner (List.mem_cons_of_mem _ hinner))
        hfollows
    obtain ⟨less, rfl⟩ : ∃ less, steps = less + 1 := ⟨steps - 1, by omega⟩
    obtain ⟨turns, s'', hturns, hs'', hoperand⟩ :=
      ihr hgoodr hoverr n less op.rbp hrhs hs'.bump (by omega) (by omega)
        hspine (fun m hm => hright m (List.mem_cons_of_mem _ hm))
    obtain ⟨more, rfl⟩ : ∃ more, rounds = more + 1 := ⟨rounds - 1, by omega⟩
    obtain ⟨last, rfl⟩ : ∃ last, turns = last + 1 := ⟨turns - 1, by omega⟩
    refine ⟨more, s'', by omega, hs'', ?_⟩
    rw [hrun, prattLoop_takes hvalid hs' hop ht
      (hleft op (List.mem_cons_self))]
    conv_lhs => unfold Parser.bind
    rw [hoperand, prattLoop_stops hs'' (hright op.rbp (List.mem_cons_self))]
    rfl

/-- A layout over a valid table is parsed to its tree. -/
theorem expr_parse_layout (hvalid : ValidTable atoms table)
    (x : Layout Tok A) (hgood : x.Good) (hover : x.Over table)
    (hts : List.Forall₂ atoms.Spells tokens (x.items atoms)) {steps : Nat}
    (hsteps : tokens.length < steps) :
    (expr atoms table steps).parse tokens = some (.ok x.tree) := by
  obtain ⟨less, rfl⟩ : ∃ less, steps = less + 1 := ⟨steps - 1, by omega⟩
  have hat : (Stream.new tokens).At tokens (tokens ++ []) := by
    rw [List.append_nil]
    exact .new tokens
  have hfollows : ∀ m, Follows table ([] : List (Token Tok)) m := by
    intro m t ht
    cases ht
  obtain ⟨rounds, s', hrounds, hs', hrun⟩ :=
    prattParse_layout hvalid x hgood hover less less 0 hts hat (by omega)
      (by omega) (fun op _ => Nat.zero_le _) (fun m _ => hfollows m)
  obtain ⟨more, rfl⟩ : ∃ more, rounds = more + 1 := ⟨rounds - 1, by omega⟩
  have hloop : prattLoop (builder (atoms.parser (expr atoms table less)) table)
        (prattParse (builder (atoms.parser (expr atoms table less)) table) less)
        0 (more + 1) x.tree s' = some (.ok x.tree, s') :=
    prattLoop_stops hs' (hfollows 0) _ more _
  unfold Parser.parse
  rw [expr_succ, hrun, hloop]
  show some (Parser.conclude (.ok x.tree, s')) = _
  unfold Parser.conclude
  dsimp only
  rw [hs'.1, if_pos hs'.pos_eq]

-- ======== the layouts

/-- The level of an operand: the power of its operator, or that of the prefix
operators. -/
def Tree.level : Tree Tok A → Nat
  | .bin op _ _ => op.power
  | _ => 100

/-- Two operators that compete for an operand: a right one and the one of the
level above, when that is right too or a prefix operator. -/
def Collides (table : List (Decl Tok)) : Prop :=
  ∃ low : Operator Tok, .bin low ∈ table ∧ low.assoc = .right ∧
    ((∃ high : Operator Tok, .bin high ∈ table ∧ high.assoc = .right ∧
        high.power = low.power + 1) ∨
      ((∃ kind, .pre kind ∈ table) ∧ 100 = low.power + 1))

@[simp] theorem Layout.tree_parenIf (wrap : Bool) (x : Layout Tok A) :
    (Layout.parenIf wrap x).tree = x.tree := by
  cases wrap
  · rfl
  · rfl

theorem Tree.layout_tree (tree : Tree Tok A) : tree.layout.tree = tree := by
  induction tree with
  | atom value => rfl
  | pre kind operand ih =>
    simp only [Tree.layout, Layout.tree, Layout.tree_parenIf, ih]
  | bin op lhs rhs ihl ihr =>
    simp only [Tree.layout, Layout.tree, Layout.tree_parenIf, ihl, ihr]

theorem Layout.over_parenIf {wrap : Bool} {x : Layout Tok A}
    (h : x.Over table) : (Layout.parenIf wrap x).Over table := by
  cases wrap
  · exact h
  · exact h

theorem Tree.layout_over {tree : Tree Tok A} (h : tree.Over table) :
    tree.layout.Over table := by
  induction tree with
  | atom value => trivial
  | pre kind operand ih => exact ⟨h.1, Layout.over_parenIf (ih h.2)⟩
  | bin op lhs rhs ihl ihr =>
    exact ⟨h.1, Layout.over_parenIf (ihl h.2.1),
      Layout.over_parenIf (ihr h.2.2)⟩

theorem Layout.good_parenIf {wrap : Bool} {x : Layout Tok A} (h : x.Good) :
    (Layout.parenIf wrap x).Good := by
  cases wrap
  · exact h
  · exact h

theorem Operator.wraps_level {op : Operator Tok} {side : Assoc}
    {operand : Tree Tok A} (h : op.wraps side operand = false)
    (hpower : op.power < 100) : op.power ≤ operand.level ∧
      (operand.level = op.power → op.assoc = side) := by
  cases operand with
  | atom value => exact ⟨Nat.le_of_lt hpower, fun heq => by
      rw [← heq] at hpower
      exact absurd hpower (Nat.lt_irrefl _)⟩
  | pre kind operand => exact ⟨Nat.le_of_lt hpower, fun heq => by
      rw [← heq] at hpower
      exact absurd hpower (Nat.lt_irrefl _)⟩
  | bin inner lhs rhs =>
    simp only [Operator.wraps, Bool.or_eq_false_iff, Bool.and_eq_false_iff,
      decide_eq_false_iff_not, Nat.not_lt, not_not] at h
    exact ⟨h.1, fun heq => h.2.resolve_left fun hne => hne heq⟩

theorem Layout.mem_leftSpine_parenIf {wrap : Bool} {x : Layout Tok A}
    {op : Operator Tok} (h : op ∈ (Layout.parenIf wrap x).leftSpine) :
    wrap = false ∧ op ∈ x.leftSpine := by
  cases wrap with
  | false => exact ⟨rfl, h⟩
  | true => cases h

theorem Layout.mem_rightPowers_parenIf {wrap : Bool} {x : Layout Tok A}
    {n : Nat} (h : n ∈ (Layout.parenIf wrap x).rightPowers) :
    wrap = false ∧ n ∈ x.rightPowers := by
  cases wrap with
  | false => exact ⟨rfl, h⟩
  | true => cases h

theorem Tree.leftSpine_level (hvalid : ValidTable atoms table)
    {tree : Tree Tok A} (hover : tree.Over table) :
    ∀ op ∈ tree.layout.leftSpine, tree.level ≤ op.power := by
  induction tree with
  | atom value => exact nofun
  | pre kind operand ih => exact nofun
  | bin op lhs rhs ihl ihr =>
    intro inner hinner
    rcases List.mem_cons.mp hinner with rfl | hinner
    · exact Nat.le_refl _
    · obtain ⟨hwrap, hinner⟩ := Layout.mem_leftSpine_parenIf hinner
      exact Nat.le_trans (Operator.wraps_level hwrap (hvalid.power op hover.1)).1
        (ihl hover.2.1 inner hinner)

/-- A right power of a layout is that of a prefix operator or of an operator
of the level of the tree. -/
theorem Tree.rightPowers_level (hvalid : ValidTable atoms table)
    {tree : Tree Tok A} (hover : tree.Over table) :
    ∀ n ∈ tree.layout.rightPowers, (n = 100 ∧ ∃ kind, .pre kind ∈ table) ∨
      ∃ op : Operator Tok, .bin op ∈ table ∧ tree.level ≤ op.power ∧
        n = op.rbp := by
  induction tree with
  | atom value => exact nofun
  | pre kind operand ih =>
    intro n hn
    rcases List.mem_cons.mp hn with rfl | hn
    · exact .inl ⟨rfl, kind, hover.1⟩
    · obtain ⟨hwrap, hn⟩ := Layout.mem_rightPowers_parenIf hn
      cases operand with
      | atom value => cases hn
      | pre inner operand => exact ih hover.2 n hn
      | bin op lhs rhs => cases hwrap
  | bin op lhs rhs ihl ihr =>
    intro n hn
    rcases List.mem_cons.mp hn with rfl | hn
    · exact .inr ⟨op, hover.1, Nat.le_refl _, rfl⟩
    · obtain ⟨hwrap, hn⟩ := Layout.mem_rightPowers_parenIf hn
      have hlevel := (Operator.wraps_level hwrap (hvalid.power op hover.1)).1
      refine (ihr hover.2.2 n hn).imp_right fun h => ?_
      obtain ⟨inner, hinner, hle, hpower⟩ := h
      exact ⟨inner, hinner, Nat.le_trans hlevel hle, hpower⟩

/-- Without a collision, an unwrapped left operand binds tighter than its
operator. -/
theorem Operator.lbp_lt_rightPower (hvalid : ValidTable atoms table)
    (hno : ¬ Collides table) {op : Operator Tok} (hop : .bin op ∈ table)
    {lhs : Tree Tok A} (hover : lhs.Over table)
    (hwrap : op.wraps .left lhs = false) :
    ∀ n ∈ lhs.layout.rightPowers, op.lbp < n := by
  intro n hn
  have hpower := hvalid.power op hop
  obtain ⟨hlevel, hside⟩ := Operator.wraps_level hwrap hpower
  rcases Tree.rightPowers_level hvalid hover n hn with hpre | hbin
  · obtain ⟨rfl, hkind⟩ := hpre
    unfold Operator.lbp
    split
    next => exact hpower
    next hright =>
      have hassoc : op.assoc = .right := by
        cases h : op.assoc with
        | left => exact absurd h hright
        | right => rfl
      have hne : 100 ≠ op.power + 1 := fun heq =>
        hno ⟨op, hop, hassoc, .inr ⟨hkind, heq⟩⟩
      omega
  · obtain ⟨inner, hinner, hle, rfl⟩ := hbin
    unfold Operator.lbp Operator.rbp
    cases hassoc : op.assoc with
    | left =>
      rw [if_pos rfl]
      split
      next => omega
      next hright =>
        have hne : op.power ≠ inner.power := fun heq =>
          hright ((hvalid.assoc op inner hop hinner heq).symm.trans hassoc)
        omega
    | right =>
      have hlt : lhs.level ≠ op.power := fun heq => by
        rw [hassoc] at hside
        cases hside heq
      have hne : inner.assoc = .right → inner.power ≠ op.power + 1 :=
        fun hin heq => hno ⟨op, hop, hassoc, .inl ⟨inner, hinner, hin, heq⟩⟩
      rw [if_neg (by decide)]
      cases hin : inner.assoc with
      | left =>
        rw [if_pos rfl]
        omega
      | right =>
        have hne := hne hin
        rw [if_neg (by decide)]
        omega

theorem Operator.rbp_le_leftSpine (hvalid : ValidTable atoms table)
    {op : Operator Tok} (hop : .bin op ∈ table) {rhs : Tree Tok A}
    (hover : rhs.Over table) (hwrap : op.wraps .right rhs = false) :
    ∀ inner ∈ rhs.layout.leftSpine, op.rbp ≤ inner.lbp := by
  intro inner hinner
  obtain ⟨hlevel, hside⟩ := Operator.wraps_level hwrap (hvalid.power op hop)
  have hle := Tree.leftSpine_level hvalid hover inner hinner
  have hlbp : inner.power ≤ inner.lbp := by
    unfold Operator.lbp
    split
    next => exact Nat.le_refl _
    next => exact Nat.le_succ _
  unfold Operator.rbp
  split
  next hleft =>
    have hne : rhs.level ≠ op.power := fun heq => by
      rw [hleft] at hside
      cases hside heq
    omega
  next => omega

theorem Tree.layout_good (hvalid : ValidTable atoms table)
    (hno : ¬ Collides table) {tree : Tree Tok A} (hover : tree.Over table) :
    tree.layout.Good := by
  induction tree with
  | atom value => trivial
  | pre kind operand ih =>
    refine ⟨Layout.good_parenIf (ih hover.2), fun op hop => ?_⟩
    obtain ⟨hwrap, hop⟩ := Layout.mem_leftSpine_parenIf hop
    cases operand with
    | atom value => cases hop
    | pre inner operand => cases hop
    | bin inner lhs rhs => cases hwrap
  | bin op lhs rhs ihl ihr =>
    refine ⟨Layout.good_parenIf (ihl hover.2.1),
      Layout.good_parenIf (ihr hover.2.2), fun n hn => ?_,
      fun inner hinner => ?_⟩
    · obtain ⟨hwrap, hn⟩ := Layout.mem_rightPowers_parenIf hn
      exact Operator.lbp_lt_rightPower hvalid hno hover.1 hover.2.1 hwrap n hn
    · obtain ⟨hwrap, hinner⟩ := Layout.mem_leftSpine_parenIf hinner
      exact Operator.rbp_le_leftSpine hvalid hover.1 hover.2.2 hwrap inner
        hinner

-- ======== neighbouring powers

/-- The layout of a tree over the table is parsed to that tree. -/
def ReadsBack (atoms : Atoms Tok A) (table : List (Decl Tok)) : Prop :=
  ∀ tree : Tree Tok A, tree.Over table → ∀ tokens,
    List.Forall₂ atoms.Spells tokens (tree.layout.items atoms) →
      ∀ steps, tokens.length < steps →
        (expr atoms table steps).parse tokens = some (.ok tree)

theorem not_readsBack (hvalid : ValidTable atoms table) (tree : Tree Tok A)
    (x : Layout Tok A) (tokens : List (Token Tok)) (htree : tree.Over table)
    (hgood : x.Good) (hover : x.Over table) (hne : x.tree ≠ tree)
    (hitems : tree.layout.items atoms = x.items atoms)
    (hts : List.Forall₂ atoms.Spells tokens (x.items atoms)) :
    ¬ ReadsBack atoms table := by
  intro h
  have hread := h tree htree tokens (by rw [hitems]; exact hts) _
    (Nat.lt_succ_self _)
  have hother := expr_parse_layout hvalid x hgood hover hts
    (Nat.lt_succ_self _)
  rw [hother] at hread
  exact hne (Except.ok.inj (Option.some.inj hread))

def Token.ofKind (kind : Tok) : Token Tok := ⟨kind, [], 1, 1⟩

theorem Operator.lbp_of_right {op : Operator Tok} (h : op.assoc = .right) :
    op.lbp = op.power + 1 := by
  unfold Operator.lbp
  rw [h]
  rfl

theorem Operator.rbp_of_right {op : Operator Tok} (h : op.assoc = .right) :
    op.rbp = op.power := by
  unfold Operator.rbp
  rw [h]
  rfl

/-- Where two levels collide, the higher operator takes the lower one into its
right operand. -/
theorem high_takes_low (hvalid : ValidTable atoms table)
    (hleaf : atoms.leaf t.kind = true) {low high : Operator Tok}
    (hlow : .bin low ∈ table) (hlowa : low.assoc = .right)
    (hhigh : .bin high ∈ table) (hhigha : high.assoc = .right)
    (hpower : high.power = low.power + 1) : ¬ ReadsBack atoms table := by
  have hwrap : low.wraps .left (Tree.bin high (Tree.atom (atoms.value t))
      (.atom (atoms.value t))) = false := by
    simp only [Operator.wraps, hpower]
    simp
  apply not_readsBack hvalid
    (.bin low (.bin high (.atom (atoms.value t)) (.atom (atoms.value t)))
      (.atom (atoms.value t)))
    (.bin high (.atom (atoms.value t))
      (.bin low (.atom (atoms.value t)) (.atom (atoms.value t))))
    [t, .ofKind high.kind, t, .ofKind low.kind, t]
  · exact ⟨hlow, ⟨hhigh, trivial, trivial⟩, trivial⟩
  · refine ⟨trivial, ⟨trivial, trivial, nofun, nofun⟩, nofun, fun op hop => ?_⟩
    have heq : high.rbp = low.lbp := by
      rw [Operator.lbp_of_right hlowa, Operator.rbp_of_right hhigha, hpower]
    rw [List.mem_singleton.mp hop]
    exact Nat.le_of_eq heq
  · exact ⟨hhigh, trivial, hlow, trivial, trivial⟩
  · intro heq
    have hop : high = low := (Tree.bin.inj heq).1
    rw [hop] at hpower
    omega
  · show (Layout.items atoms (.bin low (.parenIf _ _) _)) = _
    rw [hwrap]
    rfl
  · exact .cons ⟨hleaf, rfl⟩ (.cons rfl (.cons ⟨hleaf, rfl⟩
      (.cons rfl (.cons ⟨hleaf, rfl⟩ .nil))))

theorem prefixed_takes_low (hvalid : ValidTable atoms table)
    (hleaf : atoms.leaf t.kind = true) {low : Operator Tok} {kind : Tok}
    (hlow : .bin low ∈ table) (hlowa : low.assoc = .right)
    (hkind : .pre kind ∈ table) (hpower : 100 = low.power + 1) :
    ¬ ReadsBack atoms table := by
  apply not_readsBack hvalid
    (.bin low (.pre kind (.atom (atoms.value t))) (.atom (atoms.value t)))
    (.pre kind (.bin low (.atom (atoms.value t)) (.atom (atoms.value t))))
    [.ofKind kind, t, .ofKind low.kind, t]
  · exact ⟨hlow, ⟨hkind, trivial⟩, trivial⟩
  · refine ⟨⟨trivial, trivial, nofun, nofun⟩, fun op hop => ?_⟩
    have heq : 100 = low.lbp := by rw [Operator.lbp_of_right hlowa, ← hpower]
    rw [List.mem_singleton.mp hop]
    exact Nat.le_of_eq heq
  · exact ⟨hkind, hlow, trivial, trivial⟩
  · intro heq
    cases heq
  · rfl
  · exact .cons rfl (.cons ⟨hleaf, rfl⟩ (.cons rfl (.cons ⟨hleaf, rfl⟩ .nil)))

/-- Every tree is read back from its layout with the fewest parentheses,
exactly if no two operators of the table compete. -/
theorem readsBack_iff (hvalid : ValidTable atoms table)
    (hleaf : atoms.leaf t.kind = true) :
    ReadsBack atoms table ↔ ¬ Collides table := by
  constructor
  · intro h hcollides
    obtain ⟨low, hlow, hlowa, hcase⟩ := hcollides
    rcases hcase with hbin | hpre
    · obtain ⟨high, hhigh, hhigha, hpower⟩ := hbin
      exact high_takes_low hvalid hleaf hlow hlowa hhigh hhigha hpower h
    · obtain ⟨⟨kind, hkind⟩, hpower⟩ := hpre
      exact prefixed_takes_low hvalid hleaf hlow hlowa hkind hpower h
  · intro hno tree hover tokens hts steps hsteps
    have hread := expr_parse_layout hvalid tree.layout
      (Tree.layout_good hvalid hno hover) (Tree.layout_over hover) hts hsteps
    rw [Tree.layout_tree] at hread
    exact hread

end

def letterAtoms : Atoms Char Char :=
  { leaf := fun c => c.isAlpha
    value := fun t => t.kind
    lparen := '('
    rparen := ')'
    name := fun c => [c] }

/-- An assignment that associates to the right, below sums and products, and
a sign. -/
def arithmetic : List (Decl Char) :=
  [.pre '-', .bin ⟨'=', 5, .right⟩, .bin ⟨'+', 10, .left⟩,
    .bin ⟨'*', 20, .left⟩]

def neighbours : List (Decl Char) :=
  [.bin ⟨'=', 10, .right⟩, .bin ⟨'?', 11, .right⟩]

def kinds (text : List Char) : List (Token Char) :=
  text.map Token.ofKind

theorem mem_arithmetic {op : Operator Char} (h : .bin op ∈ arithmetic) :
    op = ⟨'=', 5, .right⟩ ∨ op = ⟨'+', 10, .left⟩ ∨ op = ⟨'*', 20, .left⟩ := by
  simpa [arithmetic] using h

theorem arithmetic_valid : ValidTable letterAtoms arithmetic where
  distinct op op' h h' heq := by
    rcases mem_arithmetic h with rfl | rfl | rfl <;>
      rcases mem_arithmetic h' with rfl | rfl | rfl <;> first | rfl | cases heq
  power op h := by
    rcases mem_arithmetic h with rfl | rfl | rfl <;> decide
  assoc op op' h h' heq := by
    rcases mem_arithmetic h with rfl | rfl | rfl <;>
      rcases mem_arithmetic h' with rfl | rfl | rfl <;> first | rfl | cases heq
  leaf kind h := by
    have hkind : kind = '-' := by simpa [arithmetic] using h
    rw [hkind]
    decide
  lparen := by decide
  paren := by decide
  rparen op h := by
    rcases mem_arithmetic h with rfl | rfl | rfl <;> decide

theorem arithmetic_not_collides : ¬ Collides arithmetic := by
  intro h
  obtain ⟨low, hlow, hlowa, hcase⟩ := h
  rcases mem_arithmetic hlow with rfl | rfl | rfl
  · rcases hcase with hbin | hpre
    · obtain ⟨high, hhigh, _, hpower⟩ := hbin
      rcases mem_arithmetic hhigh with rfl | rfl | rfl <;> cases hpower
    · cases hpre.2
  · cases hlowa
  · cases hlowa

/-- `a = - b * (c + d)` is read back. -/
theorem arithmetic_readsBack : (expr letterAtoms arithmetic 20).parse
    (kinds ['a', '=', '-', 'b', '*', '(', 'c', '+', 'd', ')']) =
      some (.ok (.bin ⟨'=', 5, .right⟩ (.atom 'a')
        (.bin ⟨'*', 20, .left⟩ (.pre '-' (.atom 'b'))
          (.bin ⟨'+', 10, .left⟩ (.atom 'c') (.atom 'd'))))) := by
  have hback : ReadsBack letterAtoms arithmetic :=
    Iff.mpr (readsBack_iff (t := .ofKind 'a') arithmetic_valid (by decide))
      arithmetic_not_collides
  apply hback
  · simp [Tree.Over, arithmetic]
  · simp [Tree.layout, Tree.isBin, Layout.items, Layout.parenIf,
      Operator.wraps, kinds, Atoms.Spells, letterAtoms, Token.ofKind]
  · decide

theorem mem_neighbours {op : Operator Char} (h : .bin op ∈ neighbours) :
    op = ⟨'=', 10, .right⟩ ∨ op = ⟨'?', 11, .right⟩ := by
  simpa [neighbours] using h

theorem neighbours_valid : ValidTable letterAtoms neighbours where
  distinct op op' h h' heq := by
    rcases mem_neighbours h with rfl | rfl <;>
      rcases mem_neighbours h' with rfl | rfl <;> first | rfl | cases heq
  power op h := by
    rcases mem_neighbours h with rfl | rfl <;> decide
  assoc op op' h h' heq := by
    rcases mem_neighbours h with rfl | rfl <;>
      rcases mem_neighbours h' with rfl | rfl <;> first | rfl | cases heq
  leaf kind h := by simp [neighbours] at h
  lparen := by decide
  paren := by decide
  rparen op h := by
    rcases mem_neighbours h with rfl | rfl <;> decide

/-- `a ? b = c` is the layout of an assignment to `a ? b`, and is read as a
conditional. -/
theorem neighbours_misread : ValidTable letterAtoms neighbours ∧
      ∃ tree : Tree Char Char, tree.Over neighbours ∧
        List.Forall₂ letterAtoms.Spells (kinds ['a', '?', 'b', '=', 'c'])
          (tree.layout.items letterAtoms) ∧
        ∃ other, other ≠ tree ∧ (expr letterAtoms neighbours 8).parse
            (kinds ['a', '?', 'b', '=', 'c']) = some (.ok other) := by
  refine ⟨neighbours_valid, .bin ⟨'=', 10, .right⟩
    (.bin ⟨'?', 11, .right⟩ (.atom 'a') (.atom 'b')) (.atom 'c'), ?_, ?_,
    .bin ⟨'?', 11, .right⟩ (.atom 'a')
      (.bin ⟨'=', 10, .right⟩ (.atom 'b') (.atom 'c')), ?_, ?_⟩
  · simp [Tree.Over, neighbours]
  · simp [Tree.layout, Layout.items, Layout.parenIf, Operator.wraps, kinds,
      Atoms.Spells, letterAtoms, Token.ofKind]
  · decide
  · rfl

end LinuxRs.Compiler
