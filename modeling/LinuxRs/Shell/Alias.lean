/-
Alias expansion (`expand_aliases` in user_program/src/bin/sh/exec.rs).

# The chain

A round splices the words of an alias in place of the head that names it,
and no name is spliced twice. The names of a chain are distinct keys of the
table, so there are at most as many rounds as aliases.

# Where it stops

The loop ends at a head that is no alias, at one that was spliced before,
and at an alias whose body is more than plain words; such a body is left
alone on purpose. It also ends when nothing is left: a body may hold no
word at all.
-/
import LinuxRs.Lib.Run
import LinuxRs.Shell.LexerTotal
import LinuxRs.Shell.State

namespace LinuxRs.Shell

open LinuxRs.Lib

-- ======== bodies

/-- A segment of a quoted part in `word_to_literal`. -/
def innerLiteral : Seg → Text
  | .lit t => t
  | .sQuoted t => t
  | _ => []

def segLiteral : Seg → Text
  | .lit s => s
  | .sQuoted s => s
  | .dQuoted inner => inner.flatMap innerLiteral
  | _ => []

def wordToLiteral (word : Word) : Text := word.flatMap segLiteral

/-- The loop of `tokenize_alias_body`, for a number of rounds; the outer
`none` is that they are not enough. -/
def aliasWords : Nat → Text → List Text → Option (Option (List Text))
  | 0, _, _ => none
  | rounds + 1, src, out =>
    match nextToken src with
    | .error _ => some none
    | .ok (.eof, _) => some (some out)
    | .ok (.word w, rest) => aliasWords rounds rest (out ++ [wordToLiteral w])
    | .ok _ => some none

/-- `tokenize_alias_body`. Each word takes a byte, so the rounds are enough
(`aliasWords_total`). -/
def tokenizeAliasBody (body : Text) : Option (List Text) :=
  (aliasWords ((byteChars body).length + 1) (byteChars body) []).join

theorem aliasWords_total (rounds : Nat) (src : Text) (out : List Text)
    (h : src.length < rounds) : (aliasWords rounds src out).isSome = true := by
  induction rounds generalizing src out with
  | zero => exact absurd h (Nat.not_lt_zero _)
  | succ rounds ih =>
    unfold aliasWords
    split
    next => rfl
    next => rfl
    next w rest hnext =>
      rcases nextToken_takes src with heof | hsane
      · rw [heof] at hnext
        cases hnext
      · have hle := hsane.rest hnext
        by_cases hnil : src = []
        · subst hnil
          cases hnext
        · have hpos := List.length_pos_iff.mpr hnil
          apply ih
          omega
    next => rfl

-- ======== expansion

/-- The loop of `expand_aliases`, for a number of rounds, with the names it
has seen, the latest first. -/
def expandFrom (st : State) :
    Nat → List Text → List Text → Option (List Text × List Text)
  | 0, _, _ => none
  | _ + 1, seen, [] => some (seen, [])
  | rounds + 1, seen, head :: rest =>
    if head ∈ seen then some (seen, head :: rest)
    else
      match st.aliases.get head with
      | none => some (seen, head :: rest)
      | some value =>
        match tokenizeAliasBody value with
        | none => some (seen, head :: rest)
        | some tokens => expandFrom st rounds (head :: seen) (tokens ++ rest)

/-- `expand_aliases`; one round more than there are aliases. -/
def expandAliases (st : State) (argv : List Text) :
    Option (List Text × List Text) :=
  expandFrom st (st.aliases.entries.length + 1) [] argv

/-- One splice: the head is the name, and its words take its place. -/
def splice (st : State) : List Text → Text → Option (List Text)
  | [], _ => none
  | head :: rest, name =>
    if head = name then
      ((st.aliases.get name).bind tokenizeAliasBody).map fun tokens =>
        tokens ++ rest
    else none

/-- The name has an alias whose text can be cut into tokens. -/
def State.Spliceable (st : State) (name : Text) : Prop :=
  ∃ tokens, (st.aliases.get name).bind tokenizeAliasBody = some tokens

/-- What an expansion leaves behind it: the names of the chain are distinct
and lead from the arguments to the result, the head of the result could only
be spliced a second time, and a result without words comes from a body
without words. -/
structure Expanded (st : State) (argv names result : List Text) : Prop where
  chain : run (splice st) argv names = some result
  distinct : names.Nodup
  head : ∀ head ∈ result.head?, head ∈ names ∨ ¬ st.Spliceable head
  empty : result = [] → argv = [] ∨
    ∃ name ∈ names, (st.aliases.get name).bind tokenizeAliasBody = some []

variable {st : State} {head name : Text} {argv names rest result seen : List Text}

theorem splice_head {tokens : List Text}
    (h : (st.aliases.get head).bind tokenizeAliasBody = some tokens) :
    splice st (head :: rest) head = some (tokens ++ rest) := by
  unfold splice
  dsimp only
  rw [if_pos rfl, h]
  rfl

theorem State.Spliceable.mem_keys (h : st.Spliceable name) :
    name ∈ st.aliases.entries.map Prod.fst := by
  obtain ⟨tokens, htokens⟩ := h
  obtain ⟨value, hvalue, -⟩ := Option.bind_eq_some_iff.mp htokens
  exact List.mem_map.mpr ⟨(name, value), (st.aliases.get_iff _ _).mp hvalue, rfl⟩

/-- The names spliced so far, each once, and what the words are now. -/
structure Chain (st : State) (argv seen result : List Text) : Prop where
  chain : run (splice st) argv seen.reverse = some result
  distinct : seen.Nodup
  keys : ∀ name ∈ seen, st.Spliceable name
  empty : result = [] → argv = [] ∨
    ∃ name ∈ seen, (st.aliases.get name).bind tokenizeAliasBody = some []

theorem Chain.stop (h : Chain st argv seen result)
    (hhead : ∀ head ∈ result.head?, head ∈ seen ∨ ¬ st.Spliceable head) :
    Expanded st argv seen.reverse result where
  chain := h.chain
  distinct := List.nodup_reverse.mpr h.distinct
  head x hx := (hhead x hx).imp_left List.mem_reverse.mpr
  empty he := (h.empty he).imp_right fun hname => by
    obtain ⟨name, hmem, hbody⟩ := hname
    exact ⟨name, List.mem_reverse.mpr hmem, hbody⟩

theorem Chain.splice {tokens : List Text} (h : Chain st argv seen (head :: rest))
    (hnew : head ∉ seen)
    (hbody : (st.aliases.get head).bind tokenizeAliasBody = some tokens) :
    Chain st argv (head :: seen) (tokens ++ rest) where
  chain := by
    rw [List.reverse_cons, run_append, h.chain, Option.bind_some]
    show (LinuxRs.Shell.splice st (head :: rest) head).bind _ = _
    rw [splice_head hbody]
    rfl
  distinct := List.nodup_cons.mpr ⟨hnew, h.distinct⟩
  keys := List.forall_mem_cons.mpr ⟨⟨tokens, hbody⟩, h.keys⟩
  empty he := by
    obtain ⟨rfl, -⟩ := List.append_eq_nil_iff.mp he
    exact .inr ⟨head, List.mem_cons_self, hbody⟩

/-- The expansion ends: a name that was seen is not expanded again. -/
theorem expandFrom_expanded (rounds : Nat) (h : Chain st argv seen result)
    (hrounds : st.aliases.entries.length < seen.length + rounds) :
    ∃ names result', expandFrom st rounds seen result
        = some (names, result') ∧ Expanded st argv names.reverse result' := by
  induction rounds generalizing seen result with
  | zero =>
    exfalso
    have hsub : seen ⊆ st.aliases.entries.map Prod.fst :=
      fun name hname => (h.keys name hname).mem_keys
    have hle := (List.subperm_of_subset h.distinct hsub).length_le
    rw [List.length_map] at hle
    omega
  | succ rounds ih =>
    cases result with
    | nil => exact ⟨seen, [], rfl, h.stop nofun⟩
    | cons head rest =>
      have hstop : (head ∈ seen ∨ ¬ st.Spliceable head) →
          Expanded st argv seen.reverse (head :: rest) := by
        intro hhead
        apply h.stop
        intro x hx
        obtain rfl := Option.mem_some_iff.mp hx
        exact hhead
      unfold expandFrom
      split
      next hseen => exact ⟨seen, _, rfl, hstop (.inl hseen)⟩
      next hnew =>
        split
        next hnone =>
          refine ⟨seen, _, rfl, hstop (.inr fun hsome => ?_)⟩
          obtain ⟨tokens, htokens⟩ := hsome
          rw [hnone] at htokens
          cases htokens
        next value hvalue =>
          split
          next hnone =>
            refine ⟨seen, _, rfl, hstop (.inr fun hsome => ?_)⟩
            obtain ⟨tokens, htokens⟩ := hsome
            rw [hvalue, Option.bind_some, hnone] at htokens
            cases htokens
          next tokens htokens =>
            have hbody : (st.aliases.get head).bind tokenizeAliasBody
                = some tokens := by
              rw [hvalue, Option.bind_some, htokens]
            apply ih (h.splice hnew hbody)
            rw [List.length_cons]
            omega

/-- `expand_aliases` comes to an end for every table and every argument
vector; its result has a head that could only be spliced a second time, or
none, when a body without words was spliced. -/
theorem expandAliases_expanded (st : State) (argv : List Text) :
    ∃ names result, expandAliases st argv = some (names, result) ∧
      Expanded st argv names.reverse result := by
  apply expandFrom_expanded
  · exact ⟨rfl, List.nodup_nil, nofun, fun h => .inl h⟩
  · rw [List.length_nil]
    omega

/-- A shell in which `both` is an alias for two commands. -/
def bothState : State :=
  (State.fromEnv [] "sh".toList []).defineAlias "both".toList "a;b".toList

/-- The head stays an alias that was not expanded: its body is not plain
words. -/
theorem alias_not_spliced :
    expandAliases bothState ["both".toList] = some ([], ["both".toList]) ∧
      bothState.aliases.get "both".toList = some "a;b".toList := by
  decide

end LinuxRs.Shell
