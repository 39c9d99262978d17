/-
When the lexer toolkit loses nothing.

# Runs

`Reached` are the places that the rules lead to from the start of a source.
As long as no rule cuts a character at one of them, every round takes at
least one character, so the run ends, and it never slices inside one. A rule
that does cut is a panic as soon as the run comes there.
-/
import LinuxRs.Compiler.LexRules

namespace LinuxRs.Compiler

open Lib

variable {Tok : Type}

-- ======== the lexer

namespace Helper

def rule : Helper Tok → Rule Tok
  | .whitespace => fun cur => (Compiler.whitespace cur).map Match.skip
  | .lineComment marker => fun cur =>
    (Compiler.lineComment marker cur).map Match.skip
  | .blockComment opener closer => fun cur =>
    (Compiler.blockComment opener closer cur).map Match.skip
  | .keyword word kind => fun cur =>
    (Compiler.keyword word kind cur).map fun m => Match.emit m.1 m.2
  | .symbol text kind => fun cur =>
    (Compiler.symbol text kind cur).map fun m => Match.emit m.1 m.2
  | .ident kind => fun cur =>
    (Compiler.ident kind cur).map fun m => Match.emit m.1 m.2
  | .int kind => fun cur =>
    (Compiler.int kind cur).map fun m => Match.emit m.1 m.2
  | .quotedString quote escape kind => fun cur =>
    (Compiler.quotedString quote escape kind cur).map fun m =>
      Match.emit m.1 m.2

theorem register_rules (l : Lexer Tok) (h : Helper Tok) :
    (h.register l).rules = l.rules ++ [h.rule] := by
  cases h <;> rfl

theorem rule_text (h : Helper Tok) (cur : Cursor) :
    h.rule cur = h.rule ⟨cur.rest, 1, 1⟩ := by
  cases h <;> rfl

/-- A rule that does not cut a character takes whole ones. -/
theorem rule_boundary {h : Helper Tok} {cur : Cursor} {m : Match Tok}
    (hne : h.NonEmpty) (hm : h.rule cur = some m) (hcuts : ¬ h.Cuts cur.rest) :
    Boundary cur.rest m.bytes := by
  cases h with
  | whitespace =>
    obtain ⟨n, hn, rfl⟩ := Option.map_eq_some_iff.mp hm
    exact whitespace_boundary hn
  | lineComment marker =>
    obtain ⟨n, hn, rfl⟩ := Option.map_eq_some_iff.mp hm
    exact lineComment_boundary hne hn
  | blockComment opener closer =>
    obtain ⟨n, hn, rfl⟩ := Option.map_eq_some_iff.mp hm
    exact blockComment_boundary hne.1 hne.2 hn
  | keyword word kind =>
    obtain ⟨r, hr, rfl⟩ := Option.map_eq_some_iff.mp hm
    exact keyword_boundary hne hr
  | symbol text kind =>
    obtain ⟨r, hr, rfl⟩ := Option.map_eq_some_iff.mp hm
    exact symbol_boundary hne hr
  | ident kind =>
    obtain ⟨r, hr, rfl⟩ := Option.map_eq_some_iff.mp hm
    exact ident_boundary hr
  | int kind =>
    obtain ⟨r, hr, rfl⟩ := Option.map_eq_some_iff.mp hm
    exact int_boundary hr
  | quotedString quote escape kind =>
    obtain ⟨r, hr, rfl⟩ := Option.map_eq_some_iff.mp hm
    exact quotedString_boundary hr hcuts

theorem rule_cuts {h : Helper Tok} {cur : Cursor} (hcuts : h.Cuts cur.rest) :
    ∃ m, h.rule cur = some m ∧ Utf8.cut cur.rest m.bytes = none := by
  cases h with
  | quotedString quote escape kind =>
    obtain ⟨n, hn, hcut⟩ := quotedString_cuts hcuts
    exact ⟨.emit n kind, by simp only [rule, hn]; rfl, hcut⟩
  | _ => cases hcuts

def applies (h : Helper Tok) (rest : List Char) : Bool :=
  (h.rule ⟨rest, 1, 1⟩).isSome

end Helper

namespace Lexer

theorem build_rules (helpers : List (Helper Tok)) :
    (build helpers).rules = helpers.map Helper.rule := by
  have hgen : ∀ l : Lexer Tok, (helpers.foldl Helper.register l).rules =
      l.rules ++ helpers.map Helper.rule := by
    induction helpers with
    | nil => simp
    | cons h helpers ih =>
      intro l
      rw [List.foldl_cons, ih, Helper.register_rules]
      simp
  exact hgen new

theorem firstMatch_build (helpers : List (Helper Tok)) (cur : Cursor) :
    (build helpers).firstMatch cur =
      (helpers.find? fun h => h.applies cur.rest).bind fun h => h.rule cur := by
  unfold firstMatch
  rw [build_rules, List.findSome?_map]
  induction helpers with
  | nil => rfl
  | cons h helpers ih =>
    rw [List.findSome?_cons, List.find?_cons]
    have happ : h.applies cur.rest = (h.rule cur).isSome := by
      rw [Helper.rule_text h cur]
      rfl
    rw [happ]
    cases hr : h.rule cur with
    | none => simpa [hr] using ih
    | some m => simp [hr]

end Lexer

theorem advance_of_cut {cur : Cursor} {n : Nat} {slice after : List Char}
    (h : Utf8.cut cur.rest n = some (slice, after)) :
    ∃ cur', advance cur n = some cur' ∧ cur'.rest = after := by
  unfold advance
  rw [h]
  exact ⟨_, rfl, rfl⟩

/-- The places of the source that the rules lead to, one after the other. -/
inductive Reached (helpers : List (Helper Tok)) (source : List Char) :
    List Char → Prop where
  | start : Reached helpers source source
  | next {rest slice after : List Char} {h : Helper Tok} {m : Match Tok} :
      Reached helpers source rest → rest ≠ [] →
      helpers.find? (fun h => h.applies rest) = some h →
      h.rule ⟨rest, 1, 1⟩ = some m →
      Utf8.cut rest m.bytes = some (slice, after) →
      Reached helpers source after

/-- No quoted text is ended inside a character. -/
def NothingCut (helpers : List (Helper Tok)) (source : List Char) : Prop :=
  ∀ rest h, Reached helpers source rest →
    helpers.find? (fun h => h.applies rest) = some h → ¬ h.Cuts rest

/-- A round of a lexer without a cut takes at least one character, and whole
ones. -/
theorem build_round {helpers : List (Helper Tok)} {source : List Char}
    (hne : ∀ h ∈ helpers, h.NonEmpty) (hcut : NothingCut helpers source)
    {cur : Cursor} (hreach : Reached helpers source cur.rest)
    (heof : cur.atEof = false) : (Lexer.build helpers).firstMatch cur = none ∨
      ∃ m slice after cur', (Lexer.build helpers).firstMatch cur = some m ∧
        Utf8.cut cur.rest m.bytes = some (slice, after) ∧
        advance cur m.bytes = some cur' ∧ cur'.rest = after ∧
        after.length < cur.rest.length ∧ Reached helpers source after := by
  rw [Lexer.firstMatch_build]
  cases hfind : helpers.find? fun h => h.applies cur.rest with
  | none => exact .inl rfl
  | some h =>
    rw [Option.bind_some]
    cases hm : h.rule cur with
    | none => exact .inl rfl
    | some m =>
      have hmem := List.mem_of_find?_eq_some hfind
      obtain ⟨slice, after, hslice, hnil⟩ :=
        Helper.rule_boundary (hne h hmem) hm (hcut _ h hreach hfind)
      obtain ⟨hrest, -⟩ := Utf8.cut_eq_some hslice
      have hcur : cur.rest ≠ [] := by
        intro hempty
        simp [Cursor.atEof, hempty] at heof
      obtain ⟨cur', hadv, hafter⟩ := advance_of_cut hslice
      refine .inr ⟨m, slice, after, cur', rfl, hslice, hadv, hafter, ?_, ?_⟩
      · have hpos := List.length_pos_iff.mpr hnil
        rw [hrest, List.length_append]
        omega
      · rw [Helper.rule_text] at hm
        exact .next hreach hcur hfind hm hslice

theorem build_no_panic {helpers : List (Helper Tok)} {source : List Char}
    (hne : ∀ h ∈ helpers, h.NonEmpty) (hcut : NothingCut helpers source)
    (fuel : Nat) {cur : Cursor} (hreach : Reached helpers source cur.rest)
    (out : List (Token Tok)) :
    (Lexer.build helpers).tokenizeLoop fuel cur out ≠ some .panic := by
  induction fuel generalizing cur out with
  | zero => exact nofun
  | succ fuel ih =>
    cases heof : cur.atEof with
    | true =>
      rw [tokenizeLoop_eof heof]
      exact nofun
    | false =>
      rcases build_round hne hcut hreach heof with hnone | hsome
      · obtain ⟨e, he⟩ := tokenizeLoop_error heof hnone
        rw [he]
        exact nofun
      · obtain ⟨m, slice, after, cur', hm, hslice, hadv, hafter, -, hnext⟩ :=
          hsome
        rw [tokenizeLoop_next heof hm hslice hadv]
        exact ih (hafter.symm ▸ hnext) _

theorem build_ends {helpers : List (Helper Tok)} {source : List Char}
    (hne : ∀ h ∈ helpers, h.NonEmpty) (hcut : NothingCut helpers source)
    (fuel : Nat) {cur : Cursor} (hreach : Reached helpers source cur.rest)
    (hfuel : cur.rest.length < fuel) (out : List (Token Tok)) :
    (Lexer.build helpers).tokenizeLoop fuel cur out ≠ none := by
  induction fuel generalizing cur out with
  | zero => omega
  | succ fuel ih =>
    cases heof : cur.atEof with
    | true =>
      rw [tokenizeLoop_eof heof]
      exact nofun
    | false =>
      rcases build_round hne hcut hreach heof with hnone | hsome
      · obtain ⟨e, he⟩ := tokenizeLoop_error heof hnone
        rw [he]
        exact nofun
      · obtain ⟨m, slice, after, cur', hm, hslice, hadv, hafter, hlt, hnext⟩ :=
          hsome
        rw [tokenizeLoop_next heof hm hslice hadv]
        exact ih (hafter.symm ▸ hnext) (by rw [hafter]; omega) _

/-- What is reached is where the loop stands after some rounds. -/
theorem run_reaches {helpers : List (Helper Tok)} {source rest : List Char}
    (h : Reached helpers source rest) :
    ∃ rounds cur out, cur.rest = rest ∧ ∀ fuel,
      (Lexer.build helpers).tokenize (rounds + fuel) source =
        (Lexer.build helpers).tokenizeLoop fuel cur out := by
  induction h with
  | start =>
    exact ⟨0, ⟨source, 1, 1⟩, [], rfl, fun fuel => by rw [Nat.zero_add]; rfl⟩
  | @next rest slice after helper m _ hne hfind hm hslice ih =>
    obtain ⟨rounds, cur, out, rfl, hrun⟩ := ih
    have heof : cur.atEof = false := by
      cases hrest : cur.rest with
      | nil => exact absurd hrest hne
      | cons c cs => simp [Cursor.atEof, hrest]
    have hmatch : (Lexer.build helpers).firstMatch cur = some m := by
      rw [Lexer.firstMatch_build, hfind, Option.bind_some,
        Helper.rule_text, hm]
    obtain ⟨cur', hadv, hafter⟩ := advance_of_cut hslice
    refine ⟨rounds + 1, cur', out ++ (m.token slice cur).toList, hafter,
      fun fuel => ?_⟩
    rw [Nat.add_right_comm, Nat.add_assoc, hrun,
      tokenizeLoop_next heof hmatch hslice hadv]

/-- For rules with literals that are not empty the lexer gives the source
back exactly when no rule cuts a character where its turn comes: a string
rule whose quote's low byte is not ASCII, on a text that begins with this
byte and has it again outside an escape. -/
theorem tokenize_lossless_iff (helpers : List (Helper Tok))
    (hne : ∀ h ∈ helpers, h.NonEmpty) (source : List Char) :
    Lossless (Lexer.build helpers) source ↔ NothingCut helpers source := by
  constructor
  · intro h rest helper hreach hfind hcuts
    obtain ⟨rounds, cur, out, rfl, hrun⟩ := run_reaches hreach
    obtain ⟨m, hm, hcut⟩ := Helper.rule_cuts hcuts
    have heof : cur.atEof = false := by
      cases hrest : cur.rest with
      | nil =>
        rw [hrest] at hcut
        rw [hrest] at hcuts
        cases helper with
        | quotedString quote escape kind =>
          obtain ⟨-, -, inner, post, -, hbytes⟩ := hcuts
          cases hbytes
        | _ => cases hcuts
      | cons c cs => simp [Cursor.atEof, hrest]
    have hmatch : (Lexer.build helpers).firstMatch cur = some m := by
      rw [Lexer.firstMatch_build, hfind, Option.bind_some, hm]
    apply h.whole_characters (rounds + 1)
    rw [hrun, tokenizeLoop_panic heof hmatch hcut]
  · intro h
    refine ⟨⟨source.length + 1, ?_⟩, fun fuel => ?_, fun fuel tokens hok => ?_⟩
    · exact build_ends hne h _ .start (Nat.lt_succ_self _) []
    · exact build_no_panic hne h fuel .start []
    · obtain ⟨spans, hspans, htokens, htaken⟩ :=
        tokenizeLoop_faithful (show (Lexer.build helpers).tokenizeLoop fuel
          (cursorAt [] source) [] = some (.ok tokens) from hok)
      exact ⟨spans, hspans, by simpa using htokens, htaken⟩

def calculator : List (Helper Nat) :=
  [.whitespace, .lineComment "#".toList, .blockComment "/*".toList "*/".toList,
    .keyword "let".toList 0, .symbol "=".toList 1, .ident 2, .int 3,
    .quotedString '"' '\\' 4]

/-- A quote that is ASCII cuts nothing. -/
theorem calculator_lossless :
    Lossless (Lexer.build calculator) "let é = \"ü\" # x".toList := by
  refine Iff.mpr (tokenize_lossless_iff calculator ?_ _) ?_
  · intro h hmem
    simp only [calculator, List.mem_cons, List.not_mem_nil, or_false] at hmem
    rcases hmem with rfl | rfl | rfl | rfl | rfl | rfl | rfl | rfl <;>
      simp [Helper.NonEmpty]
  · intro rest h _ hfind hcuts
    have hmem := List.mem_of_find?_eq_some hfind
    simp only [calculator, List.mem_cons, List.not_mem_nil, or_false] at hmem
    rcases hmem with rfl | rfl | rfl | rfl | rfl | rfl | rfl | rfl
    all_goals first
      | exact absurd hcuts.1 (by decide)
      | exact hcuts

/-- A string rule with the quote U+00C3, whose byte starts the character
U+00E9, and a text with two of these. -/
theorem quoted_string_cuts :
    ¬ ∀ helpers : List (Helper Unit), (∀ h ∈ helpers, h.NonEmpty) →
      ∀ source, Lossless (Lexer.build helpers) source := by
  intro h
  have hpanic : (Lexer.build [Helper.quotedString '\u00c3' '\\' ()]).tokenize 1
      ['\u00e9', '\u00e9'] = some .panic := rfl
  exact (h [.quotedString '\u00c3' '\\' ()] (by simp [Helper.NonEmpty])
    ['\u00e9', '\u00e9']).whole_characters 1 hpanic

end LinuxRs.Compiler
