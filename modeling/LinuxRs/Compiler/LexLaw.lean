/-
The lexer gives its source back.

# Two halves

Whatever the rules are, a run that succeeds has taken the source apart into
spans, each of them what the first rule that applies reports at a place
counted from the start. What depends on the rules is that the run gets
there: every report must end between two characters, after at least one.

# The string rule

All provided rules do so for ASCII delimiters and for literals of any
characters, since UTF-8 is self-synchronising. `quoted_string` keeps the low
byte of its quote only. Where that byte starts a character of several bytes
and is found again, the rule ends inside the second character, and the slice
panics.
-/
import LinuxRs.Compiler.Lex

namespace LinuxRs.Compiler

open Lib

variable {Tok : Type}

-- ======== taking the source apart

/-- A stretch of the source that a rule took; a skipped one has no kind. -/
structure Span (Tok : Type) where
  text : List Char
  kind : Option Tok

def Span.report (s : Span Tok) : Match Tok :=
  match s.kind with
  | some kind => .emit (Utf8.bytes s.text).length kind
  | none => .skip (Utf8.bytes s.text).length

def spanned (spans : List (Span Tok)) : List Char := spans.flatMap Span.text

def lineAfter (before : List Char) : Nat := 1 + (Utf8.bytes before).count 10

def colAfter (before : List Char) : Nat :=
  1 + ((Utf8.bytes before).reverse.takeWhile fun b => b ≠ 10).length

def cursorAt (before rest : List Char) : Cursor :=
  ⟨rest, lineAfter before, colAfter before⟩

def Span.token (before : List Char) (s : Span Tok) : Option (Token Tok) :=
  s.kind.map fun kind =>
    ⟨kind, textOf s.text, lineAfter before, colAfter before⟩

def tokensFrom : List Char → List (Span Tok) → List (Token Tok)
  | _, [] => []
  | before, s :: rest =>
    (s.token before).toList ++ tokensFrom (before ++ s.text) rest

/-- The first rule that matches at the cursor gives this match. -/
def FirstApplies (rules : List (Rule Tok)) (cur : Cursor) (m : Match Tok) :
    Prop :=
  ∃ earlier rule later, rules = earlier ++ rule :: later ∧
    (∀ r ∈ earlier, r cur = none) ∧ rule cur = some m

/-- Every span is what the first rule that matches there takes. -/
def TakenFirst (rules : List (Rule Tok)) : List Char → List (Span Tok) → Prop
  | _, [] => True
  | before, s :: rest =>
    FirstApplies rules (cursorAt before (s.text ++ spanned rest)) s.report ∧
      TakenFirst rules (before ++ s.text) rest

/-- Scanning ends, cuts no character, and takes the whole source apart by the
first rule that applies. -/
structure Lossless (l : Lexer Tok) (source : List Char) : Prop where
  terminates : ∃ fuel, l.tokenize fuel source ≠ none
  whole_characters : ∀ fuel, l.tokenize fuel source ≠ some .panic
  faithful : ∀ fuel tokens, l.tokenize fuel source = some (.ok tokens) →
    ∃ spans, spanned spans = source ∧ tokens = tokensFrom [] spans ∧
      TakenFirst l.rules [] spans

-- ======== one round

def Match.bytes : Match Tok → Nat
  | .emit n _ => n
  | .skip n => n

def Match.token (m : Match Tok) (slice : List Char) (cur : Cursor) :
    Option (Token Tok) :=
  match m with
  | .emit _ kind => some ⟨kind, textOf slice, cur.line, cur.col⟩
  | .skip _ => none

def place (bs : List UInt8) : Nat × Nat :=
  (1 + bs.count 10, 1 + (bs.reverse.takeWhile fun b => b ≠ 10).length)

theorem countByte_place (bs : List UInt8) (b : UInt8) :
    countByte (place bs) b = place (bs ++ [b]) := by
  by_cases hb : b = 10
  · simp [countByte, place, hb]
    omega
  · simp [countByte, place, hb]
    omega

theorem foldl_countByte (bs cs : List UInt8) :
    cs.foldl countByte (place bs) = place (bs ++ cs) := by
  induction cs generalizing bs with
  | nil => simp
  | cons b cs ih =>
    rw [List.foldl_cons, countByte_place, ih, List.append_assoc]
    rfl

theorem advance_cursorAt {before rest slice after : List Char} {n : Nat}
    (h : Utf8.cut rest n = some (slice, after)) :
    advance (cursorAt before rest) n =
      some (cursorAt (before ++ slice) after) := by
  have hplace := foldl_countByte (Utf8.bytes before) (Utf8.bytes slice)
  rw [← Utf8.bytes_append] at hplace
  simp only [place] at hplace
  simp only [advance, cursorAt, h, Option.map_some, lineAfter, colAfter,
    hplace]

theorem tokenizeLoop_next {l : Lexer Tok} {fuel : Nat} {cur cur' : Cursor}
    {out : List (Token Tok)} {m : Match Tok} {slice after : List Char}
    (heof : cur.atEof = false) (hm : l.firstMatch cur = some m)
    (hcut : Utf8.cut cur.rest m.bytes = some (slice, after))
    (hadv : advance cur m.bytes = some cur') :
    l.tokenizeLoop (fuel + 1) cur out =
      l.tokenizeLoop fuel cur' (out ++ (m.token slice cur).toList) := by
  cases m with
  | emit n kind =>
    have hcut : Utf8.cut cur.rest n = some (slice, after) := hcut
    have hadv : advance cur n = some cur' := hadv
    simp [Lexer.tokenizeLoop, heof, hm, hcut, hadv, Match.token]
  | skip n =>
    have hadv : advance cur n = some cur' := hadv
    simp [Lexer.tokenizeLoop, heof, hm, hadv, Match.token]

theorem tokenizeLoop_panic {l : Lexer Tok} {fuel : Nat} {cur : Cursor}
    {out : List (Token Tok)} {m : Match Tok} (heof : cur.atEof = false)
    (hm : l.firstMatch cur = some m) (hcut : Utf8.cut cur.rest m.bytes = none) :
    l.tokenizeLoop (fuel + 1) cur out = some .panic := by
  cases m with
  | emit n kind =>
    have hcut : Utf8.cut cur.rest n = none := hcut
    simp [Lexer.tokenizeLoop, heof, hm, hcut]
  | skip n =>
    have hcut : Utf8.cut cur.rest n = none := hcut
    simp [Lexer.tokenizeLoop, heof, hm, hcut, advance]

theorem tokenizeLoop_eof {l : Lexer Tok} {fuel : Nat} {cur : Cursor}
    {out : List (Token Tok)} (heof : cur.atEof = true) :
    l.tokenizeLoop (fuel + 1) cur out = some (.ok out) := by
  simp [Lexer.tokenizeLoop, heof]

theorem tokenizeLoop_error {l : Lexer Tok} {cur : Cursor}
    (heof : cur.atEof = false) (hm : l.firstMatch cur = none) :
    ∃ e, ∀ fuel out, l.tokenizeLoop (fuel + 1) cur out = some (.error e) := by
  simp [Lexer.tokenizeLoop, heof, hm]

theorem firstApplies_of_firstMatch {l : Lexer Tok} {cur : Cursor}
    {m : Match Tok} (h : l.firstMatch cur = some m) :
    FirstApplies l.rules cur m := by
  obtain ⟨earlier, rule, later, hrules, hrule, hnone⟩ :=
    List.findSome?_eq_some_iff.mp h
  exact ⟨earlier, rule, later, hrules, hnone, hrule⟩

-- ======== losing nothing

/-- A report that ends between two characters is the one of the stretch. -/
def spanOf (m : Match Tok) (slice : List Char) : Span Tok :=
  ⟨slice, match m with | .emit _ kind => some kind | .skip _ => none⟩

theorem spanOf_report {m : Match Tok} {slice : List Char}
    (h : m.bytes = (Utf8.bytes slice).length) :
    (spanOf m slice).report = m := by
  cases m with
  | emit n kind =>
    have hn : n = (Utf8.bytes slice).length := h
    rw [hn]
    rfl
  | skip n =>
    have hn : n = (Utf8.bytes slice).length := h
    rw [hn]
    rfl

theorem spanOf_token (m : Match Tok) (slice before rest : List Char) :
    (spanOf m slice).token before = m.token slice (cursorAt before rest) := by
  cases m <;> rfl

/-- From any place in the source, the loop takes the rest apart and adds the
tokens of the pieces. By induction on the rounds. -/
theorem tokenizeLoop_faithful {l : Lexer Tok} {fuel : Nat}
    {before rest : List Char} {out tokens : List (Token Tok)}
    (h : l.tokenizeLoop fuel (cursorAt before rest) out = some (.ok tokens)) :
    ∃ spans, spanned spans = rest ∧ tokens = out ++ tokensFrom before spans ∧
      TakenFirst l.rules before spans := by
  induction fuel generalizing before rest out with
  | zero => cases h
  | succ fuel ih =>
    cases heof : (cursorAt before rest).atEof with
    | true =>
      rw [tokenizeLoop_eof heof] at h
      have hrest : rest = [] := List.isEmpty_iff.mp heof
      obtain rfl : out = tokens := by simpa using h
      exact ⟨[], hrest.symm, by simp [tokensFrom], trivial⟩
    | false =>
      cases hm : l.firstMatch (cursorAt before rest) with
      | none =>
        obtain ⟨e, he⟩ := tokenizeLoop_error heof hm
        rw [he] at h
        cases h
      | some m =>
        cases hcut : Utf8.cut rest m.bytes with
        | none =>
          rw [tokenizeLoop_panic heof hm hcut] at h
          cases h
        | some r =>
          obtain ⟨slice, after⟩ := r
          rw [tokenizeLoop_next heof hm hcut
            (advance_cursorAt hcut)] at h
          obtain ⟨spans, hspans, htokens, htaken⟩ := ih h
          obtain ⟨hrest, hn⟩ := Utf8.cut_eq_some hcut
          refine ⟨spanOf m slice :: spans, ?_, ?_, ?_, htaken⟩
          · rw [hrest, ← hspans]
            rfl
          · rw [htokens, List.append_assoc]
            congr 2
            rw [spanOf_token]
          · rw [spanOf_report hn, hspans]
            show FirstApplies l.rules
              (cursorAt before (slice ++ after)) m
            rw [← hrest]
            exact firstApplies_of_firstMatch hm

end LinuxRs.Compiler
