/-
Does the shell ask for more exactly when more can help
(user_program/src/bin/sh/lexer.rs, `LexError::incomplete`)?

# The proof

Each function of the lexer is compared with the machine of `Prompt` on the
rest of the text: where it returns, the verdict is the one on what it
leaves; where it fails, the verdict is `open_` for an incomplete error, and
`inHead` or `dead` for a plain one. The machine is dead exactly where
nothing can follow.

# The defect

`read_brace_param` fails with a plain error wherever it finds no name or no
operator, at the end of the text as well. So a text that ends in the head of
a `${` is refused, though a name and a brace would complete it.
-/
import LinuxRs.Shell.LexerTotal
import LinuxRs.Shell.Parser
import LinuxRs.Shell.Prompt

namespace LinuxRs.Shell.Prompt

variable {A : Type}

-- ======== agreement

/-- The result of a function of the lexer says what the machine says, which
stands at `q` before and at `p` behind what the function reads. -/
def Agrees (q p : Place) (src : Text) : Except LexError (A × Text) → Prop
  | .ok r => verdict q src = verdict p r.2
  | .error (.incomplete _) => verdict q src = .open_
  | .error (.plain _) => verdict q src = .inHead ∨ verdict q src = .dead
  | .error .outOfFuel => True

theorem verdict_step {q q' : Place} {c : Char}
    (h : next q.open_ q.base c = some q') (rest : Text) :
    verdict q (c :: rest) = verdict q' rest := by
  unfold verdict
  rw [run, h]
  rfl

theorem verdict_mode {m : Mode} {p q : List Mode} {b : Base} {c : Char}
    (hm : next (m :: p) b c = (m.next p c).map fun q => ⟨q, b⟩)
    (h : m.next p c = some q) (rest : Text) :
    verdict ⟨m :: p, b⟩ (c :: rest) = verdict ⟨q, b⟩ rest := by
  refine verdict_step (hm.trans ?_) rest
  rw [h]
  rfl

theorem verdict_dead {q : Place} {c : Char}
    (h : next q.open_ q.base c = none) (rest : Text) :
    verdict q (c :: rest) = .dead := by
  unfold verdict
  rw [run, h]
  rfl

theorem Agrees.of_verdict {q q' p : Place} {src src' : Text}
    {r : Except LexError (A × Text)} (h : Agrees q' p src' r)
    (heq : verdict q src = verdict q' src') : Agrees q p src r := by
  rcases r with e | r
  · cases e with
    | plain msg =>
      unfold Agrees at h ⊢
      rw [heq]
      exact h
    | incomplete msg => exact heq.trans h
    | outOfFuel => trivial
  · exact heq.trans h

theorem Agrees.error {B : Type} {q p p' : Place} {src : Text} {e : LexError}
    (h : Agrees q p src (.error e : Except LexError (A × Text))) :
    Agrees q p' src (.error e : Except LexError (B × Text)) := by
  cases e <;> exact h

theorem Agrees.andThen {B : Type} {q q' p p' : Place} {src src' : Text}
    {r : Except LexError (A × Text)} {g : Except LexError (B × Text)}
    (h : Agrees q' p' src' r) (heq : verdict q src = verdict q' src')
    (herror : ∀ e, r = .error e → g = .error e)
    (hok : ∀ body rest, r = .ok (body, rest) → Agrees p' p rest g) :
    Agrees q p src g := by
  cases hr : r with
  | error e =>
    rw [hr] at h
    rw [herror e hr]
    exact h.error.of_verdict heq
  | ok read =>
    rw [hr] at h
    exact (hok read.1 read.2 hr).of_verdict (heq.trans h)

-- ======== quotes

theorem readSingleQuoted_agrees (p : List Mode) (b : Base) (src out : Text) :
    Agrees ⟨.single :: p, b⟩ ⟨p, b⟩ src (readSingleQuoted src out) := by
  induction src generalizing out with
  | nil => rfl
  | cons c rest ih =>
    unfold readSingleQuoted
    split
    next hc =>
      subst hc
      exact verdict_step rfl rest
    next hc =>
      refine (ih _).of_verdict (verdict_mode rfl ?_ rest)
      exact congrArg some (if_neg hc)

theorem readBacktick_agrees (p : List Mode) (b : Base) (src out : Text) :
    Agrees ⟨.backtick :: p, b⟩ ⟨p, b⟩ src (readBacktick src out) := by
  fun_induction readBacktick src out with
  | case1 => rfl
  | case2 out rest => rfl
  | case3 => rfl
  | case4 out n rest _ _ ih => exact ih.of_verdict rfl
  | case5 out n rest _ _ ih => exact ih.of_verdict rfl
  | case6 c rest out hc hesc ih =>
    refine ih.of_verdict (verdict_mode rfl ?_ rest)
    exact congrArg some ((if_neg hc).trans (if_neg hesc))

theorem copySingle_verdict (dbl : Bool) (d : Nat) (p : List Mode) (b : Base)
    (src out : Text) :
    verdict ⟨.balSingle dbl d :: p, b⟩ src =
      verdict ⟨.bal dbl d :: p, b⟩ (copySingle src out).2 := by
  induction src generalizing out with
  | nil => rfl
  | cons c rest ih =>
    unfold copySingle
    split
    next hc =>
      subst hc
      exact verdict_step rfl rest
    next hc =>
      rw [← ih]
      refine verdict_mode rfl ?_ rest
      exact congrArg some (if_neg hc)

theorem copyDouble_verdict (dbl : Bool) (d : Nat) (p : List Mode) (b : Base)
    (src out : Text) :
    verdict ⟨.balDouble dbl d :: p, b⟩ src =
      verdict ⟨.bal dbl d :: p, b⟩ (copyDouble src out).2 := by
  fun_induction copyDouble src out with
  | case1 => rfl
  | case2 => rfl
  | case3 out m rest ih => exact ih
  | case4 out rest => rfl
  | case5 n rest out hn hq ih =>
    rw [← ih]
    refine verdict_mode rfl ?_ rest
    exact congrArg some ((if_neg hn).trans (if_neg hq))

-- ======== parentheses

theorem verdict_pending {m : Mode} {p p' : List Mode} {b : Base} {dbl : Bool}
    {d : Nat} {x : Char}
    (hopen : ∀ c, c ≠ x → m.next p c = some (balNext dbl d p' c))
    (hend : verdictOf (m :: p) b = .open_) (hm : ∀ q c, next (m :: q) b c =
      (m.next q c).map fun q => ⟨q, b⟩)
    {rest : Text} (hrest : rest.head? ≠ some x) :
    verdict ⟨m :: p, b⟩ rest = verdict ⟨.bal dbl d :: p', b⟩ rest := by
  cases rest with
  | nil => exact hend
  | cons c rest =>
    have hc : c ≠ x := by
      intro heq
      exact hrest (by rw [heq]; rfl)
    have hstep : next (m :: p) b c = some ⟨balNext dbl d p' c, b⟩ := by
      rw [hm, hopen c hc]
      rfl
    rw [verdict_step hstep]
    exact (verdict_step rfl rest).symm

theorem verdict_unpaired (d : Nat) (p : List Mode) (b : Base) {c : Char}
    {rest : Text} (hsingle : c ≠ '\'') (hdouble : c ≠ '"') (hesc : c ≠ '\\')
    (hdollar : c = '$' → rest.head? ≠ some '(')
    (hopen : c = '(' → rest.head? ≠ some '(')
    (hclose : c = ')' → rest.head? ≠ some ')') :
    verdict ⟨.bal true d :: p, b⟩ (c :: rest) =
      verdict ⟨.bal true d :: p, b⟩ rest := by
  by_cases h1 : c = '$'
  · subst h1
    show verdict ⟨.balDollar d :: p, b⟩ rest = _
    apply verdict_pending _ rfl (fun _ _ => rfl) (hdollar rfl)
    exact fun c hc => congrArg some (if_neg hc)
  by_cases h2 : c = '('
  · subst h2
    show verdict ⟨.balOpen d :: p, b⟩ rest = _
    apply verdict_pending _ rfl (fun _ _ => rfl) (hopen rfl)
    exact fun c hc => congrArg some (if_neg hc)
  by_cases h3 : c = ')'
  · subst h3
    show verdict ⟨.balClose d :: p, b⟩ rest = _
    apply verdict_pending _ rfl (fun _ _ => rfl) (hclose rfl)
    exact fun c hc => congrArg some (if_neg hc)
  · apply verdict_step
    simp [next, Mode.next, balNext, hsingle, hdouble, hesc, h1, h2, h3]

theorem head_ne_of_not_cons {rest : Text} {x : Char}
    (h : ∀ tail, rest = x :: tail → False) : rest.head? ≠ some x := by
  intro hhead
  obtain ⟨tail, htail⟩ := List.head?_eq_some_iff.mp hhead
  exact h tail htail

/-- The scan and the prompt go through the same parentheses and quotes. -/
theorem readBalanced_agrees (fuel : Nat) (dbl : Bool) (d : Nat)
    (p : List Mode) (b : Base) (src out : Text) :
    Agrees ⟨.bal dbl d :: p, b⟩ ⟨p, b⟩ src
      (readBalanced fuel dbl (d + 1) src out) := by
  induction fuel generalizing dbl d p src out with
  | zero => trivial
  | succ fuel ih =>
    cases src with
    | nil => rfl
    | cons c rest =>
      unfold readBalanced
      split
      next hc =>
        subst hc
        refine (ih dbl d p _ _).of_verdict ?_
        rw [← copySingle_verdict]
        exact verdict_step rfl rest
      split
      next hc =>
        subst hc
        refine (ih dbl d p _ _).of_verdict ?_
        rw [← copyDouble_verdict]
        exact verdict_step rfl rest
      split
      next hc =>
        subst hc
        split
        next => exact (ih dbl d p _ _).of_verdict rfl
        next n rest => exact (ih dbl d p _ _).of_verdict rfl
      rename_i hsingle hdouble hesc
      split
      next hdbl =>
        subst hdbl
        split
        next rest =>
          -- a nested `$((`
          have hin := ih true 0 (.bal true d :: p) rest []
          refine hin.andThen rfl (fun e he => by rw [he])
            fun inner rest' ho => ?_
          rw [ho]
          exact ih true d p rest' _
        next rest hnot =>
          -- a nested `$(`
          have hin := ih false 0 (.bal true d :: p) rest []
          have hhead := head_ne_of_not_cons hnot
          have hpending : verdict ⟨.bal true d :: p, b⟩ ('$' :: '(' :: rest) =
              verdict ⟨.bal false 0 :: .bal true d :: p, b⟩ rest := by
            show verdict ⟨.balDollarParen d :: p, b⟩ rest = _
            apply verdict_pending _ rfl (fun _ _ => rfl) hhead
            intro c hc
            simp [Mode.next, hc]
          refine hin.andThen hpending (fun e he => by rw [he])
            fun inner rest' ho => ?_
          rw [ho]
          exact ih true d p rest' _
        next rest => exact (ih true (d + 1) p rest _).of_verdict rfl
        next rest =>
          split
          next hd =>
            obtain rfl : d = 0 := by omega
            rfl
          next hd =>
            obtain ⟨k, rfl⟩ : ∃ k, d = k + 1 := ⟨d - 1, by omega⟩
            exact (ih true k p rest _).of_verdict rfl
        next hdd hd hoo hcc =>
          refine (ih true d p rest _).of_verdict
            (verdict_unpaired d p b hsingle hdouble hesc ?_ ?_ ?_)
          · exact fun hc => head_ne_of_not_cons fun tail => hd tail hc
          · exact fun hc => head_ne_of_not_cons fun tail => hoo tail hc
          · exact fun hc => head_ne_of_not_cons fun tail => hcc tail hc
      next hdbl =>
        obtain rfl : dbl = false := Bool.eq_false_iff.mpr hdbl
        split
        next hc =>
          subst hc
          exact (ih false (d + 1) p rest _).of_verdict rfl
        next hopen =>
          split
          next hc =>
            subst hc
            split
            next hd =>
              obtain rfl : d = 0 := by omega
              rfl
            next hd =>
              obtain ⟨k, rfl⟩ : ∃ k, d = k + 1 := ⟨d - 1, by omega⟩
              exact (ih false k p rest _).of_verdict rfl
          next hclose =>
            refine (ih false d p rest _).of_verdict (verdict_step ?_ rest)
            simp [next, Mode.next, balNext, hsingle, hdouble, hesc, hopen,
              hclose]

-- ======== the head of a brace

theorem verdict_name (p : List Mode) (b : Base) (src : Text) :
    verdict ⟨.head .name :: p, b⟩ src = verdict ⟨.head .op :: p, b⟩
      (src.dropWhile fun n => isNameStart n || isAsciiDigit n) := by
  induction src with
  | nil => rfl
  | cons c rest ih =>
    cases hc : isNameStart c || isAsciiDigit c with
    | true =>
      have hdrop : (c :: rest).dropWhile
          (fun n => isNameStart n || isAsciiDigit n) =
            rest.dropWhile fun n => isNameStart n || isAsciiDigit n := by
        simp [hc]
      rw [hdrop, ← ih]
      apply verdict_step
      simp [next, Mode.next, Head.next, hc]
    | false =>
      have hdrop : (c :: rest).dropWhile
          (fun n => isNameStart n || isAsciiDigit n) = c :: rest := by
        simp [hc]
      rw [hdrop]
      have hstep : next (.head .name :: p) b c =
          next (.head .op :: p) b c := by
        simp [next, Mode.next, Head.next, hc]
      unfold verdict
      rw [run, run]
      dsimp only
      rw [hstep]

theorem braceName_agrees {h : Head} (p : List Mode) (b : Base) {src : Text}
    (hnext : ∀ c, src.head? = some c → h.next p c = nameNext p c) :
    Agrees ⟨.head h :: p, b⟩ ⟨.head .op :: p, b⟩ src (braceName src) := by
  cases src with
  | nil => exact .inl rfl
  | cons c rest =>
    have hstep : next (.head h :: p) b c =
        (nameNext p c).map fun q => ⟨q, b⟩ := by
      show (h.next p c).map _ = _
      rw [hnext c rfl]
    rw [braceName]
    split
    next hspecial =>
      apply verdict_step
      rw [hstep]
      simp [nameNext, hspecial]
    next hspecial =>
      split
      next hstart =>
        have hdrop : (c :: rest).dropWhile
            (fun n => isNameStart n || isAsciiDigit n) =
              rest.dropWhile fun n => isNameStart n || isAsciiDigit n := by
          simp [hstart]
        show verdict _ _ = verdict _ _
        rw [hdrop, ← verdict_name]
        apply verdict_step
        rw [hstep]
        simp [nameNext, hspecial, hstart]
      next hstart =>
        apply Or.inr
        apply verdict_dead
        rw [hstep]
        simp [nameNext, hspecial, hstart]

theorem braceOp_verdict (p : List Mode) (b : Base) (src : Text) :
    (∃ msg, braceOp src = .error (.plain msg) ∧
      (verdict ⟨.head .op :: p, b⟩ src = .inHead ∨
        verdict ⟨.head .op :: p, b⟩ src = .dead)) ∨
    (∃ rest, braceOp src = .ok none ∧ src = '}' :: rest ∧
      verdict ⟨.head .op :: p, b⟩ src = verdict ⟨p, b⟩ rest) ∨
    ∃ op rest, braceOp src = .ok (some (op, rest)) ∧
      verdict ⟨.head .op :: p, b⟩ src = verdict ⟨.brace 0 :: p, b⟩ rest := by
  unfold braceOp
  split
  next rest => exact .inr (.inl ⟨rest, rfl, rfl, rfl⟩)
  next rest => exact .inr (.inr ⟨_, rest, rfl, rfl⟩)
  next rest => exact .inr (.inr ⟨_, rest, rfl, rfl⟩)
  next rest => exact .inr (.inr ⟨_, rest, rfl, rfl⟩)
  next rest => exact .inr (.inr ⟨_, rest, rfl, rfl⟩)
  next rest => exact .inr (.inr ⟨_, rest, rfl, rfl⟩)
  next rest => exact .inr (.inr ⟨_, rest, rfl, rfl⟩)
  next rest => exact .inr (.inr ⟨_, rest, rfl, rfl⟩)
  next rest => exact .inr (.inr ⟨_, rest, rfl, rfl⟩)
  next hclose h1 h2 h3 h4 h5 h6 h7 h8 =>
    refine .inl ⟨_, rfl, ?_⟩
    cases src with
    | nil => exact .inl rfl
    | cons c rest =>
      have hne : ∀ d, (∀ tail, c :: rest = d :: tail → False) → c ≠ d := by
        intro d hd heq
        exact hd rest (by rw [heq])
      have hbrace := hne _ hclose
      have hminus := hne _ h5
      have heqs := hne _ h6
      have hplus := hne _ h7
      have hquery := hne _ h8
      by_cases hcolon : c = ':'
      · subst hcolon
        cases rest with
        | nil => exact .inl rfl
        | cons d tail =>
          have hne2 : ∀ e, (∀ tail', ':' :: d :: tail = ':' :: e :: tail' →
              False) → d ≠ e := by
            intro e he heq
            exact he tail (by rw [heq])
          have h1' := hne2 _ h1
          have h2' := hne2 _ h2
          have h3' := hne2 _ h3
          have h4' := hne2 _ h4
          right
          show verdict ⟨.head .colon :: p, b⟩ (d :: tail) = .dead
          apply verdict_dead
          simp [next, Mode.next, Head.next, isOperator, h1', h2', h3', h4']
      · right
        apply verdict_dead
        simp [next, Mode.next, Head.next, opNext, isOperator, hbrace, hcolon,
          hminus, heqs, hplus, hquery]

-- ======== quotes and expansions

/-- Characters of a name change nothing about the modes. -/
def Neutral (p : List Mode) (b : Base) : Prop :=
  ∀ c, isNameCont c = true → next p b c = some ⟨p, b⟩

theorem verdict_dropWhile_name {p : List Mode} {b : Base} (h : Neutral p b)
    (src : Text) :
    verdict ⟨p, b⟩ src = verdict ⟨p, b⟩ (src.dropWhile isNameCont) := by
  induction src with
  | nil => rfl
  | cons c rest ih =>
    cases hc : isNameCont c with
    | true =>
      rw [List.dropWhile_cons_of_pos hc, ← ih]
      exact verdict_step (h c hc) rest
    | false =>
      rw [List.dropWhile_cons_of_neg (by simp [hc])]

theorem not_special_of_name {c : Char} (h : isNameCont c = true) :
    c ∉ ['"', '\'', '\\', '$', '\x60', '\x7b', '\x7d', ' ', '\t', '\n', ';',
      '&', '|', '<', '>', '(', ')', '#'] := by
  intro hmem
  have hall : List.all ['"', '\'', '\\', '$', '\x60', '\x7b', '\x7d', ' ', '\t',
      '\n', ';', '&', '|', '<', '>', '(', ')', '#'] (! isNameCont ·) = true := by
    decide
  have hc := List.all_eq_true.mp hall c hmem
  rw [h] at hc
  cases hc

theorem neutral_double (p : List Mode) (b : Base) : Neutral (.double :: p) b := by
  intro c hc
  have hnot := not_special_of_name hc
  simp only [List.mem_cons, not_or] at hnot
  simp [next, Mode.next, hnot]

theorem neutral_brace (d : Nat) (p : List Mode) (b : Base) :
    Neutral (.brace d :: p) b := by
  intro c hc
  have hnot := not_special_of_name hc
  simp only [List.mem_cons, not_or] at hnot
  simp [next, Mode.next, braceNext, hnot]

theorem neutral_word : Neutral [] .word := by
  intro c hc
  have hnot := not_special_of_name hc
  simp only [List.mem_cons, not_or] at hnot
  simp [next, Base.next, Base.wordChar, isWordEnd, hnot]

/-- Lexer and prompt agree on all that is read with this fuel. -/
structure AgreesAt (fuel : Nat) : Prop where
  doubleQuoted : ∀ p b src segs lit,
    Agrees ⟨.double :: p, b⟩ ⟨p, b⟩ src (readDoubleQuoted fuel src segs lit)
  dollar : ∀ p b src, Neutral p b →
    Agrees ⟨.dollar :: p, b⟩ ⟨p, b⟩ src (readDollar fuel src)
  braceParam : ∀ p b src,
    Agrees ⟨.head .first :: p, b⟩ ⟨p, b⟩ src (readBraceParam fuel src)
  untilBrace : ∀ p b src segs lit d,
    Agrees ⟨.brace d :: p, b⟩ ⟨.brace 0 :: p, b⟩ src
      (readUntilBrace fuel src segs lit (d + 1))
  closing : ∀ src segs lit d w rest,
    readUntilBrace fuel src segs lit d = .ok (w, rest) → rest.head? = some '}'

variable {fuel : Nat}

theorem readDoubleQuoted_agrees (ih : AgreesAt fuel) (p : List Mode) (b : Base)
    (src : Text) (segs : List Seg) (lit : Text) :
    Agrees ⟨.double :: p, b⟩ ⟨p, b⟩ src
      (readDoubleQuoted (fuel + 1) src segs lit) := by
  cases src with
  | nil => rfl
  | cons c rest =>
    unfold readDoubleQuoted
    split
    next hc =>
      subst hc
      rfl
    split
    next hc =>
      subst hc
      split
      next => rfl
      next n rest =>
        split
        next => exact (ih.doubleQuoted p b rest _ _).of_verdict rfl
        next =>
          split
          next => exact (ih.doubleQuoted p b rest _ _).of_verdict rfl
          next => exact (ih.doubleQuoted p b rest _ _).of_verdict rfl
    split
    next hc =>
      subst hc
      have hin := readBacktick_agrees (.double :: p) b rest []
      refine hin.andThen rfl (fun e he => by rw [he])
        fun body rest' ho => ?_
      rw [ho]
      exact ih.doubleQuoted p b rest' _ _
    split
    next hc =>
      subst hc
      have hin := ih.dollar (.double :: p) b rest (neutral_double p b)
      refine hin.andThen rfl (fun e he => by rw [he])
        fun seg rest' ho => ?_
      rw [ho]
      exact ih.doubleQuoted p b rest' _ _
    next h1 h2 h3 h4 =>
      refine (ih.doubleQuoted p b rest _ _).of_verdict (verdict_step ?_ rest)
      simp [next, Mode.next, h1, h2, h3, h4]

/-- The prompt and the lexer agree on what a `$` begins. -/
theorem readDollar_agrees (ih : AgreesAt fuel) (p : List Mode) (b : Base)
    (src : Text) (hp : Neutral p b) :
    Agrees ⟨.dollar :: p, b⟩ ⟨p, b⟩ src (readDollar (fuel + 1) src) := by
  cases src with
  | nil => rfl
  | cons c rest =>
    unfold readDollar
    split
    next hc =>
      subst hc
      split
      next rest =>
        have hin := readBalanced_agrees fuel true 0 p b rest []
        split
        next e heq =>
          rw [heq] at hin
          exact hin.error.of_verdict rfl
        next body rest' heq =>
          rw [heq] at hin
          exact hin
      next hnot =>
        have hin := readBalanced_agrees fuel false 0 p b rest []
        have hpending : verdict ⟨.dollar :: p, b⟩ ('(' :: rest) =
            verdict ⟨.bal false 0 :: p, b⟩ rest := by
          show verdict ⟨.dollarParen :: p, b⟩ rest = _
          apply verdict_pending _ rfl (fun _ _ => rfl)
            (head_ne_of_not_cons hnot)
          intro c hc
          simp [Mode.next, hc]
        split
        next e heq =>
          rw [heq] at hin
          exact hin.error.of_verdict hpending
        next body rest' heq =>
          rw [heq] at hin
          exact hpending.trans hin
    split
    next hc =>
      subst hc
      exact (ih.braceParam p b rest).of_verdict rfl
    split
    next hparen hbrace hspecial =>
      apply verdict_step
      simp [next, hparen, hbrace, hspecial]
    split
    next hparen hbrace hspecial hname =>
      show verdict _ _ = verdict _ _
      rw [← verdict_dropWhile_name hp]
      apply verdict_step
      simp [next, hparen, hbrace, hname]
    next hparen hbrace hspecial hname =>
      -- a lone dollar; the byte is the surrounding region's
      have hstep : next (.dollar :: p) b c = next p b c := by
        simp [next, hparen, hbrace, hspecial, hname]
      show verdict _ _ = verdict _ _
      unfold verdict
      rw [run, run]
      dsimp only
      rw [hstep]

/-- Behind the name of a parameter the operator decides for both. -/
theorem braceTail_agrees (ih : AgreesAt fuel) (p : List Mode) (b : Base)
    (src name : Text) (length : Bool) :
    Agrees ⟨.head .op :: p, b⟩ ⟨p, b⟩ src
      (match braceOp src with
      | .error e => .error e
      | .ok none => closeBrace name none none length src
      | .ok (some (op, src)) =>
        match readUntilBrace fuel src [] [] 1 with
        | .error e => .error e
        | .ok (arg, src) => closeBrace name (some op) (some arg) length src) := by
  rcases braceOp_verdict p b src with
    ⟨msg, hop, hverdict⟩ | ⟨rest, hop, rfl, hverdict⟩ | ⟨op, rest, hop, hverdict⟩
  · rw [hop]
    exact hverdict
  · rw [hop]
    exact hverdict
  · rw [hop]
    dsimp only
    have hin := ih.untilBrace p b rest [] [] 0
    have hclosing := ih.closing rest [] [] 1
    split
    next e heq =>
      rw [heq] at hin
      exact hin.error.of_verdict hverdict
    next arg rest' heq =>
      obtain ⟨tail, rfl⟩ := List.head?_eq_some_iff.mp (hclosing arg rest' heq)
      rw [heq] at hin
      exact hverdict.trans hin

theorem braceLength_cases (src : Text) :
    (∃ rest, src = '#' :: '}' :: rest ∧ braceLength src = (false, src)) ∨
    (∃ rest, src = '#' :: rest ∧ rest.head? ≠ some '}' ∧
      braceLength src = (true, rest)) ∨
    (src.head? ≠ some '#' ∧ braceLength src = (false, src)) := by
  unfold braceLength
  split
  next rest => exact .inl ⟨rest, rfl, rfl⟩
  next rest hnot => exact .inr (.inl ⟨rest, rfl, head_ne_of_not_cons hnot, rfl⟩)
  next _ hnot => exact .inr (.inr ⟨head_ne_of_not_cons hnot, rfl⟩)

theorem readBraceParam_agrees (ih : AgreesAt fuel) (p : List Mode) (b : Base)
    (src : Text) :
    Agrees ⟨.head .first :: p, b⟩ ⟨p, b⟩ src (readBraceParam (fuel + 1) src) := by
  unfold readBraceParam
  rcases braceLength_cases src with
    ⟨rest, rfl, hlength⟩ | ⟨rest, rfl, hhead, hlength⟩ | ⟨hhead, hlength⟩
  · -- `${#}` is the parameter of this name
    rw [hlength]
    rfl
  · rw [hlength]
    dsimp only
    have hname : Agrees ⟨.head .hash :: p, b⟩ ⟨.head .op :: p, b⟩ rest
        (braceName rest) := by
      apply braceName_agrees
      intro c hc
      have hne : c ≠ '}' := by
        intro heq
        exact hhead (by rw [hc, heq])
      simp [Head.next, hne]
    refine hname.andThen rfl (fun e he => by rw [he])
      fun name rest' ho => ?_
    rw [ho]
    exact braceTail_agrees ih p b rest' name true
  · rw [hlength]
    dsimp only
    have hname : Agrees ⟨.head .first :: p, b⟩ ⟨.head .op :: p, b⟩ src
        (braceName src) := by
      apply braceName_agrees
      intro c hc
      have hne : c ≠ '#' := by
        intro heq
        exact hhead (by rw [hc, heq])
      simp [Head.next, hne]
    refine hname.andThen rfl (fun e he => by rw [he])
      fun name rest' ho => ?_
    rw [ho]
    exact braceTail_agrees ih p b rest' name false

/-- The prompt and the lexer agree up to the closing brace. -/
theorem readUntilBrace_agrees (ih : AgreesAt fuel) (p : List Mode) (b : Base)
    (src : Text) (segs : List Seg) (lit : Text) (d : Nat) :
    Agrees ⟨.brace d :: p, b⟩ ⟨.brace 0 :: p, b⟩ src
      (readUntilBrace (fuel + 1) src segs lit (d + 1)) := by
  cases src with
  | nil => rfl
  | cons c rest =>
    unfold readUntilBrace
    split
    next hc =>
      subst hc
      split
      next hd =>
        obtain rfl : d = 0 := by omega
        rfl
      next hd =>
        obtain ⟨k, rfl⟩ : ∃ k, d = k + 1 := ⟨d - 1, by omega⟩
        exact (ih.untilBrace p b rest _ _ k).of_verdict rfl
    split
    next hc =>
      subst hc
      exact (ih.untilBrace p b rest _ _ (d + 1)).of_verdict rfl
    split
    next hc =>
      subst hc
      split
      next => exact (ih.untilBrace p b [] _ _ d).of_verdict rfl
      next n rest => exact (ih.untilBrace p b rest _ _ d).of_verdict rfl
    split
    next hc =>
      subst hc
      have hin := readSingleQuoted_agrees (.brace d :: p) b rest []
      refine hin.andThen rfl (fun e he => by rw [he])
        fun body rest' ho => ?_
      rw [ho]
      exact ih.untilBrace p b rest' _ _ d
    split
    next hc =>
      subst hc
      have hin := ih.doubleQuoted (.brace d :: p) b rest [] []
      refine hin.andThen rfl (fun e he => by rw [he])
        fun body rest' ho => ?_
      rw [ho]
      exact ih.untilBrace p b rest' _ _ d
    split
    next hc =>
      subst hc
      have hin := ih.dollar (.brace d :: p) b rest (neutral_brace d p b)
      refine hin.andThen rfl (fun e he => by rw [he])
        fun body rest' ho => ?_
      rw [ho]
      exact ih.untilBrace p b rest' _ _ d
    split
    next hc =>
      subst hc
      have hin := readBacktick_agrees (.brace d :: p) b rest []
      refine hin.andThen rfl (fun e he => by rw [he])
        fun body rest' ho => ?_
      rw [ho]
      exact ih.untilBrace p b rest' _ _ d
    next h1 h2 h3 h4 h5 h6 h7 =>
      refine (ih.untilBrace p b rest _ _ d).of_verdict (verdict_step ?_ rest)
      simp [next, Mode.next, braceNext, h1, h2, h3, h4, h5, h6, h7]

/-- The closing brace of one word is that of the parameter. -/
theorem readUntilBrace_closing (ih : AgreesAt fuel) (src : Text)
    (segs : List Seg) (lit : Text) (d : Nat) (w : Word) (rest : Text)
    (h : readUntilBrace (fuel + 1) src segs lit d = .ok (w, rest)) :
    rest.head? = some '}' := by
  cases src with
  | nil => cases h
  | cons c src =>
    unfold readUntilBrace at h
    split at h
    next hc =>
      subst hc
      split at h
      next =>
        obtain ⟨-, rfl⟩ := Prod.mk.inj (Except.ok.inj h)
        rfl
      next => exact ih.closing _ _ _ _ w rest h
    split at h
    next => exact ih.closing _ _ _ _ w rest h
    split at h
    next =>
      split at h
      next => exact ih.closing _ _ _ _ w rest h
      next => exact ih.closing _ _ _ _ w rest h
    split at h
    next =>
      split at h
      next => cases h
      next => exact ih.closing _ _ _ _ w rest h
    split at h
    next =>
      split at h
      next => cases h
      next => exact ih.closing _ _ _ _ w rest h
    split at h
    next =>
      split at h
      next => cases h
      next => exact ih.closing _ _ _ _ w rest h
    split at h
    next =>
      split at h
      next => cases h
      next => exact ih.closing _ _ _ _ w rest h
    next => exact ih.closing _ _ _ _ w rest h

theorem agreesAt (fuel : Nat) : AgreesAt fuel := by
  induction fuel with
  | zero =>
    exact ⟨fun _ _ _ _ _ => trivial, fun _ _ _ _ => trivial,
      fun _ _ _ => trivial, fun _ _ _ _ _ _ => trivial,
      fun _ _ _ _ _ _ h => by cases h⟩
  | succ fuel ih =>
    exact ⟨readDoubleQuoted_agrees ih, readDollar_agrees ih,
      readBraceParam_agrees ih, readUntilBrace_agrees ih,
      readUntilBrace_closing ih⟩

-- ======== words

/-- A word ends for the lexer where it ends for the prompt. -/
theorem readWordLoop_agrees (fuel : Nat) (src : Text) (segs : List Seg)
    (lit : Text) (first : Bool)
    (h : first = true → src.head? ≠ some '#') :
    Agrees ⟨[], .word⟩ ⟨[], .start⟩ src
      (readWordLoop fuel src segs lit first) := by
  induction fuel generalizing src segs lit first with
  | zero => trivial
  | succ fuel ih =>
    have ih : ∀ src segs lit, Agrees ⟨[], .word⟩ ⟨[], .start⟩ src
        (readWordLoop fuel src segs lit false) :=
      fun src segs lit => ih src segs lit false (fun h => by cases h)
    cases src with
    | nil => rfl
    | cons c rest =>
      unfold readWordLoop
      split
      next hend =>
        -- what ends a word is read from outside of it
        have hword : next [] .word c = next [] .start c := by
          simp [next, Base.next, hend]
        show verdict _ _ = verdict _ _
        unfold verdict
        rw [run, run]
        dsimp only
        rw [hword]
      split
      next hend hhash =>
        obtain ⟨rfl, hfirst, -⟩ := hhash
        exact absurd rfl (h hfirst)
      split
      next hc =>
        subst hc
        split
        next => rfl
        next n rest =>
          split
          next => exact (ih rest _ _).of_verdict rfl
          next =>
            split
            next => exact (ih rest _ _).of_verdict rfl
            next => exact (ih rest _ _).of_verdict rfl
      split
      next hc =>
        subst hc
        have hin := readSingleQuoted_agrees [] .word rest []
        refine hin.andThen rfl (fun e he => by rw [he])
          fun body rest' ho => ?_
        rw [ho]
        exact ih rest' _ _
      split
      next hc =>
        subst hc
        have hin := (agreesAt fuel).doubleQuoted [] .word rest [] []
        refine hin.andThen rfl (fun e he => by rw [he])
          fun body rest' ho => ?_
        rw [ho]
        exact ih rest' _ _
      split
      next hc =>
        subst hc
        have hin := readBacktick_agrees [] .word rest []
        refine hin.andThen rfl (fun e he => by rw [he])
          fun body rest' ho => ?_
        rw [ho]
        exact ih rest' _ _
      split
      next hc =>
        subst hc
        have hin := (agreesAt fuel).dollar [] .word rest neutral_word
        refine hin.andThen rfl (fun e he => by rw [he])
          fun body rest' ho => ?_
        rw [ho]
        exact ih rest' _ _
      next hend hhash hesc hsingle hdouble hback hdollar =>
        refine (ih rest _ _).of_verdict (verdict_step ?_ rest)
        simp [next, Base.next, Base.wordChar, hend, hesc, hsingle, hdouble,
          hback, hdollar]

theorem verdict_tilde (src : Text) :
    verdict ⟨[], .word⟩ src =
      verdict ⟨[], .word⟩ (src.dropWhile isTildeName) := by
  induction src with
  | nil => rfl
  | cons c rest ih =>
    cases hc : isTildeName c with
    | false => rw [List.dropWhile_cons_of_neg (by simp [hc])]
    | true =>
      rw [List.dropWhile_cons_of_pos hc, ← ih]
      apply verdict_step
      have hall : List.all ['"', '\'', '\\', '$', '\x60', ' ', '\t', '\n', ';',
          '&', '|', '<', '>', '(', ')'] (! isTildeName ·) = true := by decide
      have hnot : c ∉ ['"', '\'', '\\', '$', '\x60', ' ', '\t', '\n', ';',
          '&', '|', '<', '>', '(', ')'] := by
        intro hmem
        have hcc := List.all_eq_true.mp hall c hmem
        rw [hc] at hcc
        cases hcc
      simp only [List.mem_cons, not_or] at hnot
      simp [next, Base.next, Base.wordChar, isWordEnd, hnot]

/-- The prompt and the lexer agree on a word. -/
theorem readWord_agrees (fuel : Nat) {c : Char} {rest : Text}
    (hend : isWordEnd c = false) (hhash : c ≠ '#')
    (hesc : c = '\\' → rest.head? ≠ some '\n') :
    Agrees ⟨[], .start⟩ ⟨[], .start⟩ (c :: rest) (readWord fuel (c :: rest)) := by
  have hstart : verdict ⟨[], .start⟩ (c :: rest) =
      verdict ⟨[], .word⟩ (c :: rest) := by
    by_cases hc : c = '\\'
    · subst hc
      cases rest with
      | nil => rfl
      | cons n rest =>
        have hn : n ≠ '\n' := by
          intro heq
          exact hesc rfl (by rw [heq]; rfl)
        show verdict ⟨[], .startEsc⟩ (n :: rest) = verdict ⟨[], .word⟩ rest
        apply verdict_step
        simp [next, Base.next, hn]
    · have hword : next [] .start c = next [] .word c := by
        simp [next, Base.next, hend, hhash, hc]
      unfold verdict
      rw [run, run]
      dsimp only
      rw [hword]
  unfold readWord
  split
  next tail heq =>
    obtain ⟨rfl, rfl⟩ := List.cons.inj heq
    refine (readWordLoop_agrees fuel _ _ _ false ?_).of_verdict ?_
    · exact fun h => by cases h
    · rw [← verdict_tilde]
      rfl
  next =>
    refine (readWordLoop_agrees fuel _ _ _ true ?_).of_verdict hstart
    intro _ hhead
    exact hhash (Option.some.inj hhead)

-- ======== tokens

theorem skipBlanks_verdict (comment : Bool) (src : Text) :
    verdict ⟨[], if comment then .comment else .start⟩ src =
      verdict ⟨[], .start⟩ (skipBlanks comment src) := by
  fun_induction skipBlanks comment src with
  | case1 comment => cases comment <;> rfl
  | case2 => rfl
  | case3 c rest hc ih =>
    rw [← ih]
    apply verdict_step
    simp [next, Base.next, hc]
  | case4 rest ih => exact ih
  | case5 rest ih => exact ih
  | case6 rest ih => exact ih
  | case7 rest ih => exact ih
  | case8 => rfl

theorem continuation_skipBlanks {comment : Bool} {src rest : Text}
    (h : skipBlanks comment src = '\\' :: rest) : rest.head? ≠ some '\n' := by
  fun_induction skipBlanks comment src with
  | case1 => cases h
  | case2 tail => cases h
  | case3 d tail _ ih => exact ih h
  | case4 tail ih => exact ih h
  | case5 tail ih => exact ih h
  | case6 tail ih => exact ih h
  | case7 tail ih => exact ih h
  | case8 src hnil hblank htab hbreak hhash =>
    subst h
    exact head_ne_of_not_cons fun tail heq => hbreak tail (by rw [heq])

theorem wordToken_agrees {q p : Place} {src start : Text}
    {r : Except LexError (Word × Text)} (h : Agrees q p src r) :
    Agrees q p src (wordToken start r) := by
  rcases r with e | ⟨w, rest⟩
  · exact h.error
  · unfold wordToken
    dsimp only
    split
    next => exact h
    next => exact h

/-- Token by token lexer and prompt agree. -/
theorem nextToken_agrees (src : Text) :
    Agrees ⟨[], .start⟩ ⟨[], .start⟩ src (nextToken src) := by
  have hskip : verdict ⟨[], .start⟩ src =
      verdict ⟨[], .start⟩ (skipBlanks false src) := skipBlanks_verdict false src
  unfold nextToken nextTokenWith
  split
  -- the last case is a word; the others are operators, and the end
  case h_17 hnil hnl hsemi hopen hclose _ hpipe _ _ hamp _ hless _ _ _ hgreater =>
    refine Agrees.of_verdict (wordToken_agrees ?_) hskip
    cases hstart : skipBlanks false src with
    | nil => exact absurd hstart hnil
    | cons c rest =>
      obtain ⟨hblank, htab, hhash⟩ := head_skipBlanks hstart
      have hne : ∀ d, (∀ rest, skipBlanks false src = d :: rest → False) →
          c ≠ d := by
        intro d hd heq
        exact hd rest (by rw [hstart, heq])
      have hend : isWordEnd c = false := by
        simp only [isWordEnd, Bool.or_eq_false_iff, beq_eq_false_iff_ne]
        exact ⟨⟨⟨⟨⟨⟨⟨⟨⟨hblank, htab⟩, hne _ hnl⟩, hne _ hsemi⟩, hne _ hamp⟩,
          hne _ hpipe⟩, hne _ hless⟩, hne _ hgreater⟩, hne _ hopen⟩,
          hne _ hclose⟩
      apply readWord_agrees _ hend hhash
      intro hc
      subst hc
      exact continuation_skipBlanks hstart
  all_goals
    next heq =>
      rw [heq] at hskip
      exact hskip

theorem rest_of_eof {src rest : Text} (h : nextToken src = .ok (.eof, rest)) :
    rest = [] := by
  unfold nextToken nextTokenWith at h
  split at h
  case h_1 =>
    obtain ⟨-, rfl⟩ := Prod.mk.inj (Except.ok.inj h)
    rfl
  case h_17 =>
    exfalso
    unfold wordToken at h
    split at h
    next => cases h
    next =>
      split at h
      next => cases Except.ok.inj h
      next => cases Except.ok.inj h
  all_goals cases h

-- ======== whole texts

def tokenError : Toks → Option LexError
  | .eof => none
  | .fail e => some e
  | .cons _ rest => tokenError rest

def tokenized (toks : Toks) : Except LexError (Unit × Text) :=
  match tokenError toks with
  | some e => .error e
  | none => .ok ((), [])

theorem lexToks_agrees (n : Nat) (src : Text) :
    Agrees ⟨[], .start⟩ ⟨[], .start⟩ src (tokenized (lexToks n src)) := by
  induction n generalizing src with
  | zero => trivial
  | succ n ih =>
    have hin := nextToken_agrees src
    unfold lexToks
    split
    next e heq =>
      rw [heq] at hin
      exact hin.error
    next rest heq =>
      rw [heq] at hin
      obtain rfl := rest_of_eof heq
      exact hin
    next t rest hne heq =>
      rw [heq] at hin
      exact (ih rest).of_verdict hin

theorem tokenError_ne (n : Nat) {src : Text} (h : src.length < n) :
    tokenError (lexToks n src) ≠ some .outOfFuel := by
  induction n generalizing src with
  | zero => omega
  | succ n ih =>
    unfold lexToks
    rcases nextToken_takes src with heof | hsane
    · rw [heof]
      exact fun h => by cases h
    · split
      next e heq =>
        intro hfuel
        obtain rfl := Option.some.inj hfuel
        exact hsane.ne heq
      next => exact fun h => by cases h
      next t rest hne heq =>
        have hle := hsane.rest heq
        have hpos : src ≠ [] := by
          intro hnil
          subst hnil
          have heof : nextToken [] = .ok (.eof, []) := rfl
          rw [heof] at heq
          obtain ⟨rfl, rfl⟩ := Prod.mk.inj (Except.ok.inj heq)
          exact hne rfl
        have hlen := List.length_pos_iff.mpr hpos
        exact ih (by omega)

def isIncomplete : LexError → Bool
  | .incomplete _ => true
  | _ => false

theorem tokens_verdict (src : Text) :
    (tokenError (tokens src) = none ∧
      verdict ⟨[], .start⟩ (byteChars src) = .complete) ∨
    ∃ e, tokenError (tokens src) = some e ∧
      ((isIncomplete e = true ∧
          verdict ⟨[], .start⟩ (byteChars src) = .open_) ∨
        (isIncomplete e = false ∧
          (EndsInHead src ∨ verdict ⟨[], .start⟩ (byteChars src) = .dead))) := by
  have hagrees := lexToks_agrees ((byteChars src).length + 1) (byteChars src)
  have hne := tokenError_ne _ (Nat.lt_succ_self (byteChars src).length)
  unfold tokenized at hagrees
  unfold tokens
  cases herror : tokenError (lexToks ((byteChars src).length + 1)
      (byteChars src)) with
  | none =>
    rw [herror] at hagrees
    exact .inl ⟨rfl, hagrees⟩
  | some e =>
    rw [herror] at hagrees hne
    cases e with
    | plain msg => exact .inr ⟨_, rfl, .inr ⟨rfl, hagrees⟩⟩
    | incomplete msg => exact .inr ⟨_, rfl, .inl ⟨rfl, hagrees⟩⟩
    | outOfFuel => exact absurd rfl hne

/-- A text can be completed exactly if the prompt has not given it up. -/
theorem completes_iff (src : Text) :
    (∃ more, tokenError (tokens (src ++ more)) = none) ↔
      verdict ⟨[], .start⟩ (byteChars src) ≠ .dead := by
  constructor
  · rintro ⟨more, hmore⟩ hdead
    rcases tokens_verdict (src ++ more) with ⟨-, hcomplete⟩ | ⟨e, he, -⟩
    · rw [byteChars_append] at hcomplete
      have hnone : run ⟨[], .start⟩ (byteChars src) = none := by
        unfold verdict at hdead
        split at hdead
        next q hq =>
          exfalso
          exact verdictOf_ne_dead q.open_ q.base hdead
        next hq => exact hq
      unfold verdict at hcomplete
      rw [run_append, hnone] at hcomplete
      cases hcomplete
    · rw [hmore] at he
      cases he
  · intro hlive
    unfold verdict at hlive
    split at hlive
    next q hq =>
      refine ⟨completion q.open_ q.base, ?_⟩
      have hcomplete : verdict ⟨[], .start⟩
          (byteChars (src ++ completion q.open_ q.base)) = .complete := by
        rw [byteChars_append, byteChars_of_all (completion_ascii _ _)]
        unfold verdict
        rw [run_append, hq]
        exact verdict_completion q.open_ q.base
      rcases tokens_verdict (src ++ completion q.open_ q.base) with
        ⟨hok, -⟩ | ⟨e, -, hbad⟩
      · exact hok
      · exfalso
        unfold EndsInHead at hbad
        rw [hcomplete] at hbad
        rcases hbad with ⟨-, h⟩ | ⟨-, h | h⟩ <;> cases h
    next => exact absurd rfl hlive

/-- If tokenizing fails, the error is marked `incomplete` exactly when some
continuation of the text tokenizes. -/
def Classified (src : Text) : Prop :=
  ∀ e, tokenError (tokens src) = some e →
    (isIncomplete e = true ↔ ∃ more, tokenError (tokens (src ++ more)) = none)

/-- That is so for every text but those that end between `${` and the
closing brace or the operator. -/
theorem classified_iff (src : Text) : Classified src ↔ ¬ EndsInHead src := by
  unfold Classified
  rcases tokens_verdict src with ⟨hnone, hcomplete⟩ | ⟨e, he, hclass⟩
  · constructor
    · intro _ hhead
      unfold EndsInHead at hhead
      rw [hcomplete] at hhead
      cases hhead
    · intro _ e he
      rw [hnone] at he
      cases he
  · have hall : (∀ e', tokenError (tokens src) = some e' →
        (isIncomplete e' = true ↔
          ∃ more, tokenError (tokens (src ++ more)) = none)) ↔
        (isIncomplete e = true ↔
          verdict ⟨[], .start⟩ (byteChars src) ≠ .dead) := by
      rw [completes_iff]
      constructor
      · exact fun h => h e he
      · intro h e' he'
        obtain rfl : e = e' := Option.some.inj (he.symm.trans he')
        exact h
    rw [hall]
    rcases hclass with ⟨hinc, hopen⟩ | ⟨hinc, hhead | hdead⟩
    · unfold EndsInHead
      simp [hinc, hopen]
    · unfold EndsInHead at hhead ⊢
      simp [hinc, hhead]
    · unfold EndsInHead
      simp [hinc, hdead]

/-- After `${` the shell reports a bad substitution, though `x}` would
complete it. -/
theorem brace_not_classified : ¬ ∀ src, Classified src := by
  intro h
  have hmore : tokenError (tokens ("$\x7b".toList ++ "x\x7d".toList)) = none := rfl
  have hplain : tokenError (tokens "$\x7b".toList) =
      some (.plain "bad substitution".toList) := rfl
  have hinc := (h "$\x7b".toList _ hplain).mpr ⟨_, hmore⟩
  cases hinc

end LinuxRs.Shell.Prompt
