/-
The fuel of the lexer is enough, and every token takes a byte.

A function that starts with more fuel than there are bytes left never runs
out: each round and each call is at least one byte further on.
-/
import LinuxRs.Shell.Lexer

namespace LinuxRs.Shell

variable {A : Type}

/-- The fuel has not run out, and no text is left that was not there. -/
def Sane (len : Nat) : Except LexError (A × Text) → Prop
  | .error e => e ≠ .outOfFuel
  | .ok (_, rest) => rest.length ≤ len

theorem Sane.mono {len len' : Nat} {r : Except LexError (A × Text)}
    (h : Sane len r) (hle : len ≤ len') : Sane len' r := by
  rcases r with e | ⟨a, rest⟩
  · exact h
  · exact Nat.le_trans h hle

theorem Sane.rest {len : Nat} {r : Except LexError (A × Text)} {a : A}
    {rest : Text} (h : Sane len r) (hr : r = .ok (a, rest)) :
    rest.length ≤ len := by
  rw [hr] at h
  exact h

theorem Sane.error {B : Type} {len len' : Nat} {r : Except LexError (A × Text)}
    {e : LexError} (h : Sane len r) (hr : r = .error e) :
    Sane len' (.error e : Except LexError (B × Text)) := by
  rw [hr] at h
  exact h

theorem Sane.ne {len : Nat} {r : Except LexError (A × Text)} (h : Sane len r) :
    r ≠ .error .outOfFuel := by
  intro heq
  rw [heq] at h
  exact h rfl

-- ======== quotes

theorem readSingleQuoted_sane (src out : Text) :
    Sane src.length (readSingleQuoted src out) := by
  induction src generalizing out with
  | nil => simp [readSingleQuoted, Sane]
  | cons c rest ih =>
    unfold readSingleQuoted
    split
    · simp [Sane]
    · exact (ih _).mono (by simp)

theorem readBacktick_sane (src out : Text) :
    Sane src.length (readBacktick src out) := by
  fun_induction readBacktick src out with
  | case1 => simp [Sane]
  | case2 => simp [Sane]
  | case3 => simp [Sane]
  | case4 out n rest _ _ ih => exact ih.mono (by simp only [List.length_cons]; omega)
  | case5 out n rest _ _ ih => exact ih.mono (by simp only [List.length_cons]; omega)
  | case6 c rest out _ _ ih => exact ih.mono (by simp only [List.length_cons]; omega)

theorem length_copySingle (src out : Text) :
    (copySingle src out).2.length ≤ src.length := by
  induction src generalizing out with
  | nil => simp [copySingle]
  | cons n rest ih =>
    unfold copySingle
    split
    · simp
    · exact Nat.le_trans (ih _) (by simp)

theorem length_copyDouble (src out : Text) :
    (copyDouble src out).2.length ≤ src.length := by
  fun_induction copyDouble src out with
  | case1 => simp
  | case2 => simp
  | case3 out m rest ih => exact Nat.le_trans ih (by simp only [List.length_cons]; omega)
  | case4 => simp
  | case5 n rest out _ _ ih => exact Nat.le_trans ih (by simp)

/-- The scan comes to an end with the text. -/
theorem readBalanced_sane (fuel : Nat) (needDouble : Bool) (depth : Nat)
    (src out : Text) (h : src.length < fuel) :
    Sane src.length (readBalanced fuel needDouble depth src out) := by
  induction fuel generalizing needDouble depth src out with
  | zero => omega
  | succ fuel ih =>
    -- every recursive call is on a shorter rest
    have hstep : ∀ (rest : Text) (nd : Bool) (d : Nat) (o : Text),
        rest.length < src.length →
        Sane src.length (readBalanced fuel nd d rest o) := by
      intro rest nd d o hlt
      exact (ih nd d rest o (by omega)).mono (by omega)
    cases src with
    | nil => simp [readBalanced, Sane]
    | cons c rest =>
      have hs := length_copySingle rest (out ++ ['\''])
      have hd := length_copyDouble rest (out ++ ['"'])
      unfold readBalanced
      split
      · exact hstep _ _ _ _ (by simp only [List.length_cons]; omega)
      split
      · exact hstep _ _ _ _ (by simp only [List.length_cons]; omega)
      split
      · split
        · exact hstep _ _ _ _ (by simp)
        · exact hstep _ _ _ _ (by simp only [List.length_cons]; omega)
      split
      · split
        · next rest _ _ _ =>
          simp only [List.length_cons] at h hstep ⊢
          have hin := ih true 1 rest [] (by omega)
          split
          next e heq => exact hin.error heq
          next inner rest' heq =>
            have hle := hin.rest heq
            exact hstep _ _ _ _ (by omega)
        · next rest _ _ _ _ =>
          simp only [List.length_cons] at h hstep ⊢
          have hin := ih false 1 rest [] (by omega)
          split
          next e heq => exact hin.error heq
          next inner rest' heq =>
            have hle := hin.rest heq
            exact hstep _ _ _ _ (by omega)
        · exact hstep _ _ _ _ (by simp only [List.length_cons]; omega)
        · split
          · simp only [Sane, List.length_cons]
            omega
          · exact hstep _ _ _ _ (by simp only [List.length_cons]; omega)
        · exact hstep _ _ _ _ (by simp)
      split
      · exact hstep _ _ _ _ (by simp)
      split
      · split
        · simp [Sane]
        · exact hstep _ _ _ _ (by simp)
      · exact hstep _ _ _ _ (by simp)

-- ======== expansions

theorem length_braceLength (src : Text) :
    (braceLength src).2.length ≤ src.length := by
  unfold braceLength
  split
  · exact Nat.le_refl _
  · simp
  · exact Nat.le_refl _

theorem braceName_lt {src name rest : Text}
    (h : braceName src = .ok (name, rest)) : rest.length < src.length := by
  cases src with
  | nil => simp [braceName] at h
  | cons c tail =>
    simp only [braceName] at h
    split at h
    · cases h
      simp
    split at h
    · next hc =>
      cases h
      rw [List.dropWhile_cons_of_pos (by simp [hc])]
      have := (List.dropWhile_suffix (l := tail) fun n =>
        isNameStart n || isAsciiDigit n).length_le
      simp only [List.length_cons]
      omega
    · cases h

theorem braceName_ne (src : Text) : braceName src ≠ .error .outOfFuel := by
  cases src with
  | nil => intro h; cases h
  | cons c tail =>
    simp only [braceName]
    split
    · intro h
      cases h
    split <;> (intro h; cases h)

theorem braceOp_le {src rest : Text} {op : ParamOp}
    (h : braceOp src = .ok (some (op, rest))) : rest.length ≤ src.length := by
  unfold braceOp at h
  split at h <;> cases h <;> simp only [List.length_cons] <;> omega

theorem braceOp_ne (src : Text) : braceOp src ≠ .error .outOfFuel := by
  unfold braceOp
  split <;> (intro h; cases h)

theorem closeBrace_sane (name : Text) (op : Option ParamOp) (arg : Option Word)
    (length : Bool) (src : Text) :
    Sane src.length (closeBrace name op arg length src) := by
  unfold closeBrace
  split <;> simp [Sane]

/-- The four functions inside quotes and braces, at one amount of fuel. -/
structure SaneAt (fuel : Nat) : Prop where
  doubleQuoted : ∀ src segs lit, src.length < fuel →
    Sane src.length (readDoubleQuoted fuel src segs lit)
  dollar : ∀ src, src.length < fuel → Sane src.length (readDollar fuel src)
  braceParam : ∀ src, src.length < fuel →
    Sane src.length (readBraceParam fuel src)
  untilBrace : ∀ src segs lit depth, src.length < fuel →
    Sane src.length (readUntilBrace fuel src segs lit depth)

section

variable {fuel : Nat} (ih : SaneAt fuel)

include ih

theorem readDoubleQuoted_sane (src : Text) (segs : List Seg) (lit : Text)
    (h : src.length < fuel + 1) :
    Sane src.length (readDoubleQuoted (fuel + 1) src segs lit) := by
  have hstep : ∀ (rest : Text) (segs : List Seg) (lit : Text),
      rest.length < src.length →
      Sane src.length (readDoubleQuoted fuel rest segs lit) := by
    intro rest segs lit hlt
    exact (ih.doubleQuoted rest segs lit (by omega)).mono (by omega)
  cases src with
  | nil => simp [readDoubleQuoted, Sane]
  | cons c rest =>
    simp only [List.length_cons] at h hstep ⊢
    unfold readDoubleQuoted
    split
    · simp [Sane]
    split
    · split
      · simp [Sane]
      · simp only [List.length_cons] at hstep ⊢
        split
        · exact hstep _ _ _ (by omega)
        split
        · exact hstep _ _ _ (by omega)
        · exact hstep _ _ _ (by omega)
    split
    · have hin := readBacktick_sane rest []
      split
      next e heq => exact hin.error heq
      next body rest' heq =>
        have hle := hin.rest heq
        exact hstep _ _ _ (by omega)
    split
    · have hin := ih.dollar rest (by omega)
      split
      next e heq => exact hin.error heq
      next seg rest' heq =>
        have hle := hin.rest heq
        exact hstep _ _ _ (by omega)
    · exact hstep _ _ _ (by omega)

/-- With fuel for each character it does not run out. -/
theorem readDollar_sane (src : Text) (h : src.length < fuel + 1) :
    Sane src.length (readDollar (fuel + 1) src) := by
  cases src with
  | nil => simp [readDollar, Sane]
  | cons c rest =>
    simp only [List.length_cons] at h ⊢
    unfold readDollar
    split
    · split
      · next rest =>
        simp only [List.length_cons] at h ⊢
        have hin := readBalanced_sane fuel true 1 rest [] (by omega)
        split
        next e heq => exact hin.error heq
        next body rest' heq =>
          have hle := hin.rest heq
          simp only [Sane]
          omega
      · have hin := readBalanced_sane fuel false 1 rest [] (by omega)
        split
        next e heq => exact hin.error heq
        next body rest' heq =>
          have hle := hin.rest heq
          simp only [Sane]
          omega
    split
    · exact (ih.braceParam rest (by omega)).mono (by omega)
    split
    · simp [Sane]
    split
    · have := (List.dropWhile_suffix (l := rest) isNameCont).length_le
      simp only [Sane]
      omega
    · simp [Sane]

theorem readBraceParam_sane (src : Text) (h : src.length < fuel + 1) :
    Sane src.length (readBraceParam (fuel + 1) src) := by
  have hlen := length_braceLength src
  unfold readBraceParam
  dsimp only
  split
  next e heq =>
    intro he
    exact braceName_ne _ (heq.trans (by rw [he]))
  next name src' heq =>
    have hname := braceName_lt heq
    split
    next e heq =>
      intro he
      exact braceOp_ne _ (heq.trans (by rw [he]))
    next heq => exact (closeBrace_sane _ _ _ _ _).mono (by omega)
    next op src'' heq =>
      have hop := braceOp_le heq
      have hin := ih.untilBrace src'' [] [] 1 (by omega)
      split
      next e heq => exact hin.error heq
      next arg rest heq =>
        have hle := hin.rest heq
        exact (closeBrace_sane _ _ _ _ _).mono (by omega)

theorem readUntilBrace_sane (src : Text) (segs : List Seg) (lit : Text)
    (depth : Nat) (h : src.length < fuel + 1) :
    Sane src.length (readUntilBrace (fuel + 1) src segs lit depth) := by
  have hstep : ∀ (rest : Text) (segs : List Seg) (lit : Text) (depth : Nat),
      rest.length < src.length →
      Sane src.length (readUntilBrace fuel rest segs lit depth) := by
    intro rest segs lit depth hlt
    exact (ih.untilBrace rest segs lit depth (by omega)).mono (by omega)
  cases src with
  | nil => simp [readUntilBrace, Sane]
  | cons c rest =>
    simp only [List.length_cons] at h hstep ⊢
    unfold readUntilBrace
    split
    · split
      · simp [Sane]
      · exact hstep _ _ _ _ (by omega)
    split
    · exact hstep _ _ _ _ (by omega)
    split
    · split
      · exact hstep _ _ _ _ (by simp)
      · simp only [List.length_cons] at hstep ⊢
        exact hstep _ _ _ _ (by omega)
    split
    · have hin := readSingleQuoted_sane rest []
      split
      next e heq => exact hin.error heq
      next body rest' heq =>
        have hle := hin.rest heq
        exact hstep _ _ _ _ (by omega)
    split
    · have hin := ih.doubleQuoted rest [] [] (by omega)
      split
      next e heq => exact hin.error heq
      next inner rest' heq =>
        have hle := hin.rest heq
        exact hstep _ _ _ _ (by omega)
    split
    · have hin := ih.dollar rest (by omega)
      split
      next e heq => exact hin.error heq
      next seg rest' heq =>
        have hle := hin.rest heq
        exact hstep _ _ _ _ (by omega)
    split
    · have hin := readBacktick_sane rest []
      split
      next e heq => exact hin.error heq
      next body rest' heq =>
        have hle := hin.rest heq
        exact hstep _ _ _ _ (by omega)
    · exact hstep _ _ _ _ (by omega)

end

theorem saneAt (fuel : Nat) : SaneAt fuel := by
  induction fuel with
  | zero => constructor <;> intros <;> omega
  | succ fuel ih =>
    exact ⟨readDoubleQuoted_sane ih, readDollar_sane ih,
      readBraceParam_sane ih, readUntilBrace_sane ih⟩

-- ======== words

/-- A word ends with the text, and takes what it starts with. -/
theorem readWordLoop_sane (fuel : Nat) (src : Text) (segs : List Seg)
    (lit : Text) (start : Bool) (h : src.length < fuel) :
    Sane src.length (readWordLoop fuel src segs lit start) ∧
    ∀ c rest, src = c :: rest → isWordEnd c = false → c ≠ '#' →
      Sane rest.length (readWordLoop fuel src segs lit start) := by
  induction fuel generalizing src segs lit start with
  | zero => omega
  | succ fuel ih =>
    cases src with
    | nil =>
      refine ⟨by simp [readWordLoop, Sane], ?_⟩
      intro c rest hsrc
      cases hsrc
    | cons c rest =>
      simp only [List.length_cons] at h
      have hstep : ∀ (tail : Text) (segs : List Seg) (lit : Text) (start : Bool),
          tail.length ≤ rest.length →
          Sane rest.length (readWordLoop fuel tail segs lit start) := by
        intro tail segs lit start hle
        exact (ih tail segs lit start (by omega)).1.mono hle
      have hmain : isWordEnd c = false →
          ¬ (c = '#' ∧ start ∧ segs.isEmpty ∧ lit = []) →
          Sane rest.length (readWordLoop (fuel + 1) (c :: rest) segs lit start) := by
        intro hend hhash
        unfold readWordLoop
        rw [if_neg (by simp [hend]), if_neg hhash]
        split
        · split
          · simp [Sane]
          · simp only [List.length_cons] at hstep ⊢
            split
            · exact hstep _ _ _ _ (by omega)
            split
            · exact hstep _ _ _ _ (by omega)
            · exact hstep _ _ _ _ (by omega)
        split
        · have hin := readSingleQuoted_sane rest []
          split
          next e heq => exact hin.error heq
          next body rest' heq => exact hstep _ _ _ _ (hin.rest heq)
        split
        · have hin := (saneAt fuel).doubleQuoted rest [] [] (by omega)
          split
          next e heq => exact hin.error heq
          next inner rest' heq => exact hstep _ _ _ _ (hin.rest heq)
        split
        · have hin := readBacktick_sane rest []
          split
          next e heq => exact hin.error heq
          next body rest' heq => exact hstep _ _ _ _ (hin.rest heq)
        split
        · have hin := (saneAt fuel).dollar rest (by omega)
          split
          next e heq => exact hin.error heq
          next seg rest' heq => exact hstep _ _ _ _ (hin.rest heq)
        · exact hstep _ _ _ _ (Nat.le_refl _)
      constructor
      · by_cases hend : isWordEnd c = true
        · unfold readWordLoop
          rw [if_pos hend]
          simp [Sane]
        by_cases hhash : c = '#' ∧ start ∧ segs.isEmpty ∧ lit = []
        · unfold readWordLoop
          rw [if_neg hend, if_pos hhash]
          simp [Sane]
        · exact (hmain (by simpa using hend) hhash).mono (by simp)
      · intro c' rest' hsrc hend hne
        cases hsrc
        exact hmain hend fun hhash => hne hhash.1

theorem length_skipBlanks (comment : Bool) (src : Text) :
    (skipBlanks comment src).length ≤ src.length := by
  fun_induction skipBlanks comment src with
  | case1 => simp
  | case2 => simp
  | case8 => exact Nat.le_refl _
  | _ => simp only [List.length_cons]; omega

theorem head_skipBlanks {comment : Bool} {src rest : Text} {c : Char}
    (h : skipBlanks comment src = c :: rest) :
    c ≠ ' ' ∧ c ≠ '\t' ∧ c ≠ '#' := by
  fun_induction skipBlanks comment src with
  | case1 => cases h
  | case2 tail =>
    cases h
    decide
  | case3 d tail _ ih => exact ih h
  | case4 tail ih => exact ih h
  | case5 tail ih => exact ih h
  | case6 tail ih => exact ih h
  | case7 tail ih => exact ih h
  | case8 src hnil hblank htab hbreak hhash =>
    subst h
    refine ⟨?_, ?_, ?_⟩
    · intro heq
      exact hblank rest (by rw [heq])
    · intro heq
      exact htab rest (by rw [heq])
    · intro heq
      exact hhash rest (by rw [heq])

theorem wordToken_sane {start : Text} {len : Nat}
    {r : Except LexError (Word × Text)} (h : Sane len r) :
    Sane len (wordToken start r) := by
  rcases r with e | ⟨w, rest⟩
  · exact h
  · simp only [wordToken]
    split
    · exact h
    · exact h

theorem readWord_sane (fuel : Nat) {c : Char} {rest : Text}
    (hend : isWordEnd c = false) (hhash : c ≠ '#')
    (h : (c :: rest).length < fuel) :
    Sane rest.length (readWord fuel (c :: rest)) := by
  unfold readWord
  split
  · next tail heq =>
    cases heq
    have hle := (List.dropWhile_suffix (l := rest) isTildeName).length_le
    simp only [List.length_cons] at h
    exact (readWordLoop_sane fuel _ _ _ _ (by omega)).1.mono hle
  · exact (readWordLoop_sane fuel _ _ _ _ h).2 c rest rfl hend hhash

/-- Every token but the end takes a character. -/
theorem nextToken_takes (src : Text) :
    nextToken src = .ok (.eof, []) ∨ Sane (src.length - 1) (nextToken src) := by
  unfold nextToken
  have hlen := length_skipBlanks false src
  unfold nextTokenWith
  split
  · exact .inl rfl
  all_goals right
  -- the last case is a word; the others are operators
  case h_17 hnil hnl hsemi hopen hclose _ hpipe _ _ hamp _ hless _ _ _ hgreater =>
    cases hstart : skipBlanks false src with
    | nil => exact absurd hstart hnil
    | cons c rest =>
      rw [hstart] at hlen
      obtain ⟨hblank, htab, hhash⟩ := head_skipBlanks hstart
      have hne : ∀ d, (∀ rest, skipBlanks false src = d :: rest → False) →
          c ≠ d := by
        intro d hd heq
        exact hd rest (by rw [hstart, heq])
      have hend : isWordEnd c = false := by
        simp only [isWordEnd, Bool.or_eq_false_iff, beq_eq_false_iff_ne]
        exact ⟨⟨⟨⟨⟨⟨⟨⟨⟨hblank, htab⟩, hne _ hnl⟩, hne _ hsemi⟩, hne _ hamp⟩,
          hne _ hpipe⟩, hne _ hless⟩, hne _ hgreater⟩, hne _ hopen⟩,
          hne _ hclose⟩
      simp only [List.length_cons] at hlen
      exact (wordToken_sane (readWord_sane _ hend hhash (by
        simp only [lexFuel, List.length_cons]; omega))).mono (by omega)
  all_goals
    next heq =>
      rw [heq] at hlen
      simp only [Sane, List.length_cons] at hlen ⊢
      omega

end LinuxRs.Shell
