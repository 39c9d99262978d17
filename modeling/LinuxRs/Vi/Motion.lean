/-
The normal-mode motions of vi (user_program/src/bin/vi/motion.rs).

# Columns are bytes

Every motion moves over bytes, also where a character has several of them.

# Word motions

`w`, `b` and `e` walk positions `(row, column)` with loops that end when a
position stops moving; `ahead` and the order of the positions are why they
end.
-/
import LinuxRs.Vi.Buffer

namespace LinuxRs.Vi

/-- `edit::repeat`, of an action that may panic: at least once. -/
def times {α : Type} (f : α → Option α) : Nat → α → Option α
  | 0, a => some a
  | n + 1, a => (f a).bind (times f n)

namespace Motion

-- ======== in the one line

def left (b : Buffer) : Buffer :=
  if 0 < b.col then { b with col := b.col - 1 } else b

def right (b : Buffer) : Option Buffer := do
  let line ← b.current
  some (if 0 < line.length ∧ b.col + 1 < line.length then
    { b with col := b.col + 1 } else b)

def up (b : Buffer) : Option Buffer :=
  if 0 < b.row then { b with row := b.row - 1 }.clampCol false else some b

def down (b : Buffer) : Option Buffer :=
  if b.row + 1 < b.lines.length then
    { b with row := b.row + 1 }.clampCol false
  else some b

def lineStart (b : Buffer) : Buffer := { b with col := 0 }

def isBlank (byte : Byte) : Bool := byte = chr ' ' || byte = chr '\t'

def nonBlankCol (line : Text) : Nat :=
  (line.findIdx? fun byte => !isBlank byte).getD 0

def firstNonBlank (b : Buffer) : Option Buffer := do
  let line ← b.current
  some { b with col := nonBlankCol line }

def lineEnd (b : Buffer) : Option Buffer := do
  let line ← b.current
  some { b with col := if line.length = 0 then 0 else line.length - 1 }

def bufStart (b : Buffer) : Option Buffer :=
  firstNonBlank { b with row := 0 }

def bufEnd (b : Buffer) : Option Buffer :=
  firstNonBlank { b with row := b.lines.length - 1 }

-- ======== words

inductive CharClass where
  | word
  | punct
  | space
  deriving DecidableEq

def charClass (byte : Byte) : CharClass :=
  if (chr 'a' ≤ byte ∧ byte ≤ chr 'z') ∨ (chr 'A' ≤ byte ∧ byte ≤ chr 'Z')
      ∨ (chr '0' ≤ byte ∧ byte ≤ chr '9') ∨ byte = chr '_' then .word
  else if byte = chr ' ' ∨ byte = chr '\t' then .space
  else .punct

/-- `byte_at`: a blank past the end of a line. -/
def byteAt (b : Buffer) (p : Nat × Nat) : Byte :=
  (b.line p.1).getD p.2 (chr ' ')

def classAt (b : Buffer) (p : Nat × Nat) : CharClass :=
  charClass (byteAt b p)

def advanceOne (b : Buffer) (p : Nat × Nat) : Nat × Nat :=
  let len := (b.line p.1).length
  if p.2 + 1 < len then (p.1, p.2 + 1)
  else if p.1 + 1 < b.lines.length then (p.1 + 1, 0)
  else (p.1, len - 1)

def retreatOne (b : Buffer) (p : Nat × Nat) : Nat × Nat :=
  if 0 < p.2 then (p.1, p.2 - 1)
  else if 0 < p.1 then (p.1 - 1, (b.line (p.1 - 1)).length - 1)
  else p

/-- How far a position can still advance: the rows below it, and the bytes
behind it in its own row. -/
def ahead (b : Buffer) (p : Nat × Nat) : Nat × Nat :=
  let last := (b.line p.1).length - 1
  (b.lines.length - p.1, if p.2 ≤ last then last - p.2 else 1)

/-- A step forward leaves less ahead, so the walks end. -/
theorem ahead_advanceOne (b : Buffer) (p : Nat × Nat)
    (hmoved : advanceOne b p ≠ p) :
    Prod.Lex (· < ·) (· < ·) (ahead b (advanceOne b p)) (ahead b p) := by
  obtain ⟨r, c⟩ := p
  unfold advanceOne at hmoved ⊢
  simp only at hmoved ⊢
  by_cases hinside : c + 1 < (b.line r).length
  · rw [if_pos hinside]
    apply Prod.Lex.right
    show (if c + 1 ≤ (b.line r).length - 1 then (b.line r).length - 1 - (c + 1)
      else 1) < if c ≤ (b.line r).length - 1 then (b.line r).length - 1 - c
      else 1
    rw [if_pos (by omega), if_pos (by omega)]
    omega
  · rw [if_neg hinside] at hmoved ⊢
    by_cases hbelow : r + 1 < b.lines.length
    · rw [if_pos hbelow]
      apply Prod.Lex.left
      omega
    · rw [if_neg hbelow] at hmoved ⊢
      have hc : c ≠ (b.line r).length - 1 := by
        intro heq
        exact hmoved (Prod.ext rfl heq.symm)
      apply Prod.Lex.right
      show (if (b.line r).length - 1 ≤ (b.line r).length - 1
        then (b.line r).length - 1 - ((b.line r).length - 1) else 1)
        < if c ≤ (b.line r).length - 1 then (b.line r).length - 1 - c else 1
      rw [if_pos (Nat.le_refl _), if_neg (by omega)]
      omega

theorem retreatOne_lt (b : Buffer) (p : Nat × Nat) (hp : p ≠ (0, 0)) :
    Prod.Lex (· < ·) (· < ·) (retreatOne b p) p := by
  obtain ⟨r, c⟩ := p
  unfold retreatOne
  simp only
  by_cases hc : 0 < c
  · rw [if_pos hc]
    apply Prod.Lex.right
    omega
  · rw [if_neg hc]
    have hr : 0 < r := by
      refine Nat.pos_of_ne_zero fun h => hp ?_
      rw [h, Nat.eq_zero_of_not_pos hc]
    rw [if_pos hr]
    apply Prod.Lex.left
    omega

def advanceWhile (b : Buffer) (pred : CharClass → Bool) (p : Nat × Nat) :
    Nat × Nat :=
  if pred (classAt b p) then
    if _ : advanceOne b p = p then p
    else advanceWhile b pred (advanceOne b p)
  else p
termination_by ahead b p
decreasing_by exact ahead_advanceOne b p ‹_›

def retreatWhile (b : Buffer) (pred : CharClass → Bool) (p : Nat × Nat) :
    Nat × Nat :=
  if pred (classAt b p) then
    if _ : p = (0, 0) then p
    else if retreatOne b p = p then p
    else retreatWhile b pred (retreatOne b p)
  else p
termination_by p
decreasing_by exact retreatOne_lt b p ‹_›

/-- The loop of `word_back`, over the bytes of one class. -/
def retreatClass (b : Buffer) (cls : CharClass) (p : Nat × Nat) : Nat × Nat :=
  if _ : p = (0, 0) then p
  else if classAt b (retreatOne b p) ≠ cls then p
  else retreatClass b cls (retreatOne b p)
termination_by p
decreasing_by exact retreatOne_lt b p ‹_›

/-- The loop of `word_end`, with `next_is`. -/
def advanceClass (b : Buffer) (cls : CharClass) (p : Nat × Nat) : Nat × Nat :=
  if _ : advanceOne b p = p then p
  else if classAt b (advanceOne b p) = cls then
    advanceClass b cls (advanceOne b p)
  else p
termination_by ahead b p
decreasing_by exact ahead_advanceOne b p ‹_›

def pos (b : Buffer) : Nat × Nat := (b.row, b.col)

def goTo (b : Buffer) (p : Nat × Nat) : Buffer :=
  { b with row := p.1, col := p.2 }

def wordNextPos (b : Buffer) (p : Nat × Nat) : Nat × Nat :=
  advanceWhile b (· = .space) (advanceWhile b (· = classAt b p) p)

def wordNext (b : Buffer) : Buffer := goTo b (wordNextPos b (pos b))

def wordBack (b : Buffer) : Buffer :=
  let p := retreatWhile b (· = .space) (retreatOne b (pos b))
  goTo b (retreatClass b (classAt b p) p)

def wordEnd (b : Buffer) : Buffer :=
  let p := advanceWhile b (· = .space) (advanceOne b (pos b))
  goTo b (advanceClass b (classAt b p) p)

-- ======== finds and brackets

def findForwardCol (line : Text) (col : Nat) (target : Byte) : Option Nat :=
  ((line.drop (col + 1)).findIdx? (· = target)).map (· + (col + 1))

def findForward (b : Buffer) (target : Byte) : Option (Bool × Buffer) := do
  let line ← b.current
  match findForwardCol line b.col target with
  | some col => some (true, { b with col := col })
  | none => some (false, b)

def findBackwardCol (line : Text) (col : Nat) (target : Byte) : Option Nat :=
  ((line.take col).reverse.findIdx? (· = target)).map (col - 1 - ·)

/-- `F`; the slice before the cursor panics past the end of the line. -/
def findBackward (b : Buffer) (target : Byte) : Option (Bool × Buffer) := do
  let line ← b.current
  if line.length < b.col then none
  else
    match findBackwardCol line b.col target with
    | some col => some (true, { b with col := col })
    | none => some (false, b)

/-- The brackets of the one at the cursor, and is it the opening one. -/
def bracketOf (byte : Byte) : Option (Byte × Byte × Bool) :=
  if byte = chr '(' then some (chr '(', chr ')', true)
  else if byte = chr ')' then some (chr '(', chr ')', false)
  else if byte = chr '[' then some (chr '[', chr ']', true)
  else if byte = chr ']' then some (chr '[', chr ']', false)
  else if byte = chr '\x7b' then some (chr '\x7b', chr '\x7d', true)
  else if byte = chr '\x7d' then some (chr '\x7b', chr '\x7d', false)
  else none

/-- The loops of `matching_bracket`: how many bytes before the bracket that
closes the depth. -/
def scanBracket (deeper closer : Byte) : Nat → Text → Option Nat
  | _, [] => none
  | depth, byte :: rest =>
    if byte = deeper then
      (scanBracket deeper closer (depth + 1) rest).map (· + 1)
    else if byte = closer then
      if depth = 1 then some 0
      else (scanBracket deeper closer (depth - 1) rest).map (· + 1)
    else (scanBracket deeper closer depth rest).map (· + 1)

def bracketCol (cur : Text) (col : Nat) : Option Nat := do
  let byte ← cur[col]?
  let (opening, closing, forward) ← bracketOf byte
  if forward then
    (scanBracket opening closing 1 (cur.drop (col + 1))).map (col + 1 + ·)
  else
    (scanBracket closing opening 1 (cur.take col).reverse).map (col - 1 - ·)

def matchingBracket (b : Buffer) : Option Buffer := do
  let line ← b.current
  some { b with col := (bracketCol line b.col).getD b.col }

end Motion

end LinuxRs.Vi
