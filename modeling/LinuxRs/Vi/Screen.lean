/-
Buffer columns and screen columns in vi
(user_program/src/bin/vi/screen.rs).

Two functions walk a line: `byte_col_to_screen` adds up the widths before a
byte, and `render_line_into` emits what each byte shows, cut at both edges of
the viewport. What they have in common is the line as it would be shown on a
screen without edges (`shownFrom`): the rendering is a part of it
(`renderFrom_eq`), and a byte's screen column is its place in it.

Left of the viewport the subtraction saturates, as in `draw`. Lines are far
too short for a screen column to overflow.
-/
import LinuxRs.Vi.Editor

namespace LinuxRs.Vi

-- ======== the code

def cols : Nat := 80

def tabWidth : Nat := 8

/-- The first row and column on the screen. -/
structure Viewport where
  top : Nat
  left : Nat

def displayWidthOf (b : Byte) (screen : Nat) : Nat :=
  if b = 0x09#8 then tabWidth - screen % tabWidth
  else if b ≤ 0x1f#8 ∨ b = 0x7f#8 then 2
  else 1

def screenFrom (byteCol : Nat) : Text → Nat → Nat → Nat
  | [], _, screen => screen
  | b :: line, i, screen =>
    if i = byteCol then screen
    else screenFrom byteCol line (i + 1) (screen + displayWidthOf b screen)

def byteColToScreen (line : Text) (byteCol : Nat) : Nat :=
  screenFrom byteCol line 0 0

def Viewport.track (v : Viewport) (buf : Buffer) (curRow curByteCol : Nat) :
    Viewport :=
  let top :=
    if curRow < v.top then curRow
    else if v.top + textRows ≤ curRow then curRow + 1 - textRows
    else v.top
  let screenCol := byteColToScreen (buf.line curRow) curByteCol
  let left :=
    if screenCol < v.left then screenCol
    else if v.left + cols ≤ screenCol then screenCol + 1 - cols
    else v.left
  { top := top, left := left }

def glyphRange (glyphs : Text) (first last : Nat) : Option Text :=
  if first ≤ last ∧ last ≤ glyphs.length then
    some ((glyphs.take last).drop first)
  else none

/-- `emit_cell`: the characters that it pushes, one for each cell. -/
def emitCell (b : Byte) (screen screenLeft maxScreen : Nat) : Option Text :=
  let cellW := displayWidthOf b screen
  let visibleFrom := max screen screenLeft - screen
  let visibleTo := min (screen + cellW) maxScreen - screen
  if b = 0x09#8 then some (List.replicate (visibleTo - visibleFrom) (chr ' '))
  else if b ≤ 0x1f#8 then
    glyphRange [chr '^', b ^^^ 0x40#8] visibleFrom visibleTo
  else if b = 0x7f#8 then glyphRange [chr '^', chr '?'] visibleFrom visibleTo
  else some [b]

def renderFrom (screenLeft maxScreen : Nat) : Text → Nat → Option Text
  | [], _ => some []
  | b :: line, screen =>
    let nextScreen := screen + displayWidthOf b screen
    let cell :=
      if screenLeft < nextScreen ∧ screen < maxScreen then
        emitCell b screen screenLeft maxScreen
      else some []
    cell.bind fun cell =>
      if maxScreen ≤ nextScreen then some cell
      else (renderFrom screenLeft maxScreen line nextScreen).map (cell ++ ·)

def renderLineInto (line : Text) (screenLeft cols : Nat) : Option Text :=
  renderFrom screenLeft (screenLeft + cols) line 0

-- ======== a line without edges

def shown (b : Byte) (screen : Nat) : Text :=
  if b = 0x09#8 then List.replicate (tabWidth - screen % tabWidth) (chr ' ')
  else if b ≤ 0x1f#8 then [chr '^', b ^^^ 0x40#8]
  else if b = 0x7f#8 then [chr '^', chr '?']
  else [b]

def shownFrom : Text → Nat → Text
  | [], _ => []
  | b :: line, screen =>
    shown b screen ++ shownFrom line (screen + displayWidthOf b screen)

/-- The part of some cells, the first one at `screen`, that lies between two
columns. -/
def visible (left right : Nat) (cells : Text) (screen : Nat) : Text :=
  (cells.drop (left - screen)).take (right - max screen left)

variable {left right screen : Nat}

theorem length_shown (b : Byte) (screen : Nat) :
    (shown b screen).length = displayWidthOf b screen := by
  unfold shown displayWidthOf
  split
  next => exact List.length_replicate
  next htab =>
    by_cases hlow : b ≤ 0x1f#8
    · rw [if_pos hlow, if_pos (.inl hlow)]
      rfl
    · by_cases hdel : b = 0x7f#8
      · rw [if_neg hlow, if_pos hdel, if_pos (.inr hdel)]
        rfl
      · rw [if_neg hlow, if_neg hdel, if_neg (not_or.mpr ⟨hlow, hdel⟩)]
        rfl

theorem width_pos (b : Byte) (screen : Nat) : 0 < displayWidthOf b screen := by
  unfold displayWidthOf tabWidth
  split
  · omega
  · split <;> decide

theorem visible_append (cells rest : Text) :
    visible left right (cells ++ rest) screen = visible left right cells screen
        ++ visible left right rest (screen + cells.length) := by
  unfold visible
  rw [List.drop_append, List.take_append, List.length_drop,
    show left - screen - cells.length = left - (screen + cells.length) by omega,
    show right - max screen left - (cells.length - (left - screen))
      = right - max (screen + cells.length) left by omega]

theorem visible_outside {cells : Text}
    (h : screen + cells.length ≤ left ∨ right ≤ screen) :
    visible left right cells screen = [] := by
  unfold visible
  rcases h with h | h
  · rw [List.drop_of_length_le (by omega), List.take_nil]
  · rw [show right - max screen left = 0 by omega, List.take_zero]

theorem glyphRange_eq {glyphs : Text} (hleft : left < screen + glyphs.length)
    (hright : screen < right) (hlt : left < right) :
    glyphRange glyphs (max screen left - screen)
        (min (screen + glyphs.length) right - screen)
      = some (visible left right glyphs screen) := by
  unfold glyphRange visible
  rw [if_pos (by omega), List.drop_take, show max screen left - screen
    = left - screen by omega]
  congr 1
  rcases Nat.le_total (screen + glyphs.length) right with hle | hle
  · rw [Nat.min_eq_left hle, List.take_of_length_le
      (by rw [List.length_drop]; omega), List.take_of_length_le
      (by rw [List.length_drop]; omega)]
  · rw [Nat.min_eq_right hle]
    congr 1
    omega

/-- A character shows the columns of it that are in view. -/
theorem emitCell_eq (b : Byte) (hleft : left < screen + displayWidthOf b screen)
    (hright : screen < right) (hlt : left < right) :
    emitCell b screen left right
      = some (visible left right (shown b screen) screen) := by
  have hlen := length_shown b screen
  rw [← hlen] at hleft
  unfold emitCell
  rw [← hlen]
  have hrange := glyphRange_eq hleft hright hlt
  by_cases htab : b = 0x09#8
  · rw [if_pos htab]
    have hshown : shown b screen
        = List.replicate (shown b screen).length (chr ' ') := by
      rw [hlen]
      unfold shown displayWidthOf
      rw [if_pos htab, if_pos htab]
    rw [← hrange]
    generalize (shown b screen).length = w at *
    rw [hshown]
    unfold glyphRange
    rw [if_pos (by rw [List.length_replicate]; omega), List.take_replicate,
      List.drop_replicate]
    congr 2
    omega
  · rw [if_neg htab]
    by_cases hlow : b ≤ 0x1f#8
    · have hshown : shown b screen = [chr '^', b ^^^ 0x40#8] := by
        unfold shown
        rw [if_neg htab, if_pos hlow]
      rw [if_pos hlow, ← hrange, hshown]
    · rw [if_neg hlow]
      by_cases hdel : b = 0x7f#8
      · have hshown : shown b screen = [chr '^', chr '?'] := by
          unfold shown
          rw [if_neg htab, if_neg hlow, if_pos hdel]
        rw [if_pos hdel, ← hrange, hshown]
      · have hshown : shown b screen = [b] := by
          unfold shown
          rw [if_neg htab, if_neg hlow, if_neg hdel]
        rw [hshown, List.length_singleton] at hleft
        rw [if_neg hdel, hshown]
        unfold visible
        rw [show left - screen = 0 by omega, List.drop_zero,
          List.take_of_length_le (by rw [List.length_singleton]; omega)]

/-- The cells of a line that are seen, one for each column. -/
theorem renderFrom_eq (hlt : left < right) (line : Text) (screen : Nat) :
    renderFrom left right line screen
      = some (visible left right (shownFrom line screen) screen) := by
  induction line generalizing screen with
  | nil =>
    unfold visible shownFrom
    rw [List.drop_nil, List.take_nil]
    rfl
  | cons b line ih =>
    have hlen := length_shown b screen
    have hcell : (if left < screen + displayWidthOf b screen ∧ screen < right
        then emitCell b screen left right else some [])
        = some (visible left right (shown b screen) screen) := by
      split
      next h => exact emitCell_eq b h.1 h.2 hlt
      next h =>
        rw [visible_outside]
        rw [hlen]
        omega
    simp only [renderFrom, hcell, Option.bind_some, shownFrom]
    rw [visible_append, hlen]
    split
    next hend =>
      rw [visible_outside (.inr hend), List.append_nil]
    next => rw [ih, Option.map_some]

-- ======== the two walks agree

theorem screenFrom_spec (line : Text) (i screen : Nat) {c : Nat} {b : Byte}
    (h : (line)[c]? = some b) : ∃ before after, shownFrom line screen
        = before ++ (shown b (screenFrom (i + c) line i screen) ++ after) ∧
      screenFrom (i + c) line i screen = screen + before.length := by
  induction line generalizing i screen c with
  | nil => cases h
  | cons x line ih =>
    cases c with
    | zero =>
      cases h
      rw [Nat.add_zero, screenFrom, if_pos rfl]
      exact ⟨[], _, rfl, rfl⟩
    | succ c =>
      rw [List.getElem?_cons_succ] at h
      obtain ⟨before, after, heq, hcol⟩ :=
        ih (i + 1) (screen + displayWidthOf x screen) h
      rw [show i + 1 + c = i + (c + 1) by omega] at heq hcol
      rw [screenFrom, if_neg (by omega), shownFrom, heq, hcol]
      refine ⟨shown x screen ++ before, after, ?_, ?_⟩
      · rw [List.append_assoc]
      · rw [List.length_append, length_shown, Nat.add_assoc]

/-- After `track` the cursor is inside the visible rectangle. And wherever
the viewport is, a line is rendered to at most `COLS` cells, and the cell at
a byte's screen column is the first visible cell of the byte. -/
theorem screen_mapping (v : Viewport) (buf : Buffer) (row col : Nat) :
    (let w := v.track buf row col
     let screenCol := byteColToScreen (buf.line row) col
     w.top ≤ row ∧ row < w.top + textRows ∧
       w.left ≤ screenCol ∧ screenCol < w.left + cols) ∧
    ∀ line left, ∃ cells, renderLineInto line left cols = some cells ∧
      cells.length ≤ cols ∧ ∀ c b, (line)[c]? = some b →
        (let screen := byteColToScreen line c
         left < screen + (shown b screen).length → screen < left + cols →
          ∃ cell, (shown b screen)[left - screen]? = some cell ∧
            cells[screen - left]? = some cell) := by
  constructor
  · unfold Viewport.track cols textRows
    dsimp only
    refine ⟨?_, ?_, ?_, ?_⟩ <;> split <;> try split
    all_goals omega
  · intro line left
    have hcols : left < left + cols := Nat.lt_add_of_pos_right (by decide)
    refine ⟨_, renderFrom_eq hcols line 0, ?_, ?_⟩
    · unfold visible
      rw [List.length_take]
      omega
    · intro c b hb
      dsimp only
      intro hleft hright
      obtain ⟨before, after, heq, hcol⟩ := screenFrom_spec line 0 0 hb
      rw [Nat.zero_add, Nat.zero_add] at hcol
      rw [Nat.zero_add] at heq
      unfold byteColToScreen at hleft hright ⊢
      generalize screenFrom c line 0 0 = screen at *
      subst hcol
      have hpos := width_pos b before.length
      rw [← length_shown] at hpos
      have hlt : left - before.length < (shown b before.length).length := by
        omega
      refine ⟨_, List.getElem?_eq_getElem hlt, ?_⟩
      unfold visible
      rw [heq, List.getElem?_take_of_lt (show _ < _ by omega), List.getElem?_drop,
        show left - 0 + (before.length - left)
          = before.length + (left - before.length) by omega,
        List.getElem?_append_right (Nat.le_add_right _ _),
        Nat.add_sub_cancel_left, List.getElem?_append_left hlt]
      exact List.getElem?_eq_getElem hlt

end LinuxRs.Vi
