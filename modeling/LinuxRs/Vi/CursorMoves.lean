/-
The motions of vi and character boundaries.

# What is kept

`Sound`: the row is a line, the column is a boundary of it, and every line
leads.

# Bytes and characters

`h`, `l`, `j`, `k`, `$` and `t` count bytes, so they are safe where the
byte they come to starts a character; each has that as its condition.
`0`, `^`, `gg`, `G`, `%`, `f`, `F` and `T` need none.
-/
import LinuxRs.Vi.Boundary
import LinuxRs.Vi.Frames

namespace LinuxRs.Vi

-- ======== sound buffers

/-- The cursor is on a character, and every line is one of whole
characters. -/
structure Sound (b : Buffer) : Prop where
  row : b.row < b.lines.length
  col : boundary (b.line b.row) b.col = true
  leads : ∀ l ∈ b.lines, Leads l

section Sound

variable {b : Buffer}

theorem line_of_getElem? {r : Nat} {l : Text} (h : b.lines[r]? = some l) :
    b.line r = l := by
  unfold Buffer.line
  rw [List.getD_eq_getElem?_getD, h]
  rfl

theorem getElem?_line {r : Nat} (h : r < b.lines.length) :
    b.lines[r]? = some (b.line r) := by
  have hget := List.getElem?_eq_getElem h
  rw [hget, line_of_getElem? hget]

theorem line_mem {r : Nat} (h : r < b.lines.length) :
    b.line r ∈ b.lines := List.mem_of_getElem? (getElem?_line h)

theorem Sound.current (h : Sound b) : b.current = some (b.line b.row) :=
  getElem?_line h.row

theorem Sound.line (h : Sound b) (r : Nat) : Leads (b.line r) := by
  by_cases hr : r < b.lines.length
  · exact h.leads _ (line_mem hr)
  · unfold Buffer.line
    rw [List.getD_eq_getElem?_getD,
      List.getElem?_eq_none_iff.mpr (Nat.le_of_not_lt hr)]
    exact Leads.nil

theorem Sound.col_le (h : Sound b) : b.col ≤ (b.line b.row).length :=
  boundary_le h.col

theorem Sound.of {l : Text} (hline : b.lines[b.row]? = some l)
    (hcol : boundary l b.col = true) (hleads : ∀ l ∈ b.lines, Leads l) :
    Sound b where
  row := (List.getElem?_eq_some_iff.mp hline).1
  col := by
    rw [line_of_getElem? hline]
    exact hcol
  leads := hleads

theorem Sound.goTo (h : Sound b) {p : Nat × Nat} (hrow : p.1 < b.lines.length)
    (hcol : boundary (b.line p.1) p.2 = true) : Sound (Motion.goTo b p) :=
  ⟨hrow, hcol, h.leads⟩

theorem Sound.inLine (h : Sound b) {c : Nat}
    (hcol : boundary (b.line b.row) c = true) : Sound { b with col := c } :=
  h.goTo (p := (b.row, c)) h.row hcol

end Sound

-- ======== left, right, up, down

section Steps

variable {b : Buffer} {n : Nat}

theorem times_left (n : Nat) (b : Buffer) :
    times (fun b => some (Motion.left b)) n b
      = some { b with col := b.col - n } := by
  induction n generalizing b with
  | zero => rfl
  | succ n ih =>
    show times _ n (Motion.left b) = _
    rw [ih]
    unfold Motion.left
    split
    · show some { b with col := b.col - 1 - n } = _
      rw [show b.col - 1 - n = b.col - (n + 1) by omega]
    · rw [show b.col - (n + 1) = b.col - n by omega]

/-- `h` is safe where the byte it comes to starts a character. -/
def leftSafe (n : Nat) (b : Buffer) : Bool :=
  boundary (b.line b.row) (b.col - n)

theorem left_sound (h : Sound b) (hsafe : leftSafe n b = true) :
    ∃ b', times (fun b => some (Motion.left b)) n b = some b' ∧ Sound b' :=
  ⟨_, times_left n b, h.inLine hsafe⟩

/-- Where `l` comes to: it stops at the last byte. -/
def rightCol (len col n : Nat) : Nat :=
  if col + 1 < len then min (col + n) (len - 1) else col

/-- Right by a count is right by as much, up to the end of the line. -/
theorem times_right (n : Nat) {b : Buffer} (hrow : b.row < b.lines.length) :
    times Motion.right n b = some { b with
          col := rightCol (b.line b.row).length b.col n } := by
  induction n generalizing b with
  | zero =>
    unfold rightCol
    split
    · rw [Nat.add_zero, Nat.min_eq_left (by omega)]
      rfl
    · rfl
  | succ n ih =>
    have hcurrent : b.current = some (b.line b.row) := getElem?_line hrow
    have hright : Motion.right b = some (if 0 < (b.line b.row).length
            ∧ b.col + 1 < (b.line b.row).length then
          { b with col := b.col + 1 } else b) := by
      unfold Motion.right
      rw [hcurrent]
      rfl
    show (Motion.right b).bind _ = _
    rw [hright, Option.bind_some]
    by_cases hlt : b.col + 1 < (b.line b.row).length
    · rw [if_pos ⟨by omega, hlt⟩]
      refine (ih (b := { b with col := b.col + 1 }) hrow).trans ?_
      show some { b with
        col := rightCol (b.line b.row).length (b.col + 1) n } = _
      unfold rightCol
      rw [if_pos hlt]
      by_cases hnext : b.col + 1 + 1 < (b.line b.row).length
      · rw [if_pos hnext,
          show b.col + 1 + n = b.col + (n + 1) by omega]
      · rw [if_neg hnext, Nat.min_eq_right (by omega),
          show b.col + 1 = (b.line b.row).length - 1 by omega]
    · rw [if_neg (fun h => hlt h.2)]
      refine (ih hrow).trans ?_
      unfold rightCol
      rw [if_neg hlt, if_neg hlt]

/-- `l` is safe where the byte it comes to starts a character. -/
def rightSafe (n : Nat) (b : Buffer) : Bool :=
  boundary (b.line b.row) (rightCol (b.line b.row).length b.col n)

theorem right_sound (h : Sound b) (hsafe : rightSafe n b = true) :
    ∃ b', times Motion.right n b = some b' ∧ Sound b' :=
  ⟨_, times_right n h.row, h.inLine hsafe⟩

/-- A column, after the lines that it has passed: each takes it to its last
byte if it is shorter. -/
def clampedCol (col : Nat) (passed : List Text) : Nat :=
  passed.foldl (fun c line => min c (line.length - 1)) col

def passedDown (n : Nat) (b : Buffer) : List Text :=
  (b.lines.drop (b.row + 1)).take n

def passedUp (n : Nat) (b : Buffer) : List Text :=
  (b.lines.take b.row).reverse.take n

theorem clampCol_eq (past : Bool) {b : Buffer}
    (hrow : b.row < b.lines.length) : b.clampCol past = some { b with
      col := min b.col (if past then (b.line b.row).length
        else (b.line b.row).length - 1) } := by
  have hcurrent : b.current = some (b.line b.row) := getElem?_line hrow
  unfold Buffer.clampCol
  rw [hcurrent]
  show some { b with col := if b.col > _ then _ else b.col } = _
  congr 2
  cases past with
  | true =>
    simp only [true_or, if_true]
    split
    · omega
    · omega
  | false =>
    simp only [Bool.false_eq_true, false_or, if_false]
    split
    · split
      · omega
      · omega
    · split
      · omega
      · omega

/-- Down by a count is down by as much, the column clamped on the way. -/
theorem times_down (n : Nat) {b : Buffer} (hrow : b.row < b.lines.length) :
    times Motion.down n b = some { b with
      row := min (b.row + n) (b.lines.length - 1)
      col := clampedCol b.col (passedDown n b) } := by
  induction n generalizing b with
  | zero =>
    unfold passedDown
    rw [List.take_zero, Nat.add_zero, Nat.min_eq_left (by omega)]
    rfl
  | succ n ih =>
    show (Motion.down b).bind _ = _
    unfold Motion.down
    by_cases hlt : b.row + 1 < b.lines.length
    · rw [if_pos hlt, clampCol_eq false (b := { b with row := b.row + 1 }) hlt,
        Option.bind_some]
      refine (ih (b := { b with
        row := b.row + 1
        col := min b.col ((b.line (b.row + 1)).length - 1) }) hlt).trans ?_
      have hpassed : passedDown (n + 1) b = b.line (b.row + 1)
          :: (b.lines.drop (b.row + 1 + 1)).take n := by
        unfold passedDown
        rw [List.drop_eq_getElem_cons hlt, List.take_succ_cons,
          ← line_of_getElem? (List.getElem?_eq_getElem hlt)]
      rw [hpassed, show b.row + (n + 1) = b.row + 1 + n by omega]
      rfl
    · rw [if_neg hlt, Option.bind_some]
      refine (ih hrow).trans ?_
      have hpassed : ∀ k, passedDown k b = [] := by
        intro k
        unfold passedDown
        rw [List.drop_eq_nil_of_le (by omega), List.take_nil]
      rw [hpassed, hpassed, Nat.min_eq_right (by omega),
        Nat.min_eq_right (by omega)]

/-- `j` is safe where the byte it comes to starts a character. -/
def downSafe (n : Nat) (b : Buffer) : Bool :=
  boundary (b.line (min (b.row + n) (b.lines.length - 1)))
    (clampedCol b.col (passedDown n b))

theorem down_sound (h : Sound b) (hsafe : downSafe n b = true) :
    ∃ b', times Motion.down n b = some b' ∧ Sound b' := by
  refine ⟨_, times_down n h.row, ?_⟩
  have := h.row
  exact h.goTo (p := (min (b.row + n) (b.lines.length - 1),
    clampedCol b.col (passedDown n b))) (by show min _ _ < _; omega) hsafe

/-- Going up row by row: the column is clamped in every row passed. -/
theorem times_up (n : Nat) {b : Buffer} (hrow : b.row < b.lines.length) :
    times Motion.up n b = some { b with
      row := b.row - n, col := clampedCol b.col (passedUp n b) } := by
  induction n generalizing b with
  | zero => rfl
  | succ n ih =>
    show (Motion.up b).bind _ = _
    unfold Motion.up
    by_cases hpos : 0 < b.row
    · have hlt : b.row - 1 < b.lines.length := by omega
      rw [if_pos hpos,
        clampCol_eq false (b := { b with row := b.row - 1 }) hlt,
        Option.bind_some]
      refine (ih (b := { b with
        row := b.row - 1
        col := min b.col ((b.line (b.row - 1)).length - 1) }) hlt).trans ?_
      have hpassed : passedUp (n + 1) b = b.line (b.row - 1)
          :: (b.lines.take (b.row - 1)).reverse.take n := by
        unfold passedUp
        rw [show b.row = b.row - 1 + 1 by omega,
          List.take_succ_eq_append_getElem hlt, List.reverse_append,
          List.reverse_singleton, List.singleton_append, List.take_succ_cons,
          ← line_of_getElem? (List.getElem?_eq_getElem hlt),
          Nat.add_sub_cancel]
      rw [hpassed, show b.row - (n + 1) = b.row - 1 - n by omega]
      rfl
    · rw [if_neg hpos, Option.bind_some]
      refine (ih hrow).trans ?_
      have hpassed : ∀ k, passedUp k b = [] := by
        intro k
        unfold passedUp
        rw [Nat.eq_zero_of_not_pos hpos, List.take_zero, List.reverse_nil,
          List.take_nil]
      rw [hpassed, hpassed, show b.row - n = b.row - (n + 1) by omega]

/-- `k` is safe where the byte it comes to starts a character. -/
def upSafe (n : Nat) (b : Buffer) : Bool :=
  boundary (b.line (b.row - n)) (clampedCol b.col (passedUp n b))

theorem up_sound (h : Sound b) (hsafe : upSafe n b = true) :
    ∃ b', times Motion.up n b = some b' ∧ Sound b' := by
  refine ⟨_, times_up n h.row, ?_⟩
  have := h.row
  exact h.goTo (p := (b.row - n, clampedCol b.col (passedUp n b)))
    (by show b.row - n < _; omega) hsafe

theorem times_times {α : Type} (f : α → Option α) (k n : Nat) (a : α) :
    times (times f k) n a = times f (k * n) a := by
  have hadd : ∀ (m j : Nat) (a : α),
      times f (m + j) a = (times f m a).bind (times f j) := by
    intro m j
    induction m with
    | zero =>
      intro a
      rw [Nat.zero_add]
      rfl
    | succ m ih =>
      intro a
      rw [Nat.succ_add]
      show (f a).bind (times f (m + j)) = ((f a).bind (times f m)).bind _
      cases f a with
      | none => rfl
      | some c => exact ih c
  induction n generalizing a with
  | zero => rfl
  | succ n ih =>
    rw [Nat.mul_succ, Nat.add_comm (k * n) k, hadd]
    show (times f k a).bind _ = _
    congr 1
    funext c
    exact ih c

end Steps

-- ======== in the line

section InLine

variable {b : Buffer}

theorem lineStart_sound (h : Sound b) : Sound (Motion.lineStart b) :=
  h.inLine (boundary_zero _)

theorem isAscii_of_isBlank {byte : Byte} (h : Motion.isBlank byte = true) :
    isAscii byte = true := by
  unfold Motion.isBlank at h
  simp only [Bool.or_eq_true, decide_eq_true_eq] at h
  rcases h with rfl | rfl
  · decide
  · decide

theorem nonBlankCol_boundary {cur : Text} (h : Leads cur) :
    boundary cur (Motion.nonBlankCol cur) = true := by
  unfold Motion.nonBlankCol
  cases hfind : cur.findIdx? fun byte => !Motion.isBlank byte with
  | none => exact boundary_zero cur
  | some i =>
    obtain ⟨hlt, -, hbefore⟩ := List.findIdx?_eq_some_iff_getElem.mp hfind
    cases i with
    | zero => exact boundary_zero cur
    | succ i =>
      have hblank : Motion.isBlank cur[i] = true := by
        simpa using hbefore i (Nat.lt_succ_self i)
      exact boundary_succ h (List.getElem?_eq_getElem _)
        (isAscii_of_isBlank hblank)

theorem firstNonBlank_sound (h : Sound b) :
    ∃ b', Motion.firstNonBlank b = some b' ∧ Sound b' := by
  unfold Motion.firstNonBlank
  rw [h.current]
  exact ⟨_, rfl, h.inLine (nonBlankCol_boundary (h.line _))⟩

theorem firstNonBlank_goTo_sound (h : Sound b) {r : Nat}
    (hr : r < b.lines.length) :
    ∃ b', Motion.firstNonBlank { b with row := r } = some b' ∧ Sound b' := by
  have hcurrent : ({ b with row := r } : Buffer).current
      = some (b.line r) := getElem?_line hr
  unfold Motion.firstNonBlank
  rw [hcurrent]
  exact ⟨_, rfl, h.goTo (p := (r, Motion.nonBlankCol (b.line r))) hr
    (nonBlankCol_boundary (h.line r))⟩

theorem bufStart_sound (h : Sound b) :
    ∃ b', Motion.bufStart b = some b' ∧ Sound b' :=
  firstNonBlank_goTo_sound h (Nat.zero_lt_of_lt h.row)

theorem goLine_sound (h : Sound b) (count : Nat) (explicit : Bool) :
    ∃ b', Editor.goLine count explicit b = some b' ∧ Sound b' := by
  have hrow := h.row
  unfold Editor.goLine
  split
  · refine ⟨_, rfl, ?_⟩
    exact h.goTo (p := (min (count - 1) (b.lines.length - 1), 0))
      (by show min _ _ < _; omega) (boundary_zero _)
  · exact firstNonBlank_goTo_sound h (by omega)

/-- `$` is safe where the last byte starts a character. -/
def lineEndSafe (b : Buffer) : Bool :=
  boundary (b.line b.row) ((b.line b.row).length - 1)

theorem lineEnd_sound (h : Sound b) (hsafe : lineEndSafe b = true) :
    ∃ b', Motion.lineEnd b = some b' ∧ Sound b' := by
  unfold Motion.lineEnd
  rw [h.current]
  refine ⟨_, rfl, h.inLine ?_⟩
  split
  · exact boundary_zero _
  · exact hsafe

/-- `a` is safe where the byte behind the cursor starts a character. -/
def appendSafe (b : Buffer) : Bool :=
  boundary (b.line b.row) (min (b.col + 1) (b.line b.row).length)

theorem append_sound (h : Sound b) (hsafe : appendSafe b = true) :
    ∃ b', Editor.appendBuffer b = some b' ∧ Sound b' := by
  unfold Editor.appendBuffer
  rw [h.current]
  show ∃ b', Buffer.clampCol _ true = some b' ∧ Sound b'
  rw [clampCol_eq true (b := { b with
    col := if b.line b.row = [] then b.col else b.col + 1 }) h.row]
  refine ⟨_, rfl, h.inLine ?_⟩
  split
  · next hempty =>
    have := h.col_le
    rw [Nat.min_eq_left (by simpa using this)]
    exact h.col
  · exact hsafe

theorem appendEnd_sound (h : Sound b) :
    ∃ b', Editor.appendEndBuffer b = some b' ∧ Sound b' := by
  unfold Editor.appendEndBuffer
  rw [h.current]
  exact ⟨_, rfl, h.inLine (boundary_length _)⟩

end InLine

-- ======== brackets and targets

section Finds

variable {b : Buffer}

theorem isAscii_of_printable (b : Printable) : isAscii b.val = true := by
  have h := b.property
  unfold isPrintable at h
  unfold isAscii
  simp only [Bool.and_eq_true, decide_eq_true_eq] at h ⊢
  bv_omega

theorem scanBracket_getElem? {deeper closer : Byte} {depth k : Nat}
    {bytes : Text}
    (h : Motion.scanBracket deeper closer depth bytes = some k) :
    bytes[k]? = some closer := by
  induction bytes generalizing depth k with
  | nil => cases h
  | cons byte rest ih =>
    unfold Motion.scanBracket at h
    split at h
    · obtain ⟨j, hj, rfl⟩ := Option.map_eq_some_iff.mp h
      exact ih hj
    · split at h
      · next heq =>
        split at h
        · cases h
          rw [heq]
          rfl
        · obtain ⟨j, hj, rfl⟩ := Option.map_eq_some_iff.mp h
          exact ih hj
      · obtain ⟨j, hj, rfl⟩ := Option.map_eq_some_iff.mp h
        exact ih hj

theorem bracketOf_ascii {byte opening closing : Byte} {forward : Bool}
    (h : Motion.bracketOf byte = some (opening, closing, forward)) :
    isAscii opening = true ∧ isAscii closing = true := by
  unfold Motion.bracketOf at h
  repeat' split at h
  all_goals cases h
  all_goals decide

theorem getElem?_before {cur : Text} {col k : Nat} {byte : Byte}
    (hcol : col ≤ cur.length) (h : (cur.take col).reverse[k]? = some byte) :
    k < col ∧ cur[col - 1 - k]? = some byte := by
  have hlt := (List.getElem?_eq_some_iff.mp h).1
  rw [List.length_reverse] at hlt
  rw [List.getElem?_reverse hlt, List.length_take, Nat.min_eq_left hcol,
    List.getElem?_take_of_lt (by rw [List.length_take] at hlt; omega)] at h
  rw [List.length_take] at hlt
  exact ⟨by omega, h⟩

theorem bracketCol_boundary {cur : Text} {col c : Nat}
    (h : Motion.bracketCol cur col = some c) : boundary cur c = true := by
  obtain ⟨byte, hbyte, h⟩ := Option.bind_eq_some_iff.mp h
  have hlt := (List.getElem?_eq_some_iff.mp hbyte).1
  obtain ⟨⟨opening, closing, forward⟩, hof, h⟩ := Option.bind_eq_some_iff.mp h
  obtain ⟨hopening, hclosing⟩ := bracketOf_ascii hof
  cases forward with
  | true =>
    obtain ⟨k, hk, rfl⟩ := Option.map_eq_some_iff.mp h
    have hbyte := scanBracket_getElem? hk
    rw [List.getElem?_drop] at hbyte
    exact boundary_of_ascii hbyte hclosing
  | false =>
    obtain ⟨k, hk, rfl⟩ := Option.map_eq_some_iff.mp h
    have hbyte := scanBracket_getElem? hk
    exact boundary_of_ascii (getElem?_before (Nat.le_of_lt hlt) hbyte).2
      hopening

theorem matchingBracket_sound (h : Sound b) :
    ∃ b', Motion.matchingBracket b = some b' ∧ Sound b' := by
  unfold Motion.matchingBracket
  rw [h.current]
  refine ⟨_, rfl, h.inLine ?_⟩
  cases hcol : Motion.bracketCol (b.line b.row) b.col with
  | none => exact h.col
  | some c => exact bracketCol_boundary hcol

theorem findForwardCol_getElem? {cur : Text} {col c : Nat} {target : Byte}
    (h : Motion.findForwardCol cur col target = some c) :
    col < c ∧ cur[c]? = some target := by
  obtain ⟨k, hk, rfl⟩ := Option.map_eq_some_iff.mp h
  obtain ⟨hlt, heq, -⟩ := List.findIdx?_eq_some_iff_getElem.mp hk
  refine ⟨by omega, ?_⟩
  have hget := List.getElem?_eq_getElem hlt
  rw [List.getElem?_drop] at hget
  rw [Nat.add_comm, hget]
  exact congrArg some (of_decide_eq_true heq)

theorem findBackwardCol_getElem? {cur : Text} {col c : Nat} {target : Byte}
    (hle : col ≤ cur.length)
    (h : Motion.findBackwardCol cur col target = some c) :
    c < col ∧ cur[c]? = some target := by
  obtain ⟨k, hk, rfl⟩ := Option.map_eq_some_iff.mp h
  obtain ⟨hlt, heq, -⟩ := List.findIdx?_eq_some_iff_getElem.mp hk
  have hget := List.getElem?_eq_getElem hlt
  obtain ⟨hcol, hbyte⟩ := getElem?_before hle hget
  refine ⟨by omega, ?_⟩
  rw [hbyte]
  exact congrArg some (of_decide_eq_true heq)

/-- `t` is safe where the byte before the target that it finds starts a
character. -/
def findSafe (verb : FindVerb) (target : Byte) (b : Buffer) : Bool :=
  match verb with
  | .t =>
    (Motion.findForwardCol (b.line b.row) b.col target).elim true fun c =>
      boundary (b.line b.row) (c - 1)
  | _ => true

theorem findForward_eq (h : Sound b) (target : Byte) :
    Motion.findForward b target
      = some ((Motion.findForwardCol (b.line b.row) b.col target).elim
        (false, b) fun c => (true, { b with col := c })) := by
  unfold Motion.findForward
  rw [h.current, Option.bind_eq_bind, Option.bind_some]
  cases Motion.findForwardCol (b.line b.row) b.col target with
  | none => rfl
  | some c => rfl

theorem findBackward_eq (h : Sound b) (target : Byte) :
    Motion.findBackward b target
      = some ((Motion.findBackwardCol (b.line b.row) b.col target).elim
        (false, b) fun c => (true, { b with col := c })) := by
  have hcol := h.col_le
  unfold Motion.findBackward
  rw [h.current, Option.bind_eq_bind, Option.bind_some, if_neg (by omega)]
  cases Motion.findBackwardCol (b.line b.row) b.col target with
  | none => rfl
  | some c => rfl

/-- A find that is safe stops at the start of a character. -/
theorem findTarget_sound (h : Sound b) {verb : FindVerb}
    {target : Printable} (hsafe : findSafe verb target.val b = true) :
    ∃ r, Editor.findTarget verb b target.val = some r ∧ Sound r.2 := by
  have hascii := isAscii_of_printable target
  cases verb with
  | f =>
    refine ⟨_, findForward_eq h target.val, ?_⟩
    cases hfind : Motion.findForwardCol (b.line b.row) b.col target.val with
    | none => exact h
    | some c =>
      exact h.inLine
        (boundary_of_ascii (findForwardCol_getElem? hfind).2 hascii)
  | F =>
    refine ⟨_, findBackward_eq h target.val, ?_⟩
    cases hfind : Motion.findBackwardCol (b.line b.row) b.col target.val with
    | none => exact h
    | some c =>
      exact h.inLine
        (boundary_of_ascii (findBackwardCol_getElem? h.col_le hfind).2 hascii)
  | t =>
    unfold Editor.findTarget
    simp only [findForward_eq h target.val, Option.map_some]
    refine ⟨_, rfl, ?_⟩
    unfold findSafe at hsafe
    cases hfind : Motion.findForwardCol (b.line b.row) b.col target.val with
    | none => exact h
    | some c =>
      have hlt := (findForwardCol_getElem? hfind).1
      simp only [hfind] at hsafe
      have hpos : (true = true ∧ 0 < c) := ⟨rfl, by omega⟩
      show Sound (if true = true ∧ 0 < c then { b with col := c - 1 }
        else { b with col := c })
      rw [if_pos hpos]
      exact h.inLine hsafe
  | T =>
    unfold Editor.findTarget
    simp only [findBackward_eq h target.val, Option.map_some]
    refine ⟨_, rfl, ?_⟩
    cases hfind : Motion.findBackwardCol (b.line b.row) b.col target.val with
    | none => exact h
    | some c =>
      exact h.inLine (boundary_succ (h.line _)
        (findBackwardCol_getElem? h.col_le hfind).2 hascii)

end Finds

end LinuxRs.Vi
