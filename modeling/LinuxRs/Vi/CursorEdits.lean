/-
The edits of vi and character boundaries.

# Conditions

An edit at the cursor of a sound buffer does not panic: the cursor is at a
boundary. Where an edit then steps back by one byte (`x` and `D` at the
end of a line, `X`, Backspace, `Ctrl-W`) or goes to the last byte of what
it pasted (`p`), that byte has to start a character.
-/
import LinuxRs.Vi.CursorMoves

namespace LinuxRs.Vi

variable {b : Buffer}

-- ======== lists of lines

section Lines

variable {lines : List Text} {row : Nat} {l : Text}

theorem leads_set (h : ∀ k ∈ lines, Leads k) (hl : Leads l) :
    ∀ k ∈ lines.set row l, Leads k := by
  intro k hk
  rcases List.mem_or_eq_of_mem_set hk with hk | rfl
  · exact h k hk
  · exact hl

theorem leads_insertIdx (hrow : row ≤ lines.length) (h : ∀ k ∈ lines, Leads k)
    (hl : Leads l) : ∀ k ∈ lines.insertIdx row l, Leads k := by
  intro k hk
  rcases (List.mem_insertIdx hrow).mp hk with rfl | hk
  · exact hl
  · exact h k hk

theorem leads_eraseIdx (h : ∀ k ∈ lines, Leads k) :
    ∀ k ∈ lines.eraseIdx row, Leads k :=
  fun k hk => h k (List.mem_of_mem_eraseIdx hk)

theorem vecInsert_eq (hrow : row ≤ lines.length) :
    vecInsert lines row l = some (lines.insertIdx row l) := if_pos hrow

theorem vecRemove_eq (hl : lines[row]? = some l) :
    vecRemove lines row = some (l, lines.eraseIdx row) := by
  unfold vecRemove
  rw [hl]
  rfl

theorem Sound.atStart (hrow : b.row < b.lines.length) (hcol : b.col = 0)
    (hleads : ∀ l ∈ b.lines, Leads l) : Sound b := by
  refine ⟨hrow, ?_, hleads⟩
  rw [hcol]
  exact boundary_zero _

theorem Sound.edit (h : Sound b) (hl : Leads l) {c : Nat} {dirty : Bool}
    (hc : boundary l c = true) :
    Sound { b.setLine l with col := c, dirty := dirty } := by
  refine Sound.of (l := l) ?_ hc (leads_set h.leads hl)
  exact List.getElem?_set_self h.row

end Lines

-- ======== insert mode

theorem charOf_ascii {byte : Byte} (h : isAscii byte = true) :
    charOf byte = [byte] := by
  exact if_pos (of_decide_eq_true h)

theorem leads_ascii {byte : Byte} (h : isAscii byte = true) :
    Leads [byte] := by
  refine Leads.of_all fun c hc => ?_
  rw [List.mem_singleton.mp hc]
  exact continuation_of_isAscii h

theorem insertByte_sound (h : Sound b) {byte : Byte}
    (hascii : isAscii byte = true) :
    ∃ b', b.insertByte byte = some b' ∧ Sound b' := by
  have hle := h.col_le
  unfold Buffer.insertByte
  rw [h.current, Option.bind_eq_bind, Option.bind_some, insertText_eq h.col,
    charOf_ascii hascii]
  refine ⟨_, rfl, h.edit ?_ ?_⟩
  · exact (h.line b.row).insert (leads_ascii hascii) h.col
  · apply boundary_append_left ?_ ((h.line b.row).drop h.col)
    have hlen : ((b.line b.row).take b.col ++ [byte]).length = b.col + 1 := by
      rw [List.length_append, List.length_take, Nat.min_eq_left hle]
      rfl
    rw [← hlen]
    exact boundary_length _

theorem splitLine_sound (h : Sound b) :
    ∃ b', b.splitLine = some b' ∧ Sound b' := by
  have hrow := h.row
  have hlen : b.row + 1 ≤ (b.lines.set b.row ((b.line b.row).take b.col)).length
      := by
    rw [List.length_set]
    omega
  unfold Buffer.splitLine
  rw [h.current, Option.bind_eq_bind, Option.bind_some, splitOff_eq h.col,
    Option.bind_eq_bind, Option.bind_some]
  show ∃ b', (vecInsert (b.lines.set b.row _) (b.row + 1) _ >>= _) = some b' ∧ _
  rw [vecInsert_eq hlen]
  refine ⟨_, rfl, Sound.atStart ?_ rfl ?_⟩
  · show b.row + 1 < (List.insertIdx _ _ _).length
    rw [List.length_insertIdx_of_le_length hlen, List.length_set]
    omega
  · exact leads_insertIdx hlen (leads_set h.leads ((h.line _).take _))
      ((h.line _).drop h.col)

theorem removeAt_sound (h : Sound b) {c : Nat} {d : Bool}
    (hc : boundary (b.line b.row) c = true) (hlt : c < (b.line b.row).length) :
    ∃ ch cut, removeChar (b.line b.row) c = some (ch, cut)
      ∧ Leads cut ∧ boundary cut c = true
      ∧ cut = (b.line b.row).take c ++ (b.line b.row).drop (c + ch.length)
      ∧ ch = firstChar ((b.line b.row).drop c)
      ∧ Sound { b.setLine cut with col := c, dirty := d } := by
  have hend := boundary_charEnd (h.line b.row) hc
  have hleads := (h.line b.row).cut hend (i := c)
  have hcol := boundary_cut (h.line b.row) hc hend
  exact ⟨_, _, removeChar_eq hc hlt, hleads, hcol, rfl, rfl,
    h.edit hleads hcol⟩

/-- A backspace that is safe takes a whole character. -/
theorem backspace_sound (h : Sound b) (hsafe : leftSafe 1 b = true) :
    ∃ b', b.backspace = some b' ∧ Sound b' := by
  have hrow := h.row
  have hle := h.col_le
  unfold Buffer.backspace
  by_cases hcol : b.col = 0
  · rw [if_pos hcol]
    by_cases htop : b.row = 0
    · rw [if_pos htop]
      exact ⟨b, rfl, h⟩
    · rw [if_neg htop, vecRemove_eq (getElem?_line hrow)]
      have habove : (b.lines.eraseIdx b.row)[b.row - 1]?
          = some (b.line (b.row - 1)) := by
        rw [List.getElem?_eraseIdx_of_lt (by omega)]
        exact getElem?_line (by omega)
      show ∃ b', ((b.lines.eraseIdx b.row)[b.row - 1]? >>= _) = some b' ∧ _
      rw [habove]
      have hlines : ∀ k ∈ b.lines.eraseIdx b.row, Leads k :=
        leads_eraseIdx h.leads
      refine ⟨_, rfl, Sound.of (l := b.line (b.row - 1) ++ b.line b.row)
        ?_ ?_ ?_⟩
      · apply List.getElem?_set_self
        exact (List.getElem?_eq_some_iff.mp habove).1
      · exact boundary_append_left (boundary_length _) (h.line b.row)
      · exact leads_set hlines ((h.line _).append (h.line _))
  · rw [if_neg hcol, h.current]
    obtain ⟨ch, cut, hremove, -, -, -, -, hsound⟩ :=
      removeAt_sound (d := true) h hsafe (by omega)
    show ∃ b', (removeChar (b.line b.row) (b.col - 1) >>= _) = some b' ∧ _
    rw [hremove]
    exact ⟨_, rfl, hsound⟩

theorem insertRight_sound (h : Sound b) (hsafe : appendSafe b = true) :
    ∃ b', Editor.insertRight b = some b' ∧ Sound b' := by
  unfold Editor.insertRight
  rw [h.current]
  refine ⟨_, rfl, ?_⟩
  split
  · next hlt =>
    apply h.inLine
    unfold appendSafe at hsafe
    rwa [Nat.min_eq_left (by omega)] at hsafe
  · exact h

/-- Up and Down in insert mode are safe where the byte they come to starts
a character. -/
def insertRowSafe (row : Nat) (b : Buffer) : Bool :=
  boundary (b.line row) (min b.col (b.line row).length)

theorem clampPast_sound (h : Sound b) {row : Nat}
    (hrow : row < b.lines.length) (hsafe : insertRowSafe row b = true) :
    ∃ b', ({ b with row := row } : Buffer).clampCol true = some b'
      ∧ Sound b' := by
  rw [clampCol_eq true (b := { b with row := row }) hrow]
  exact ⟨_, rfl, h.goTo (p := (row, min b.col (b.line row).length)) hrow hsafe⟩

theorem insertUp_sound (h : Sound b)
    (hsafe : insertRowSafe (b.row - 1) b = true) :
    ∃ b', Editor.insertUp b = some b' ∧ Sound b' := by
  have hrow := h.row
  unfold Editor.insertUp
  split
  · exact clampPast_sound h (by omega) hsafe
  · exact ⟨b, rfl, h⟩

theorem insertDown_sound (h : Sound b) (hsafe : b.row + 1 < b.lines.length →
      insertRowSafe (b.row + 1) b = true) :
    ∃ b', Editor.insertDown b = some b' ∧ Sound b' := by
  unfold Editor.insertDown
  split
  · next hlt => exact clampPast_sound h hlt (hsafe hlt)
  · exact ⟨b, rfl, h⟩

def escSafe (b : Buffer) : Bool :=
  boundary (b.line b.row) (min b.col ((b.line b.row).length - 1))

theorem esc_sound (h : Sound b) (hsafe : escSafe b = true) :
    ∃ b', b.clampCol false = some b' ∧ Sound b' := by
  rw [clampCol_eq false h.row]
  exact ⟨_, rfl, h.inLine hsafe⟩

-- ======== Ctrl-W

def before (b : Buffer) : Text := ((b.line b.row).take b.col).reverse

/-- `Ctrl-W` is safe where the word before the cursor has only bytes that
start characters. -/
def dropWordSafe (b : Buffer) : Bool :=
  (((before b).dropWhile (· = chr ' ')).takeWhile (· ≠ chr ' ')).all
    fun byte => !isContinuation byte

theorem before_cons (h : Sound b) (hcol : b.col ≠ 0) :
    ∃ byte, (b.line b.row)[b.col - 1]? = some byte
      ∧ before b = byte :: ((b.line b.row).take (b.col - 1)).reverse := by
  have hle := h.col_le
  have hlt : b.col - 1 < (b.line b.row).length := by omega
  refine ⟨(b.line b.row)[b.col - 1], List.getElem?_eq_getElem hlt, ?_⟩
  unfold before
  have htake : (b.line b.row).take b.col
      = (b.line b.row).take (b.col - 1) ++ [(b.line b.row)[b.col - 1]] := by
    rw [← List.take_succ_eq_append_getElem hlt, Nat.sub_add_cancel (by omega)]
  rw [htake, List.reverse_append]
  rfl

theorem backspaceWhile_sound {kind : Byte → Bool} {fuel : Nat} (h : Sound b)
    (hfuel : b.col ≤ fuel)
    (hbytes : ∀ x ∈ (before b).takeWhile kind, isContinuation x = false) :
    ∃ b', Edit.backspaceWhile kind fuel b = some b' ∧ Sound b'
      ∧ before b' = (before b).dropWhile kind := by
  induction fuel generalizing b with
  | zero =>
    have hcol : b.col = 0 := by omega
    have hnil : before b = [] := by
      unfold before
      rw [hcol]
      rfl
    refine ⟨b, rfl, h, ?_⟩
    rw [hnil]
    rfl
  | succ fuel ih =>
    unfold Edit.backspaceWhile
    by_cases hcol : b.col = 0
    · have hnil : before b = [] := by
        unfold before
        rw [hcol]
        rfl
      rw [if_pos hcol]
      refine ⟨b, rfl, h, ?_⟩
      rw [hnil]
      rfl
    · obtain ⟨byte, hbyte, hbefore⟩ := before_cons h hcol
      rw [if_neg hcol, h.current]
      show ∃ b', (if (b.line b.row)[b.col - 1]?.elim false kind then _
        else _) = some b' ∧ _
      rw [hbyte, hbefore]
      rw [hbefore] at hbytes
      cases hkind : kind byte with
      | false =>
        rw [List.dropWhile_cons_of_neg (by rw [hkind]; decide)]
        refine ⟨b, if_neg ?_, h, hbefore⟩
        rw [Option.elim_some, hkind]
        decide
      | true =>
        rw [List.dropWhile_cons_of_pos hkind]
        rw [List.takeWhile_cons_of_pos hkind] at hbytes
        have hstart := boundary_of_byte hbyte (hbytes byte List.mem_cons_self)
        obtain ⟨ch, cut, hremove, -, -, hcut, -, hsound⟩ :=
          removeAt_sound (d := true) h hstart (by have := h.col_le; omega)
        have hbackspace : b.backspace = some { b.setLine cut with
            col := b.col - 1, dirty := true } := by
          unfold Buffer.backspace
          rw [if_neg hcol, h.current, Option.bind_eq_bind,
            Option.bind_some, hremove]
          rfl
        have hto : before { b.setLine cut with
            col := b.col - 1, dirty := true }
            = ((b.line b.row).take (b.col - 1)).reverse := by
          have hle := h.col_le
          have hline : ({ b.setLine cut with
              col := b.col - 1, dirty := true } : Buffer).line b.row
              = cut := by
            apply line_of_getElem?
            exact List.getElem?_set_self h.row
          unfold before
          rw [show ({ b.setLine cut with
            col := b.col - 1, dirty := true } : Buffer).row = b.row
            from rfl, hline, hcut]
          show (List.take (b.col - 1) (_ ++ _)).reverse = _
          rw [List.take_append_of_le_length
            (by rw [List.length_take]; omega), List.take_take, Nat.min_self]
        obtain ⟨b', hb', hsound', hbefore'⟩ := ih hsound
          (by show b.col - 1 ≤ fuel; omega) (by
            rw [hto]
            exact fun x hx => hbytes x (List.mem_cons_of_mem _ hx))
        refine ⟨b', ?_, hsound', ?_⟩
        · refine (if_pos (by rw [Option.elim_some, hkind])).trans ?_
          rw [hbackspace]
          exact hb'
        · rw [hbefore', hto]

theorem dropWordLeft_sound (h : Sound b) (hsafe : dropWordSafe b = true) :
    ∃ b', Edit.dropWordLeft b = some b' ∧ Sound b' := by
  have hblanks : ∀ x ∈ (before b).takeWhile (· = chr ' '),
      isContinuation x = false := by
    intro x hx
    have hblank := List.mem_takeWhile_imp hx
    rw [of_decide_eq_true hblank]
    decide
  obtain ⟨b₁, hb₁, hsound₁, hbefore₁⟩ :=
    backspaceWhile_sound h (Nat.le_refl _) hblanks
  have hword : ∀ x ∈ (before b₁).takeWhile (· ≠ chr ' '),
      isContinuation x = false := by
    intro x hx
    rw [hbefore₁] at hx
    simpa using List.all_eq_true.mp hsafe x hx
  obtain ⟨b₂, hb₂, hsound₂, -⟩ :=
    backspaceWhile_sound hsound₁ (Nat.le_refl _) hword
  refine ⟨b₂, ?_, hsound₂⟩
  unfold Edit.dropWordLeft
  rw [hb₁]
  exact hb₂

-- ======== normal mode

/-- One `x` is safe where it does not step back into a character: there is
none at the cursor, there is another one behind it, or the byte before the
cursor starts one. -/
def deleteCharSafe (b : Buffer) : Bool :=
  let cur := b.line b.row
  decide (cur.length ≤ b.col)
    || decide (b.col + (firstChar (cur.drop b.col)).length < cur.length)
    || boundary cur (b.col - 1)

/-- A deletion that is safe takes a whole character. -/
theorem deleteAtCursor_sound (h : Sound b) (hsafe : deleteCharSafe b = true) :
    ∃ r, b.deleteAtCursor = some r ∧ Sound r.2 := by
  unfold Buffer.deleteAtCursor
  rw [h.current]
  by_cases hnone : b.line b.row = [] ∨ (b.line b.row).length ≤ b.col
  · exact ⟨(none, b), if_pos hnone, h⟩
  · have hlt : b.col < (b.line b.row).length := by
      rw [not_or] at hnone
      omega
    obtain ⟨ch, cut, hremove, hleads, hcol, hcut, hch, hsound⟩ :=
      removeAt_sound (d := true) h h.col hlt
    refine ⟨(some ch, { b.setLine cut with
      col := if cut.length ≤ b.col ∧ 0 < b.col then b.col - 1 else b.col
      dirty := true }), ?_, ?_⟩
    · refine (if_neg hnone).trans ?_
      rw [hremove]
      rfl
    · apply h.edit hleads
      split
      · next hend =>
        have hback : boundary (b.line b.row) (b.col - 1) = true := by
          unfold deleteCharSafe at hsafe
          simp only [Bool.or_eq_true, decide_eq_true_eq] at hsafe
          rcases hsafe with (hnone | hmore) | hback
          · omega
          · have hlen := hend.1
            rw [hcut, List.length_append, List.length_take,
              List.length_drop, hch] at hlen
            omega
          · exact hback
        rw [hcut]
        apply boundary_append_left
        · exact boundary_take hback (by omega)
        · rw [hch]
          exact (h.line _).drop (boundary_charEnd (h.line _) h.col)
      · exact hcol

/-- One `X` is safe where the byte before the cursor starts a character,
and deleting that one does not step back into another one. -/
def backspaceCharSafe (b : Buffer) : Bool :=
  b.col = 0 || (boundary (b.line b.row) (b.col - 1)
    && deleteCharSafe { b with col := b.col - 1 })

theorem backspaceChar_sound (h : Sound b)
    (hsafe : backspaceCharSafe b = true) :
    ∃ r, Edit.backspaceChar b = some r ∧ Sound r.2 := by
  unfold Edit.backspaceChar
  split
  · exact ⟨(none, b), rfl, h⟩
  · next hcol =>
    unfold backspaceCharSafe at hsafe
    simp only [hcol, decide_false, Bool.false_or, Bool.and_eq_true] at hsafe
    exact deleteAtCursor_sound (h.inLine hsafe.1) hsafe.2

theorem takeLine_sound (h : Sound b) :
    ∃ l lines, b.takeLine = some (l, lines) ∧ Leads l ∧ 0 < lines.length
      ∧ ∀ k ∈ lines, Leads k := by
  have hrow := h.row
  unfold Buffer.takeLine
  split
  · next hone =>
    refine ⟨_, _, rfl, h.line 0, ?_, leads_set h.leads Leads.nil⟩
    rw [List.length_set, hone]
    decide
  · next hmany =>
    rw [vecRemove_eq (getElem?_line hrow)]
    refine ⟨_, _, rfl, h.line b.row, ?_, leads_eraseIdx h.leads⟩
    rw [List.length_eraseIdx_of_lt hrow]
    omega

theorem deleteLine_sound (h : Sound b) :
    ∃ r, b.deleteLine = some r ∧ Leads r.1 ∧ Sound r.2 := by
  obtain ⟨l, lines, htake, hl, hpos, hlines⟩ := takeLine_sound h
  unfold Buffer.deleteLine
  rw [htake]
  refine ⟨_, rfl, hl, Sound.atStart ?_ rfl hlines⟩
  show (if lines.length ≤ b.row then lines.length - 1 else b.row)
    < lines.length
  split
  · omega
  · omega

theorem clearCurrentLine_sound (h : Sound b) :
    ∃ r, b.clearCurrentLine = some r ∧ Leads r.1 ∧ Sound r.2 := by
  unfold Buffer.clearCurrentLine
  rw [h.current]
  exact ⟨_, rfl, h.line b.row, h.edit Leads.nil (boundary_zero _)⟩

theorem openBelow_sound (h : Sound b) :
    ∃ b', b.openBelow = some b' ∧ Sound b' := by
  have hrow := h.row
  have hlen : b.row + 1 ≤ b.lines.length := hrow
  unfold Buffer.openBelow
  rw [vecInsert_eq hlen]
  refine ⟨_, rfl, Sound.atStart ?_ rfl
    (leads_insertIdx hlen h.leads Leads.nil)⟩
  show b.row + 1 < (List.insertIdx _ _ _).length
  rw [List.length_insertIdx_of_le_length hlen]
  omega

theorem openAbove_sound (h : Sound b) :
    ∃ b', b.openAbove = some b' ∧ Sound b' := by
  have hrow := h.row
  have hlen : b.row ≤ b.lines.length := Nat.le_of_lt hrow
  unfold Buffer.openAbove
  rw [vecInsert_eq hlen]
  refine ⟨_, rfl, Sound.atStart ?_ rfl
    (leads_insertIdx hlen h.leads Leads.nil)⟩
  show b.row < (List.insertIdx _ _ _).length
  rw [List.length_insertIdx_of_le_length hlen]
  omega

theorem replaceAtCursor_sound (h : Sound b) {byte : Byte}
    (hascii : isAscii byte = true) :
    ∃ b', b.replaceAtCursor byte = some b' ∧ Sound b' := by
  unfold Buffer.replaceAtCursor
  rw [h.current]
  by_cases hend : (b.line b.row).length ≤ b.col
  · exact ⟨b, if_pos hend, h⟩
  · obtain ⟨ch, cut, hremove, hleads, hcol, -, -, -⟩ :=
      removeAt_sound (d := true) h h.col (by omega)
    refine ⟨{ b.setLine (cut.take b.col ++ [byte] ++ cut.drop b.col) with
      dirty := true }, ?_, ?_⟩
    · refine (if_neg hend).trans ?_
      rw [hremove]
      show (insertText cut b.col (charOf byte) >>= _) = _
      rw [insertText_eq hcol, charOf_ascii hascii]
      rfl
    · apply h.edit (c := b.col) (hleads.insert (leads_ascii hascii) hcol)
      apply boundary_append_left ?_ (hleads.drop hcol)
      exact boundary_append_left (boundary_take hcol (Nat.le_refl _))
        (leads_ascii hascii)

theorem deleteToEol_sound (h : Sound b) (hsafe : leftSafe 1 b = true) :
    ∃ r, Edit.deleteToEol b = some r ∧ Leads r.1 ∧ Sound r.2 := by
  have hle := h.col_le
  unfold Edit.deleteToEol
  rw [h.current]
  show ∃ r, (drain (b.line b.row) b.col (b.line b.row).length >>= _) = some r
    ∧ _
  rw [drain_eq hle h.col (boundary_length _)]
  have hend := boundary_length (b.line b.row)
  have hlen : ((b.line b.row).take b.col
      ++ (b.line b.row).drop (b.line b.row).length).length = b.col := by
    rw [List.drop_length, List.append_nil, List.length_take]
    omega
  refine ⟨_, rfl, ?_, h.edit ((h.line _).cut hend) ?_⟩
  · exact ((h.line _).take _).drop (boundary_take h.col hle)
  · rw [hlen]
    split
    · apply boundary_append_left ?_ ((h.line _).drop hend)
      exact boundary_take hsafe (by omega)
    · exact boundary_cut (h.line _) h.col hend

-- ======== joins and pastes

theorem trimStart_leads {s : Text} (h : Leads s) : Leads (trimStart s) := by
  have htrim : ∀ n (s : Text), Leads s → Leads (trimStartN n s) := by
    intro n
    induction n with
    | zero => exact fun s h => h
    | succ n ih =>
      intro s h
      unfold trimStartN
      split
      · exact ih _ (h.drop (boundary_firstChar s))
      · exact h
  exact htrim _ s h

theorem joint_leads (cur trimmed : Text) : Leads (Edit.joint cur trimmed) := by
  unfold Edit.joint
  split
  · exact leads_ascii (by decide)
  · exact Leads.nil

/-- Joining lines needs no care. -/
theorem joinLines_sound (h : Sound b) :
    ∃ b', Edit.joinLines b = some b' ∧ Sound b' := by
  have hrow := h.row
  unfold Edit.joinLines
  split
  · exact ⟨b, rfl, h⟩
  · next hbelow =>
    have hnext : b.row + 1 < b.lines.length := by omega
    rw [vecRemove_eq (getElem?_line hnext)]
    have hline : (b.lines.eraseIdx (b.row + 1))[b.row]?
        = some (b.line b.row) := by
      rw [List.getElem?_eraseIdx_of_lt (by omega)]
      exact getElem?_line hrow
    show ∃ b', ((b.lines.eraseIdx (b.row + 1))[b.row]? >>= _) = some b' ∧ _
    rw [hline]
    have htail := trimStart_leads (h.line (b.row + 1))
    have hjoint := joint_leads (b.line b.row) (trimStart (b.line (b.row + 1)))
    refine ⟨_, rfl, Sound.of (l := b.line b.row
        ++ Edit.joint (b.line b.row) (trimStart (b.line (b.row + 1)))
        ++ trimStart (b.line (b.row + 1))) ?_ ?_ ?_⟩
    · apply List.getElem?_set_self
      exact (List.getElem?_eq_some_iff.mp hline).1
    · exact boundary_append_left
        (boundary_append_left (boundary_length _) hjoint) htail
    · exact leads_set (leads_eraseIdx h.leads)
        (((h.line _).append hjoint).append htail)

/-- Inserted lines keep every line a text. -/
theorem insertLines_sound {lines : List Text} (hlines : ∀ k ∈ lines, Leads k)
    {news : List Text} (hnews : ∀ k ∈ news, Leads k) {row : Nat}
    (hrow : row ≤ lines.length) :
    ∃ lines', Edit.insertLines row news lines = some lines'
      ∧ lines'.length = lines.length + news.length
      ∧ (∀ k ∈ lines', Leads k) ∧ ∀ r < row, lines'[r]? = lines[r]? := by
  induction news generalizing row lines with
  | nil => exact ⟨lines, rfl, rfl, hlines, fun _ _ => rfl⟩
  | cons new rest ih =>
    have hlen := List.length_insertIdx_of_le_length hrow new
    obtain ⟨lines', hinsert, hlength, hleads, habove⟩ :=
      ih (leads_insertIdx hrow hlines (hnews new List.mem_cons_self))
        (fun k hk => hnews k (List.mem_cons_of_mem _ hk))
        (show row + 1 ≤ (lines.insertIdx row new).length by omega)
    refine ⟨lines', ?_, ?_, hleads, ?_⟩
    · unfold Edit.insertLines
      rw [vecInsert_eq hrow]
      exact hinsert
    · rw [hlength, hlen, List.length_cons]
      omega
    · intro r hr
      rw [habove r (by omega), List.getElem?_insertIdx_of_lt hr]

theorem splitNewlines_leads {s : Text} (h : Leads s) :
    ∀ k ∈ splitNewlines s, Leads k := by
  have hparts : ∀ parts : List Text, Leads ([0x0a#8].intercalate parts) →
      ∀ k ∈ parts, Leads k := by
    intro parts
    induction parts with
    | nil =>
      intro _ k hk
      cases hk
    | cons part rest ih =>
      intro hjoined k hk
      cases rest with
      | nil =>
        rw [List.intercalate_singleton] at hjoined
        rw [List.mem_singleton.mp hk]
        exact hjoined
      | cons next rest =>
        rw [List.intercalate_cons_cons, List.append_assoc] at hjoined
        rcases List.mem_cons.mp hk with rfl | hk
        · exact hjoined.of_append_left
        · apply ih ?_ k hk
          have hnewline : (part ++ ([0x0a#8]
              ++ [0x0a#8].intercalate (next :: rest)))[part.length]?
              = some 0x0a#8 := by
            rw [List.getElem?_append_right (Nat.le_refl _), Nat.sub_self]
            rfl
          have hdrop := hjoined.drop
            (boundary_succ hjoined hnewline (by decide))
          rw [List.drop_append, Nat.add_sub_cancel_left,
            List.drop_of_length_le (Nat.le_succ _)] at hdrop
          exact hdrop
  apply hparts
  unfold splitNewlines
  rw [List.intercalate_splitOn]
  exact h

theorem splitNewlines_pos (s : Text) : 0 < (splitNewlines s).length :=
  List.length_pos_iff.mpr (List.splitOn_ne_nil _ _)

theorem pasteLines_sound (h : Sound b) {row : Nat}
    (hrow : row ≤ b.lines.length) {stripped : Text} (hs : Leads stripped) :
    ∃ b', Edit.pasteLines b row stripped = some b' ∧ Sound b' := by
  obtain ⟨lines, hinsert, hlen, hleads, -⟩ :=
    insertLines_sound h.leads (splitNewlines_leads hs) hrow
  have hpos := splitNewlines_pos stripped
  unfold Edit.pasteLines
  rw [hinsert]
  refine ⟨_, rfl, Sound.atStart ?_ rfl hleads⟩
  show row < lines.length
  omega

theorem stripNewline_leads {register stripped : Text} (h : Leads register)
    (hstrip : Edit.stripNewline register = some stripped) :
    Leads stripped := by
  unfold Edit.stripNewline at hstrip
  split at hstrip
  · cases hstrip
    rw [List.dropLast_eq_take]
    exact h.take _
  · cases hstrip

/-- `p` of a part of a line is safe where the byte behind the cursor starts
a character, and so does the last byte that is pasted. -/
def pasteAfterSafe (register : Text) (b : Buffer) : Bool :=
  (Edit.stripNewline register).isSome
    || (appendSafe b && boundary register (register.length - 1))

/-- A paste that is safe goes between two characters. -/
theorem pasteAfter_sound (h : Sound b) {register : Text}
    (hregister : Leads register) (hne : register ≠ [])
    (hsafe : pasteAfterSafe register b = true) :
    ∃ b', Edit.pasteAfter b register = some b' ∧ Sound b' := by
  have hrow := h.row
  have hpos := List.length_pos_iff.mpr hne
  unfold Edit.pasteAfter
  cases hstrip : Edit.stripNewline register with
  | some stripped =>
    exact pasteLines_sound h hrow (stripNewline_leads hregister hstrip)
  | none =>
    unfold pasteAfterSafe at hsafe
    rw [hstrip] at hsafe
    simp only [Option.isSome_none, Bool.false_or, Bool.and_eq_true]
      at hsafe
    obtain ⟨happend, hlast⟩ := hsafe
    simp only [h.current, Option.bind_eq_bind, Option.bind_some]
    rw [insertText_eq happend]
    refine ⟨_, rfl, h.edit ((h.line _).insert hregister happend) ?_⟩
    apply boundary_append_left ?_ ((h.line _).drop happend)
    have hright := boundary_append_right
      (s := (b.line b.row).take (min (b.col + 1) (b.line b.row).length))
      hregister hlast
    rwa [List.length_take, Nat.min_eq_left (Nat.min_le_right _ _)]
      at hright

theorem pasteBefore_sound (h : Sound b) {register : Text}
    (hregister : Leads register) :
    ∃ b', Edit.pasteBefore b register = some b' ∧ Sound b' := by
  unfold Edit.pasteBefore
  cases hstrip : Edit.stripNewline register with
  | some stripped =>
    exact pasteLines_sound h (Nat.le_of_lt h.row)
      (stripNewline_leads hregister hstrip)
  | none =>
    simp only [h.current, Option.bind_eq_bind, Option.bind_some]
    rw [insertText_eq h.col]
    refine ⟨_, rfl, h.edit (c := b.col) ((h.line _).insert hregister h.col) ?_⟩
    apply boundary_append_left ?_ ((h.line _).drop h.col)
    exact boundary_append_left (boundary_take h.col (Nat.le_refl _)) hregister

end LinuxRs.Vi
