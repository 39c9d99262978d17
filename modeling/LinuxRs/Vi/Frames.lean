/-
What the operations of vi leave alone.

# Moves and edits

A motion changes the cursor only (`Moved`). An edit sets the dirty flag
where it changes anything but the cursor (`Tracked`), which is what
`:q` relies on.
-/
import LinuxRs.Vi.Editor

namespace LinuxRs.Vi

-- ======== the relations

/-- Only the cursor moved. -/
def Moved (b b' : Buffer) : Prop := ∃ p, b' = Motion.goTo b p

/-- A buffer that is not dirty has only its cursor moved. -/
def Tracked (b b' : Buffer) : Prop := b'.dirty = true ∨ Moved b b'

theorem Moved.refl (b : Buffer) : Moved b b := ⟨Motion.pos b, rfl⟩

theorem Moved.trans {b c d : Buffer} (hbc : Moved b c) (hcd : Moved c d) :
    Moved b d := by
  obtain ⟨p, rfl⟩ := hbc
  obtain ⟨q, rfl⟩ := hcd
  exact ⟨q, rfl⟩

theorem Moved.lines {b b' : Buffer} (h : Moved b b') : b'.lines = b.lines := by
  obtain ⟨p, rfl⟩ := h
  rfl

theorem Moved.dirty {b b' : Buffer} (h : Moved b b') : b'.dirty = b.dirty := by
  obtain ⟨p, rfl⟩ := h
  rfl

theorem Moved.tracked {b b' : Buffer} (h : Moved b b') : Tracked b b' :=
  .inr h

theorem Tracked.refl (b : Buffer) : Tracked b b := (Moved.refl b).tracked

theorem Tracked.trans {b c d : Buffer} (hbc : Tracked b c)
    (hcd : Tracked c d) : Tracked b d := by
  rcases hcd with hdirty | hmoved
  · exact .inl hdirty
  · rcases hbc with hdirty | hmoved'
    · left
      rw [hmoved.dirty]
      exact hdirty
    · exact .inr (hmoved'.trans hmoved)

theorem Tracked.clean {b b' : Buffer} (h : Tracked b b')
    (hclean : b'.dirty = false) : b.dirty = false ∧ b'.lines = b.lines := by
  rcases h with hdirty | hmoved
  · rw [hclean] at hdirty
    cases hdirty
  · refine ⟨?_, hmoved.lines⟩
    rw [← hmoved.dirty]
    exact hclean

theorem times_rel {α : Type} {f : α → Option α} {R : α → α → Prop}
    (hrefl : ∀ a, R a a) (htrans : ∀ a b c, R a b → R b c → R a c)
    (hstep : ∀ a b, f a = some b → R a b) {n : Nat} {a b : α}
    (h : times f n a = some b) : R a b := by
  induction n generalizing a with
  | zero =>
    cases h
    exact hrefl _
  | succ n ih =>
    obtain ⟨c, hc, hrest⟩ := Option.bind_eq_some_iff.mp h
    exact htrans _ c b (hstep _ c hc) (ih hrest)

theorem times_moved {f : Buffer → Option Buffer}
    (hstep : ∀ a b, f a = some b → Moved a b) {n : Nat} {a b : Buffer}
    (h : times f n a = some b) : Moved a b :=
  times_rel Moved.refl (fun _ _ _ => Moved.trans) hstep h

theorem times_tracked {f : Buffer → Option Buffer}
    (hstep : ∀ a b, f a = some b → Tracked a b) {n : Nat} {a b : Buffer}
    (h : times f n a = some b) : Tracked a b :=
  times_rel Tracked.refl (fun _ _ _ => Tracked.trans) hstep h

-- ======== motions

section Motions

variable {b b' : Buffer}

theorem clampCol_moved {past : Bool} (h : b.clampCol past = some b') :
    Moved b b' := by
  obtain ⟨line, -, h⟩ := Option.bind_eq_some_iff.mp h
  cases h
  exact ⟨(b.row, _), rfl⟩

theorem left_moved : Moved b (Motion.left b) := by
  unfold Motion.left
  split
  · exact ⟨(b.row, b.col - 1), rfl⟩
  · exact Moved.refl b

theorem right_moved (h : Motion.right b = some b') : Moved b b' := by
  obtain ⟨line, -, h⟩ := Option.bind_eq_some_iff.mp h
  cases h
  split
  · exact ⟨(b.row, b.col + 1), rfl⟩
  · exact Moved.refl b

theorem up_moved (h : Motion.up b = some b') : Moved b b' := by
  unfold Motion.up at h
  split at h
  · exact Moved.trans ⟨(b.row - 1, b.col), rfl⟩ (clampCol_moved h)
  · cases h
    exact Moved.refl b

theorem down_moved (h : Motion.down b = some b') : Moved b b' := by
  unfold Motion.down at h
  split at h
  · exact Moved.trans ⟨(b.row + 1, b.col), rfl⟩ (clampCol_moved h)
  · cases h
    exact Moved.refl b

theorem firstNonBlank_moved (h : Motion.firstNonBlank b = some b') :
    Moved b b' := by
  obtain ⟨line, -, h⟩ := Option.bind_eq_some_iff.mp h
  cases h
  exact ⟨(b.row, _), rfl⟩

theorem lineEnd_moved (h : Motion.lineEnd b = some b') : Moved b b' := by
  obtain ⟨line, -, h⟩ := Option.bind_eq_some_iff.mp h
  cases h
  exact ⟨(b.row, _), rfl⟩

theorem goTo_moved (p : Nat × Nat) : Moved b (Motion.goTo b p) := ⟨p, rfl⟩

theorem goLine_moved {count : Nat} {explicit : Bool}
    (h : Editor.goLine count explicit b = some b') : Moved b b' := by
  unfold Editor.goLine at h
  split at h
  · cases h
    exact ⟨(_, 0), rfl⟩
  · exact Moved.trans ⟨(b.lines.length - 1, b.col), rfl⟩
      (firstNonBlank_moved h)

theorem matchingBracket_moved (h : Motion.matchingBracket b = some b') :
    Moved b b' := by
  obtain ⟨line, -, h⟩ := Option.bind_eq_some_iff.mp h
  cases h
  exact ⟨(b.row, _), rfl⟩

theorem findForward_moved {target : Byte} {r : Bool × Buffer}
    (h : Motion.findForward b target = some r) : Moved b r.2 := by
  obtain ⟨line, -, h⟩ := Option.bind_eq_some_iff.mp h
  split at h
  · cases h
    exact ⟨(b.row, _), rfl⟩
  · cases h
    exact Moved.refl b

theorem findBackward_moved {target : Byte} {r : Bool × Buffer}
    (h : Motion.findBackward b target = some r) : Moved b r.2 := by
  obtain ⟨line, -, h⟩ := Option.bind_eq_some_iff.mp h
  split at h
  · cases h
  · split at h
    · cases h
      exact ⟨(b.row, _), rfl⟩
    · cases h
      exact Moved.refl b

theorem findTarget_moved {verb : FindVerb} {target : Byte} {r : Bool × Buffer}
    (h : Editor.findTarget verb b target = some r) : Moved b r.2 := by
  cases verb with
  | f => exact findForward_moved h
  | F => exact findBackward_moved h
  | t =>
    obtain ⟨found, hfound, h⟩ := Option.map_eq_some_iff.mp h
    subst h
    apply Moved.trans (findForward_moved hfound)
    split
    · exact ⟨(found.2.row, _), rfl⟩
    · exact Moved.refl _
  | T =>
    obtain ⟨found, hfound, h⟩ := Option.map_eq_some_iff.mp h
    subst h
    apply Moved.trans (findBackward_moved hfound)
    split
    · exact ⟨(found.2.row, _), rfl⟩
    · exact Moved.refl _

theorem find_moved {ρ : Type} {lib : RegexLib ρ} {s : Search ρ}
    {forward includeCursor : Bool} {r : Bool × Buffer}
    (h : Search.find lib s b forward includeCursor = some r) :
    Moved b r.2 := by
  unfold Search.find at h
  split at h
  · cases h
    exact Moved.refl b
  · obtain ⟨found, -, h⟩ := Option.map_eq_some_iff.mp h
    subst h
    cases found with
    | none => exact Moved.refl b
    | some p => exact goTo_moved p

theorem appendBuffer_moved (h : Editor.appendBuffer b = some b') :
    Moved b b' := by
  obtain ⟨line, -, h⟩ := Option.bind_eq_some_iff.mp h
  exact Moved.trans ⟨(b.row, _), rfl⟩ (clampCol_moved h)

theorem appendEndBuffer_moved (h : Editor.appendEndBuffer b = some b') :
    Moved b b' := by
  obtain ⟨line, -, h⟩ := Option.bind_eq_some_iff.mp h
  cases h
  exact ⟨(b.row, _), rfl⟩

theorem insertRight_moved (h : Editor.insertRight b = some b') :
    Moved b b' := by
  obtain ⟨line, -, h⟩ := Option.bind_eq_some_iff.mp h
  cases h
  split
  · exact ⟨(b.row, b.col + 1), rfl⟩
  · exact Moved.refl b

theorem insertUp_moved (h : Editor.insertUp b = some b') : Moved b b' := by
  unfold Editor.insertUp at h
  split at h
  · exact Moved.trans ⟨(b.row - 1, b.col), rfl⟩ (clampCol_moved h)
  · cases h
    exact Moved.refl b

theorem insertDown_moved (h : Editor.insertDown b = some b') : Moved b b' := by
  unfold Editor.insertDown at h
  split at h
  · exact Moved.trans ⟨(b.row + 1, b.col), rfl⟩ (clampCol_moved h)
  · cases h
    exact Moved.refl b

end Motions

-- ======== edits

section Edits

variable {b b' : Buffer}

theorem insertByte_tracked {byte : Byte}
    (h : b.insertByte byte = some b') : Tracked b b' := by
  obtain ⟨line, -, h⟩ := Option.bind_eq_some_iff.mp h
  obtain ⟨line', -, h⟩ := Option.bind_eq_some_iff.mp h
  cases h
  exact .inl rfl

theorem splitLine_tracked (h : b.splitLine = some b') : Tracked b b' := by
  obtain ⟨line, -, h⟩ := Option.bind_eq_some_iff.mp h
  obtain ⟨parts, -, h⟩ := Option.bind_eq_some_iff.mp h
  obtain ⟨lines, -, h⟩ := Option.bind_eq_some_iff.mp h
  cases h
  exact .inl rfl

theorem backspace_tracked (h : b.backspace = some b') : Tracked b b' := by
  unfold Buffer.backspace at h
  split at h
  · split at h
    · cases h
      exact Tracked.refl b
    · obtain ⟨cur, -, h⟩ := Option.bind_eq_some_iff.mp h
      obtain ⟨above, -, h⟩ := Option.bind_eq_some_iff.mp h
      cases h
      exact .inl rfl
  · obtain ⟨line, -, h⟩ := Option.bind_eq_some_iff.mp h
    obtain ⟨line', -, h⟩ := Option.bind_eq_some_iff.mp h
    cases h
    exact .inl rfl

theorem deleteAtCursor_tracked {r : Option Text × Buffer}
    (h : b.deleteAtCursor = some r) : Tracked b r.2 := by
  obtain ⟨line, -, h⟩ := Option.bind_eq_some_iff.mp h
  split at h
  · cases h
    exact Tracked.refl b
  · obtain ⟨line', -, h⟩ := Option.bind_eq_some_iff.mp h
    cases h
    exact .inl rfl

theorem deleteLine_tracked {r : Text × Buffer}
    (h : b.deleteLine = some r) : Tracked b r.2 := by
  obtain ⟨lines, -, h⟩ := Option.bind_eq_some_iff.mp h
  cases h
  exact .inl rfl

theorem clearCurrentLine_tracked {r : Text × Buffer}
    (h : b.clearCurrentLine = some r) : Tracked b r.2 := by
  obtain ⟨line, -, h⟩ := Option.bind_eq_some_iff.mp h
  cases h
  exact .inl rfl

theorem openBelow_tracked (h : b.openBelow = some b') : Tracked b b' := by
  obtain ⟨lines, -, h⟩ := Option.bind_eq_some_iff.mp h
  cases h
  exact .inl rfl

theorem openAbove_tracked (h : b.openAbove = some b') : Tracked b b' := by
  obtain ⟨lines, -, h⟩ := Option.bind_eq_some_iff.mp h
  cases h
  exact .inl rfl

theorem replaceAtCursor_tracked {byte : Byte}
    (h : b.replaceAtCursor byte = some b') : Tracked b b' := by
  obtain ⟨line, -, h⟩ := Option.bind_eq_some_iff.mp h
  split at h
  · cases h
    exact Tracked.refl b
  · obtain ⟨line', -, h⟩ := Option.bind_eq_some_iff.mp h
    obtain ⟨line'', -, h⟩ := Option.bind_eq_some_iff.mp h
    cases h
    exact .inl rfl

theorem backspaceChar_tracked {r : Option Text × Buffer}
    (h : Edit.backspaceChar b = some r) : Tracked b r.2 := by
  unfold Edit.backspaceChar at h
  split at h
  · cases h
    exact Tracked.refl b
  · exact Tracked.trans (Moved.tracked ⟨(b.row, b.col - 1), rfl⟩)
      (deleteAtCursor_tracked h)

theorem pasteLines_tracked {row : Nat} {stripped : Text}
    (h : Edit.pasteLines b row stripped = some b') : Tracked b b' := by
  obtain ⟨lines, -, h⟩ := Option.bind_eq_some_iff.mp h
  cases h
  exact .inl rfl

theorem pasteAfter_tracked {register : Text}
    (h : Edit.pasteAfter b register = some b') : Tracked b b' := by
  unfold Edit.pasteAfter at h
  split at h
  · exact pasteLines_tracked h
  · obtain ⟨line, -, h⟩ := Option.bind_eq_some_iff.mp h
    obtain ⟨line', -, h⟩ := Option.bind_eq_some_iff.mp h
    cases h
    exact .inl rfl

theorem pasteBefore_tracked {register : Text}
    (h : Edit.pasteBefore b register = some b') : Tracked b b' := by
  unfold Edit.pasteBefore at h
  split at h
  · exact pasteLines_tracked h
  · obtain ⟨line, -, h⟩ := Option.bind_eq_some_iff.mp h
    obtain ⟨line', -, h⟩ := Option.bind_eq_some_iff.mp h
    cases h
    exact .inl rfl

theorem deleteWord_tracked {r : Text × Buffer}
    (h : Edit.deleteWord b = some r) : Tracked b r.2 := by
  obtain ⟨line, -, h⟩ := Option.bind_eq_some_iff.mp h
  obtain ⟨parts, -, h⟩ := Option.bind_eq_some_iff.mp h
  cases h
  exact .inl rfl

theorem deleteToEol_tracked {r : Text × Buffer}
    (h : Edit.deleteToEol b = some r) : Tracked b r.2 := by
  obtain ⟨line, -, h⟩ := Option.bind_eq_some_iff.mp h
  obtain ⟨parts, -, h⟩ := Option.bind_eq_some_iff.mp h
  cases h
  exact .inl rfl

theorem joinLines_tracked (h : Edit.joinLines b = some b') : Tracked b b' := by
  unfold Edit.joinLines at h
  split at h
  · cases h
    exact Tracked.refl b
  · obtain ⟨next, -, h⟩ := Option.bind_eq_some_iff.mp h
    obtain ⟨line, -, h⟩ := Option.bind_eq_some_iff.mp h
    cases h
    exact .inl rfl

theorem backspaceWhile_tracked {kind : Byte → Bool} {fuel : Nat}
    (h : Edit.backspaceWhile kind fuel b = some b') : Tracked b b' := by
  induction fuel generalizing b with
  | zero =>
    cases h
    exact Tracked.refl _
  | succ fuel ih =>
    unfold Edit.backspaceWhile at h
    split at h
    · cases h
      exact Tracked.refl _
    · obtain ⟨line, -, h⟩ := Option.bind_eq_some_iff.mp h
      split at h
      · obtain ⟨c, hc, h⟩ := Option.bind_eq_some_iff.mp h
        exact (backspace_tracked hc).trans (ih h)
      · cases h
        exact Tracked.refl _

theorem dropWordLeft_tracked (h : Edit.dropWordLeft b = some b') :
    Tracked b b' := by
  obtain ⟨c, hc, h⟩ := Option.bind_eq_some_iff.mp h
  exact (backspaceWhile_tracked hc).trans (backspaceWhile_tracked h)

end Edits

-- ======== ex commands

section Ex

variable {ρ : Type} {b : Buffer}

theorem readInto_tracked {io : Io} {arg : Text} {r : ExResult × Buffer}
    (h : Ex.readInto io b arg = some r) : Tracked b r.2 := by
  unfold Ex.readInto at h
  split at h
  · cases h
    exact Tracked.refl b
  · split at h
    · cases h
      exact Tracked.refl b
    · obtain ⟨lines, -, h⟩ := Option.bind_eq_some_iff.mp h
      cases h
      exact .inl rfl

theorem substituteRows_tracked {lib : RegexLib ρ} {re : ρ}
    {s : Ex.Substitution} {rows : List Nat} {count : Nat} {r : Nat × Buffer}
    (h : Ex.substituteRows lib re s rows (count, b) = some r) :
    Tracked b r.2 := by
  induction rows generalizing b count with
  | nil =>
    cases h
    exact Tracked.refl _
  | cons row rest ih =>
    obtain ⟨line, -, h⟩ := Option.bind_eq_some_iff.mp h
    by_cases hnew : Ex.rewrite lib re s line = line
    · rw [if_pos hnew] at h
      exact ih h
    · rw [if_neg hnew] at h
      exact Tracked.trans (.inl rfl) (ih h)

theorem substitute_tracked {lib : RegexLib ρ} {line : Text}
    {r : ExResult × Buffer} (h : Ex.substitute lib line b = some r) :
    Tracked b r.2 := by
  unfold Ex.substitute at h
  split at h
  · cases h
    exact Tracked.refl b
  · split at h
    · cases h
      exact Tracked.refl b
    · obtain ⟨state, hstate, h⟩ := Option.bind_eq_some_iff.mp h
      cases h
      exact substituteRows_tracked hstate

end Ex

end LinuxRs.Vi
