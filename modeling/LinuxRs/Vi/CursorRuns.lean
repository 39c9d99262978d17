/-
The cursor of vi along whole runs.

# The condition

`Editor.safe` is the condition of one key, put together from those of the
single motions and edits. In a run whose keys all meet it nothing panics
and the cursor stays at a boundary of a line that is there,
`cursor_sound_run`.

# The invariant

`EditorSound`: the buffer is sound, and so is every snapshot that `u` may
bring back; the register leads, as it may be pasted.
-/
import LinuxRs.Vi.CursorText
import LinuxRs.Vi.Tracking

namespace LinuxRs.Vi

variable {ρ : Type}

-- ======== the condition

def repeatSafe (safe : Buffer → Bool) (f : Buffer → Option Buffer) :
    Nat → Buffer → Bool
  | 0, _ => true
  | n + 1, b => safe b && (f b).elim true (repeatSafe safe f n)

namespace Editor

def commandSafe (e : Editor ρ) (count : Nat) : Command → Bool
  | .left => leftSafe count e.buffer
  | .right => rightSafe count e.buffer
  | .up => upSafe count e.buffer
  | .down => downSafe count e.buffer
  | .wordNext => walkSafe nextWord count e.buffer
  | .wordEnd => walkSafe endWord count e.buffer
  | .lineEnd => lineEndSafe e.buffer
  | .pageDown => downSafe (textRows * count) e.buffer
  | .pageUp => upSafe (textRows * count) e.buffer
  | .append => appendSafe e.buffer
  | .deleteChar =>
    repeatSafe deleteCharSafe
      (fun b => (Edit.deleteChar b).map (·.2)) count e.buffer
  | .backspaceChar =>
    repeatSafe backspaceCharSafe
      (fun b => (Edit.backspaceChar b).map (·.2)) count e.buffer
  | .deleteToEol => leftSafe 1 e.buffer
  | .pasteAfter => e.register.isEmpty || pasteAfterSafe e.register e.buffer
  | _ => true

def operatorSafe (op : Operator) (key : Key) (b : Buffer) : Bool :=
  match op with
  | .d => !key.isChar 'w' || deleteWordSafe b
  | .c => (!key.isChar 'w' || deleteWordSafe b)
      && (!key.isChar '$' || leftSafe 1 b)
  | _ => true

def normalSafe (e : Editor ρ) (key : Key) : Bool :=
  match e.pendingFind with
  | some verb =>
    match key with
    | .char b => findSafe verb b.val e.buffer
    | _ => true
  | none =>
    if (digitOf e.count key).isSome then true
    else if e.gPrefix ∧ key.isChar 'g' then true
    else
      match e.pendingOp with
      | some op => operatorSafe op key e.buffer
      | none =>
        key.command.elim true (commandSafe e (max e.count 1))

def insertSafe (b : Buffer) : Key → Bool
  | .esc => escSafe b
  | .backspace => leftSafe 1 b
  | .left => leftSafe 1 b
  | .right => appendSafe b
  | .up => insertRowSafe (b.row - 1) b
  | .down => insertRowSafe (b.row + 1) b
  | .ctrl c => c ≠ chr 'w' || dropWordSafe b
  | _ => true

def lineSafe (lib : RegexLib ρ) (e : Editor ρ) : CommandKind → Bool
  | .ex =>
    !Ex.isSubstitution (trimSpaces e.typedLine)
      || substituteSafe lib (trimSpaces e.typedLine) e.buffer
  | .searchForward => true
  | .searchBackward =>
    !(Search.set lib e.typedLine false).toBool || cutSafe e.buffer true

/-- The condition of a key: what it does byte by byte ends where a
character starts. -/
def safe (lib : RegexLib ρ) (e : Editor ρ) (key : Key) : Bool :=
  match e.mode with
  | .normal => e.normalSafe key
  | .insert => insertSafe e.buffer key
  | .replaceOne => true
  | .commandLine kind => key ≠ .enter || e.lineSafe lib kind

end Editor

-- ======== the invariant

def Snapshot.Sound (s : Snapshot) : Prop :=
  ∀ b : Buffer, Vi.Sound
    { b with lines := s.lines, row := s.row, col := s.col, dirty := true }

/-- The buffer is sound, with the register and every text to go back to. -/
structure EditorSound (e : Editor ρ) : Prop where
  buffer : Sound e.buffer
  register : Leads e.register
  undo : ∀ s ∈ e.undo.stack, s.Sound

/-- A step of the editor that does not panic and keeps the invariant. -/
def Goes (o : Option (Editor ρ)) : Prop :=
  ∃ e, o = some e ∧ EditorSound e

section Keeps

variable {e : Editor ρ}

theorem EditorSound.withBuffer (h : EditorSound e) {b : Buffer}
    (hb : Sound b) : EditorSound (e.withBuffer b) :=
  ⟨hb, h.register, h.undo⟩

theorem EditorSound.snapshot (h : EditorSound e) : EditorSound e.snapshot := by
  refine ⟨h.buffer, h.register, fun s hs => ?_⟩
  rcases List.mem_cons.mp hs with rfl | hs
  · exact fun b => ⟨h.buffer.row, h.buffer.col, h.buffer.leads⟩
  · apply h.undo s
    unfold Undo.room at hs
    split at hs
    · exact List.dropLast_subset _ hs
    · exact hs

theorem EditorSound.enterInsert (h : EditorSound e) :
    EditorSound e.enterInsert :=
  EditorSound.snapshot (e := { e with mode := .insert })
    ⟨h.buffer, h.register, h.undo⟩

theorem goes_some (h : EditorSound e) : Goes (some e) := ⟨e, rfl, h⟩

theorem edit_goes {f : Buffer → Option Buffer} (h : EditorSound e)
    (hf : ∃ b', f e.buffer = some b' ∧ Sound b') : Goes (e.edit f) := by
  obtain ⟨b', hb', hsound⟩ := hf
  refine ⟨e.withBuffer b', ?_, h.withBuffer hsound⟩
  unfold Editor.edit
  rw [hb']
  rfl

theorem take_goes {f : Buffer → Option (Text × Buffer)} (h : EditorSound e)
    (hf : ∃ r, f e.buffer = some r ∧ Leads r.1 ∧ Sound r.2) :
    Goes (e.take f) := by
  obtain ⟨r, hr, hleads, hsound⟩ := hf
  refine ⟨{ e with register := r.1, buffer := r.2 }, ?_,
    hsound, hleads, h.undo⟩
  unfold Editor.take
  rw [hr]
  rfl

theorem newline_leads : Leads [0x0a#8] := leads_ascii (by decide)

theorem takeLine_goes {f : Buffer → Option (Text × Buffer)} (h : EditorSound e)
    (hf : ∃ r, f e.buffer = some r ∧ Leads r.1 ∧ Sound r.2) :
    Goes (e.takeLine f) := by
  obtain ⟨r, hr, hleads, hsound⟩ := hf
  refine take_goes h ⟨(r.1 ++ [0x0a#8], r.2), ?_,
    hleads.append newline_leads, hsound⟩
  rw [hr]
  rfl

theorem map_goes {g : Editor ρ → Editor ρ} {o : Option (Editor ρ)}
    (hg : ∀ e, EditorSound e → EditorSound (g e)) (h : Goes o) :
    Goes (o.map g) := by
  obtain ⟨e, rfl, hsound⟩ := h
  exact ⟨g e, rfl, hg e hsound⟩

theorem paste_goes {f : Buffer → Text → Option Buffer} (h : EditorSound e)
    (hf : e.register ≠ [] → ∃ b', f e.buffer e.register = some b' ∧ Sound b') :
    Goes (e.paste f) := by
  unfold Editor.paste
  split
  · exact goes_some h
  · next hne => exact edit_goes h.snapshot (hf hne)

theorem searched_goes {result : Option (Bool × Buffer)}
    (h : EditorSound e) (hresult : ∃ r, result = some r ∧ Sound r.2) :
    Goes (e.searched result) := by
  obtain ⟨r, rfl, hsound⟩ := hresult
  refine ⟨_, rfl, ?_⟩
  show EditorSound (if r.1 = true then _ else _)
  split
  · exact h.withBuffer hsound
  · exact ⟨hsound, h.register, h.undo⟩

theorem undoOne_sound (h : EditorSound e) : EditorSound e.undoOne := by
  unfold Editor.undoOne Undo.popInto
  cases hhead : e.undo.stack.head? with
  | none => exact ⟨h.buffer, h.register, h.undo⟩
  | some s =>
    have hs : s ∈ e.undo.stack := List.mem_of_head? hhead
    exact ⟨h.undo s hs e.buffer, h.register,
      fun k hk => h.undo k (List.mem_of_mem_tail hk)⟩

theorem repeat_sound {safe : Buffer → Bool} {f : Buffer → Option Buffer}
    (hf : ∀ b, Sound b → safe b = true → ∃ b', f b = some b' ∧ Sound b')
    {n : Nat} {b : Buffer} (h : Sound b)
    (hsafe : repeatSafe safe f n b = true) :
    ∃ b', times f n b = some b' ∧ Sound b' := by
  induction n generalizing b with
  | zero => exact ⟨b, rfl, h⟩
  | succ n ih =>
    obtain ⟨hone, hrest⟩ := Bool.and_eq_true_iff.mp hsafe
    obtain ⟨c, hc, hsound⟩ := hf b h hone
    rw [hc] at hrest
    obtain ⟨d, hd, hsound'⟩ := ih hsound hrest
    refine ⟨d, ?_, hsound'⟩
    show (f b).bind _ = _
    rw [hc]
    exact hd

end Keeps

-- ======== the modes

namespace Editor

section Modes

variable {lib : RegexLib ρ} {io : Io} {e : Editor ρ} {key : Key}

/-- A safe command returns and leaves the cursor on a character. -/
theorem runCommand_goes (hlib : lib.Lawful) (h : EditorSound e)
    {count : Nat} {explicit : Bool} {cmd : Command}
    (hsafe : e.commandSafe count cmd = true) :
    Goes (runCommand lib e count explicit cmd) := by
  have hb := h.buffer
  cases cmd with
  | left => exact edit_goes h (left_sound hb hsafe)
  | right => exact edit_goes h (right_sound hb hsafe)
  | up => exact edit_goes h (up_sound hb hsafe)
  | down => exact edit_goes h (down_sound hb hsafe)
  | wordNext => exact edit_goes h (wordNext_sound hb hsafe)
  | wordBack => exact edit_goes h (wordBack_sound hb count)
  | wordEnd => exact edit_goes h (wordEnd_sound hb hsafe)
  | lineStart => exact goes_some (h.withBuffer (lineStart_sound hb))
  | firstNonBlank => exact edit_goes h (firstNonBlank_sound hb)
  | lineEnd => exact edit_goes h (lineEnd_sound hb hsafe)
  | gPrefix => exact goes_some ⟨hb, h.register, h.undo⟩
  | goLine => exact edit_goes h (goLine_sound hb count explicit)
  | matchingBracket => exact edit_goes h (matchingBracket_sound hb)
  | find verb => exact goes_some ⟨hb, h.register, h.undo⟩
  | pageDown =>
    apply edit_goes h
    rw [times_times]
    exact down_sound hb hsafe
  | pageUp =>
    apply edit_goes h
    rw [times_times]
    exact up_sound hb hsafe
  | insert => exact goes_some h.enterInsert
  | insertNonBlank =>
    exact map_goes (fun _ h => h.enterInsert)
      (edit_goes h (firstNonBlank_sound hb))
  | append =>
    exact map_goes (fun _ h => h.enterInsert)
      (edit_goes h (append_sound hb hsafe))
  | appendEnd =>
    exact map_goes (fun _ h => h.enterInsert)
      (edit_goes h (appendEnd_sound hb))
  | openBelow =>
    exact edit_goes (e := { e.snapshot with mode := .insert })
      ⟨hb, h.register, h.snapshot.undo⟩ (openBelow_sound hb)
  | openAbove =>
    exact edit_goes (e := { e.snapshot with mode := .insert })
      ⟨hb, h.register, h.snapshot.undo⟩ (openAbove_sound hb)
  | deleteChar =>
    refine edit_goes h.snapshot (repeat_sound ?_ hb hsafe)
    intro b hb hone
    obtain ⟨r, hr, hsound⟩ := deleteAtCursor_sound hb hone
    refine ⟨r.2, ?_, hsound⟩
    show Option.map (·.2) b.deleteAtCursor = _
    rw [hr]
    rfl
  | backspaceChar =>
    refine edit_goes h.snapshot (repeat_sound ?_ hb hsafe)
    intro b hb hone
    obtain ⟨r, hr, hsound⟩ := backspaceChar_sound hb hone
    refine ⟨r.2, ?_, hsound⟩
    rw [hr]
    rfl
  | replaceOne => exact goes_some ⟨hb, h.register, h.undo⟩
  | deleteToEol => exact take_goes h.snapshot (deleteToEol_sound hb hsafe)
  | joinLines =>
    exact edit_goes h.snapshot
      (times_sound (fun _ => joinLines_sound) count hb)
  | operator op => exact goes_some ⟨hb, h.register, h.undo⟩
  | pasteAfter =>
    refine paste_goes h fun hne => pasteAfter_sound hb h.register hne ?_
    have hsafe : (e.register.isEmpty
      || pasteAfterSafe e.register e.buffer) = true := hsafe
    rw [List.isEmpty_eq_false_iff.mpr hne] at hsafe
    exact hsafe
  | pasteBefore =>
    exact paste_goes h fun _ => pasteBefore_sound hb h.register
  | undo => exact goes_some (undoOne_sound h)
  | line kind => exact goes_some ⟨hb, h.register, h.undo⟩
  | searchNext =>
    exact searched_goes h (findAgain_sound hlib hb e.search _)
  | searchPrev =>
    exact searched_goes h (findAgain_sound hlib hb e.search _)
  | redraw => exact goes_some h

theorem saveTo_cursor (io : Io) (b : Buffer) (arg : Text) :
    (Ex.saveTo io b arg).2.lines = b.lines ∧ (Ex.saveTo io b arg).2.row = b.row
      ∧ (Ex.saveTo io b arg).2.col = b.col := by
  have hsaveAs : ∀ path, (b.saveAs io path).2.lines = b.lines
      ∧ (b.saveAs io path).2.row = b.row
      ∧ (b.saveAs io path).2.col = b.col := by
    intro path
    unfold Buffer.saveAs
    cases io.write path b.blob with
    | error err => exact ⟨rfl, rfl, rfl⟩
    | ok _ => exact ⟨rfl, rfl, rfl⟩
  unfold Ex.saveTo Buffer.save
  split
  · cases b.path with
    | none => exact ⟨rfl, rfl, rfl⟩
    | some path => exact hsaveAs path
  · exact hsaveAs arg

theorem saveTo_sound {b : Buffer} (h : Sound b) (arg : Text) :
    Sound (Ex.saveTo io b arg).2 := by
  obtain ⟨hlines, hrow, hcol⟩ := saveTo_cursor io b arg
  refine ⟨?_, ?_, ?_⟩
  · rw [hlines, hrow]
    exact h.row
  · unfold Buffer.line
    rw [hlines, hrow, hcol]
    exact h.col
  · rw [hlines]
    exact h.leads

/-- A safe operator returns and leaves the cursor on a character. -/
theorem executeOperator_goes (h : EditorSound e) {op : Operator}
    (hsafe : operatorSafe op key e.buffer = true) :
    Goes (executeOperator lib io e op key) := by
  have hb := h.buffer
  have henter : ∀ e : Editor ρ, EditorSound e → EditorSound e.enterInsert :=
    fun _ h => h.enterInsert
  unfold executeOperator
  split
  · exact takeLine_goes h.snapshot (deleteLine_sound hb)
  split
  · exact goes_some ⟨hb, (hb.line _).append newline_leads, h.undo⟩
  split
  · next hop =>
    rw [hop.1] at hsafe
    have hsafe : (!key.isChar 'w' || deleteWordSafe e.buffer) = true := hsafe
    rw [hop.2] at hsafe
    exact take_goes h.snapshot (deleteWord_sound hb hsafe)
  split
  · next hop =>
    rw [hop.1] at hsafe
    have hsafe := (Bool.and_eq_true_iff.mp hsafe).1
    rw [hop.2] at hsafe
    exact map_goes henter (take_goes h.snapshot (deleteWord_sound hb hsafe))
  split
  · exact map_goes henter
      (takeLine_goes h.snapshot (clearCurrentLine_sound hb))
  split
  · next hop =>
    rw [hop.1] at hsafe
    have hsafe := (Bool.and_eq_true_iff.mp hsafe).2
    rw [hop.2] at hsafe
    exact map_goes henter (take_goes h.snapshot (deleteToEol_sound hb hsafe))
  split
  · exact ⟨_, rfl, saveTo_sound hb [], h.register, h.undo⟩
  · exact goes_some h

/-- A safe key in normal mode. -/
theorem handleNormal_goes (hlib : lib.Lawful) (h : EditorSound e)
    (hsafe : e.normalSafe key = true) : Goes (handleNormal lib io e key) := by
  have hb := h.buffer
  unfold normalSafe at hsafe
  unfold handleNormal
  cases hfind : e.pendingFind with
  | some verb =>
    rw [hfind] at hsafe
    cases key with
    | char c =>
      obtain ⟨r, hr, hsound⟩ := findTarget_sound hb hsafe
      simp only
      show Goes (findTarget verb e.buffer c.val >>= _)
      rw [hr]
      refine ⟨_, rfl, ?_⟩
      split
      · exact ⟨hsound, h.register, h.undo⟩
      · exact ⟨hsound, h.register, h.undo⟩
    | _ => exact goes_some ⟨hb, h.register, h.undo⟩
  | none =>
    rw [hfind] at hsafe
    simp only at hsafe ⊢
    cases hdigit : digitOf e.count key with
    | some c => exact goes_some ⟨hb, h.register, h.undo⟩
    | none =>
      rw [hdigit] at hsafe
      simp only [Option.isSome_none, Bool.false_eq_true, if_false]
        at hsafe
      show Goes (handleVerb lib io e key)
      unfold handleVerb
      split
      · exact edit_goes (e := { e with gPrefix := false, count := 0 })
          ⟨hb, h.register, h.undo⟩ (bufStart_sound hb)
      · next hg =>
        rw [if_neg hg] at hsafe
        simp only
        cases hop : e.pendingOp with
        | some op =>
          rw [hop] at hsafe
          exact executeOperator_goes (e := { e with
            gPrefix := false, count := 0, pendingOp := none })
            ⟨hb, h.register, h.undo⟩ hsafe
        | none =>
          rw [hop] at hsafe
          simp only at hsafe ⊢
          cases hcmd : key.command with
          | none => exact goes_some ⟨hb, h.register, h.undo⟩
          | some cmd =>
            rw [hcmd] at hsafe
            exact runCommand_goes (e := { e with
              gPrefix := false, count := 0, pendingOp := none })
              hlib ⟨hb, h.register, h.undo⟩ hsafe

/-- A safe key in insert mode. -/
theorem handleInsert_goes (h : EditorSound e)
    (hsafe : insertSafe e.buffer key = true) : Goes (handleInsert e key) := by
  have hb := h.buffer
  cases key with
  | esc =>
    exact edit_goes (e := { e with mode := .normal })
      (f := (Buffer.clampCol · false))
      ⟨hb, h.register, h.undo⟩ (esc_sound hb hsafe)
  | enter => exact edit_goes h (splitLine_sound hb)
  | backspace => exact edit_goes h (backspace_sound hb hsafe)
  | char c =>
    exact edit_goes (f := (Buffer.insertByte · c.val)) h
      (insertByte_sound hb (isAscii_of_printable c))
  | tab =>
    exact edit_goes (f := (Buffer.insertByte · (chr '\t'))) h
      (insertByte_sound hb (by decide))
  | left =>
    obtain ⟨b', hb', hsound⟩ := left_sound hb hsafe
    cases hb'
    exact goes_some (h.withBuffer hsound)
  | right => exact edit_goes h (insertRight_sound hb hsafe)
  | up => exact edit_goes h (insertUp_sound hb hsafe)
  | down => exact edit_goes h (insertDown_sound hb fun _ => hsafe)
  | ctrl c =>
    have hsafe : (decide (c ≠ chr 'w') || dropWordSafe e.buffer) = true :=
      hsafe
    show Goes (if c = chr 'w' then e.edit Edit.dropWordLeft else some e)
    by_cases hw : c = chr 'w'
    · rw [if_pos hw]
      rw [decide_eq_false fun h => h hw] at hsafe
      exact edit_goes h (dropWordLeft_sound hb hsafe)
    · rw [if_neg hw]
      exact goes_some h
  | _ => exact goes_some h

theorem handleReplace_goes (h : EditorSound e) :
    Goes (handleReplace e key) := by
  cases key with
  | char c =>
    exact edit_goes (e := { e.snapshot with mode := .normal })
      (f := (Buffer.replaceAtCursor · c.val))
      ⟨h.buffer, h.register, h.snapshot.undo⟩
      (replaceAtCursor_sound h.buffer (isAscii_of_printable c))
  | _ => exact goes_some ⟨h.buffer, h.register, h.undo⟩

theorem typedLine_bytes (e : Editor ρ) :
    ∀ x ∈ e.typedLine, isContinuation x = false := by
  intro x hx
  obtain ⟨c, -, rfl⟩ := List.mem_map.mp hx
  exact continuation_of_isAscii (isAscii_of_printable c)

theorem runVerb_sound {b : Buffer} (hio : TextFiles io) (h : Sound b)
    (verb arg : Text) (showNumbers : Bool) :
    ∃ r, Ex.runVerb io verb arg b showNumbers = some r ∧ Sound r.2.1
      ∧ ∀ b' message, r.1 = .replace b' message → Sound b' := by
  unfold Ex.runVerb
  by_cases hw : verb = ascii "w"
  · rw [if_pos hw]
    refine ⟨_, rfl, saveTo_sound h arg, fun b' message hr => ?_⟩
    cases hr
  rw [if_neg hw]
  by_cases hq : verb = ascii "q"
  · rw [if_pos hq]
    refine ⟨_, rfl, h, fun b' message hr => ?_⟩
    have hr : Ex.quit b false = .replace b' message := hr
    unfold Ex.quit at hr
    split at hr
    · cases hr
    · cases hr
  rw [if_neg hq]
  by_cases hforce : verb = ascii "q!"
  · rw [if_pos hforce]
    refine ⟨_, rfl, h, fun b' message hr => ?_⟩
    have hr : Ex.quit b true = .replace b' message := hr
    unfold Ex.quit at hr
    split at hr
    · cases hr
    · cases hr
  rw [if_neg hforce]
  by_cases hwq : verb = ascii "wq" ∨ verb = ascii "x"
  · rw [if_pos hwq]
    refine ⟨_, rfl, saveTo_sound h arg, fun b' message hr => ?_⟩
    cases hr
  rw [if_neg hwq]
  by_cases he : verb = ascii "e"
  · rw [if_pos he]
    refine ⟨_, rfl, h, fun b' message hr => ?_⟩
    have hr : Ex.edit io arg = .replace b' message := hr
    unfold Ex.edit at hr
    split at hr
    · cases hr
    · split at hr
      · next hload =>
        cases hr
        exact load_sound hio hload
      · cases hr
  rw [if_neg he]
  by_cases hr : verb = ascii "r"
  · rw [if_pos hr]
    obtain ⟨r, hread, hsound⟩ := readInto_sound hio h arg
    rw [hread]
    refine ⟨_, rfl, hsound, fun b' message hreplace => ?_⟩
    obtain ⟨message', hmessage⟩ := readInto_continues hread
    have hreplace : r.1 = .replace b' message := hreplace
    rw [hreplace] at hmessage
    cases hmessage
  rw [if_neg hr]
  by_cases hset : verb = ascii "set"
  · rw [if_pos hset]
    refine ⟨_, rfl, h, fun b' message hreplace => ?_⟩
    obtain ⟨message', hmessage⟩ := setOption_continues arg showNumbers
    rw [show (Ex.setOption arg showNumbers).1 = .replace b' message
      from hreplace] at hmessage
    cases hmessage
  rw [if_neg hset]
  by_cases hhelp : verb = ascii "help"
  · rw [if_pos hhelp]
    refine ⟨_, rfl, h, fun b' message hr => ?_⟩
    cases hr
  · rw [if_neg hhelp]
    refine ⟨_, rfl, h, fun b' message hr => ?_⟩
    cases hr

/-- A safe command line. -/
theorem dispatch_sound (hlib : lib.Lawful) (hio : TextFiles io)
    (h : Sound e.buffer) (hsafe : e.lineSafe lib .ex = true) :
    ∃ r, Ex.dispatch lib io e.typedLine e.buffer e.showNumbers = some r
      ∧ Sound r.2.1 ∧ ∀ b message, r.1 = .replace b message → Sound b := by
  have hrow := h.row
  unfold Ex.dispatch
  simp only
  by_cases hempty : trimSpaces e.typedLine = []
  · rw [if_pos hempty]
    refine ⟨_, rfl, h, fun b message hr => ?_⟩
    cases hr
  rw [if_neg hempty]
  cases hnumber : Ex.parseUsize (trimSpaces e.typedLine) with
  | some n =>
    refine ⟨_, rfl, ?_, fun b message hr => ?_⟩
    · exact h.goTo (p := (min (n - 1) (e.buffer.lines.length - 1), 0))
        (by show min _ _ < _; omega) (boundary_zero _)
    · cases hr
  | none =>
    simp only
    by_cases hsubst : Ex.isSubstitution (trimSpaces e.typedLine) = true
    · rw [if_pos hsubst]
      have hsafe : (!Ex.isSubstitution (trimSpaces e.typedLine)
        || substituteSafe lib (trimSpaces e.typedLine) e.buffer) = true :=
        hsafe
      rw [hsubst] at hsafe
      obtain ⟨r, hr, hsound⟩ := substitute_sound hlib h
        (fun s hs => replacement_leads (fun x hx =>
          e.typedLine_bytes x (mem_of_mem_trimSpaces hx)) hs) hsafe
      rw [hr]
      refine ⟨_, rfl, hsound, fun b message hreplace => ?_⟩
      obtain ⟨message', hmessage⟩ := substitute_continues hr
      have hreplace : r.1 = .replace b message := hreplace
      rw [hreplace] at hmessage
      cases hmessage
    · rw [if_neg hsubst]
      exact runVerb_sound hio h _ _ e.showNumbers

theorem enterEx_sound (hlib : lib.Lawful) (hio : TextFiles io)
    (h : EditorSound e) (hsafe : e.lineSafe lib .ex = true) :
    ∃ out, enterEx lib io e = some out
      ∧ ∀ e', out = .running e' → EditorSound e' := by
  obtain ⟨r, hr, hsound, hreplace⟩ :=
    dispatch_sound hlib hio h.buffer hsafe
  unfold enterEx
  rw [hr]
  refine ⟨_, rfl, fun e' he' => ?_⟩
  obtain ⟨result, b, showNumbers⟩ := r
  cases result with
  | continuing message =>
    cases he'
    exact ⟨hsound, h.register, h.undo⟩
  | quit code => cases he'
  | replace b' message =>
    cases he'
    exact ⟨hreplace b' message rfl, h.register, nofun⟩

theorem enterSearch_goes (hlib : lib.Lawful) (h : EditorSound e)
    {forward : Bool} (hsafe : forward = false →
      (Search.set lib e.typedLine false).toBool = true →
      cutSafe e.buffer true = true) :
    Goes (enterSearch lib e forward) := by
  unfold enterSearch
  cases hset : Search.set lib e.typedLine forward with
  | error err =>
    simp only [hset]
    exact goes_some ⟨h.buffer, h.register, h.undo⟩
  | ok search =>
    simp only [hset]
    refine searched_goes
      (e := { e with mode := .normal, cmdline := [], search := search })
      ⟨h.buffer, h.register, h.undo⟩ ?_
    apply find_sound hlib h.buffer
    have hforward : search.forward = forward := by
      unfold Search.set at hset
      split at hset
      · cases hset
      · split at hset
        · cases hset
        · cases hset
          rfl
    intro hbackward
    have hback : forward = false := hforward ▸ hbackward
    apply hsafe hback
    rw [← hback, hset]
    rfl

/-- A key on the command line keeps the cursor on a character. -/
theorem handleCmdline_sound (hlib : lib.Lawful) (hio : TextFiles io)
    (h : EditorSound e) {kind : CommandKind}
    (hsafe : (decide (key ≠ .enter) || e.lineSafe lib kind) = true) :
    ∃ out, handleCmdline lib io e key kind = some out
      ∧ ∀ e', out = .running e' → EditorSound e' := by
  have hgoes : ∀ {o : Option (Editor ρ)}, Goes o →
      ∃ out, o.map Outcome.running = some out
        ∧ ∀ e', out = .running e' → EditorSound e' := by
    intro o ho
    obtain ⟨e', rfl, hsound⟩ := ho
    refine ⟨_, rfl, fun e'' he'' => ?_⟩
    cases he''
    exact hsound
  have hstays : ∀ x : Editor ρ, x.buffer = e.buffer → x.register = e.register →
      x.undo = e.undo → ∃ out, some (Outcome.running x) = some out
        ∧ ∀ e', out = .running e' → EditorSound e' := by
    intro x hbuffer hregister hundo
    refine ⟨_, rfl, fun e' he' => ?_⟩
    cases he'
    exact ⟨hbuffer ▸ h.buffer, hregister ▸ h.register, hundo ▸ h.undo⟩
  cases key with
  | enter =>
    have hsafe : e.lineSafe lib kind = true := hsafe
    cases kind with
    | ex => exact enterEx_sound hlib hio h hsafe
    | searchForward =>
      exact hgoes (enterSearch_goes hlib h nofun)
    | searchBackward =>
      refine hgoes (enterSearch_goes hlib h fun _ hset => ?_)
      have hsafe : (!(Search.set lib e.typedLine false).toBool
        || cutSafe e.buffer true) = true := hsafe
      rw [hset] at hsafe
      exact hsafe
  | esc => exact hstays _ rfl rfl rfl
  | backspace =>
    apply hstays
    · split <;> rfl
    · split <;> rfl
    · split <;> rfl
  | char c => exact hstays _ rfl rfl rfl
  | _ => exact hstays _ rfl rfl rfl

/-- A safe key in any mode returns, and leaves the cursor on a character. -/
theorem step_sound (hlib : lib.Lawful) (hio : TextFiles io) (h : EditorSound e)
    (hsafe : e.safe lib key = true) : ∃ out, step lib io e key = some out
      ∧ ∀ e', out = .running e' → EditorSound e' := by
  have hgoes : ∀ {o : Option (Editor ρ)}, Goes o →
      ∃ out, o.map Outcome.running = some out
        ∧ ∀ e', out = .running e' → EditorSound e' := by
    intro o ho
    obtain ⟨e', rfl, hsound⟩ := ho
    refine ⟨_, rfl, fun e'' he'' => ?_⟩
    cases he''
    exact hsound
  obtain ⟨status, hdraw⟩ := e.draw_eq
  have hdrawn : EditorSound { e with status := status } :=
    ⟨h.buffer, h.register, h.undo⟩
  unfold safe at hsafe
  unfold step
  rw [hdraw]
  simp only
  cases hmode : e.mode with
  | normal =>
    rw [hmode] at hsafe hdrawn
    exact hgoes (handleNormal_goes hlib hdrawn hsafe)
  | insert =>
    rw [hmode] at hsafe hdrawn
    exact hgoes (handleInsert_goes hdrawn hsafe)
  | replaceOne =>
    rw [hmode] at hdrawn
    exact hgoes (handleReplace_goes hdrawn)
  | commandLine kind =>
    rw [hmode] at hsafe hdrawn
    exact handleCmdline_sound hlib hio hdrawn hsafe

end Modes

end Editor

-- ======== the runs

/-- Every key of a run meets its condition, in the state that it finds. -/
def SafeRun (lib : RegexLib ρ) (e : Editor ρ) : List (Io × Key) → Prop
  | [] => True
  | (io, key) :: rest => e.safe lib key = true
      ∧ ∀ e', Editor.step lib io e key = some (.running e') →
        SafeRun lib e' rest

def checkRun (lib : RegexLib ρ) (e : Editor ρ) : List (Io × Key) → Bool
  | [] => true
  | (io, key) :: rest => e.safe lib key && match Editor.step lib io e key with
        | some (.running e') => checkRun lib e' rest
        | _ => true

theorem checkRun_iff {lib : RegexLib ρ} {e : Editor ρ}
    {keys : List (Io × Key)} :
    checkRun lib e keys = true ↔ SafeRun lib e keys := by
  induction keys generalizing e with
  | nil => exact ⟨fun _ => trivial, fun _ => rfl⟩
  | cons k rest ih =>
    obtain ⟨io, key⟩ := k
    unfold checkRun SafeRun
    rw [Bool.and_eq_true]
    apply and_congr_right
    intro _
    cases hstep : Editor.step lib io e key with
    | none =>
      refine ⟨fun _ e' he' => ?_, fun _ => rfl⟩
      cases he'
    | some out =>
      cases out with
      | left code =>
        refine ⟨fun _ e' he' => ?_, fun _ => rfl⟩
        cases he'
      | running e₁ =>
        refine ⟨fun h e' he' => ?_, fun h => ih.mpr (h e₁ rfl)⟩
        cases he'
        exact ih.mp h

instance (lib : RegexLib ρ) (e : Editor ρ) (keys : List (Io × Key)) :
    Decidable (SafeRun lib e keys) :=
  decidable_of_iff _ checkRun_iff

/-- The buffer as vi starts with it. -/
def Loaded (b : Buffer) : Prop :=
  b = Buffer.empty ∨ ∃ io path, TextFiles io ∧ Buffer.load io path = .ok b

/-- The cursor is in the text: there is a line, the row is one, and the
column is a boundary of it, not past its end. -/
structure InText (b : Buffer) : Prop where
  lines : b.lines ≠ []
  row : b.row < b.lines.length
  col : ∃ l, b.lines[b.row]? = some l ∧ b.col ≤ l.length
    ∧ boundary l b.col = true

theorem Sound.inText {b : Buffer} (h : Sound b) : InText b where
  lines := List.length_pos_iff.mp (Nat.zero_lt_of_lt h.row)
  row := h.row
  col := ⟨_, getElem?_line h.row, h.col_le, h.col⟩

/-- A run of safe keys, by induction on the keys. -/
theorem run_sound {lib : RegexLib ρ} (hlib : lib.Lawful) {e : Editor ρ}
    (h : EditorSound e) {keys : List (Io × Key)}
    (hio : ∀ k ∈ keys, TextFiles k.1) (hsafe : SafeRun lib e keys) :
    ∃ out, Editor.run lib e keys = some out
      ∧ ∀ e', out = .running e' → EditorSound e' := by
  induction keys generalizing e with
  | nil =>
    refine ⟨_, rfl, fun e' he' => ?_⟩
    cases he'
    exact h
  | cons k rest ih =>
    obtain ⟨io, key⟩ := k
    obtain ⟨hkey, hrest⟩ := hsafe
    obtain ⟨out, hstep, hsound⟩ := Editor.step_sound hlib
      (hio (io, key) List.mem_cons_self) h hkey
    unfold Editor.run
    rw [hstep, Option.bind_some]
    cases out with
    | left code =>
      refine ⟨_, rfl, fun e' he' => ?_⟩
      cases he'
    | running e' =>
      exact ih (hsound e' rfl)
        (fun k hk => hio k (List.mem_cons_of_mem _ hk)) (hrest e' hstep)

/-- From every file, a run whose keys all meet their conditions has no
panic, and after it the cursor is in the text. -/
theorem cursor_sound_run {lib : RegexLib ρ} (hlib : lib.Lawful) {b : Buffer}
    (hb : Loaded b) {keys : List (Io × Key)} (hio : ∀ k ∈ keys, TextFiles k.1)
    (hsafe : SafeRun lib (Editor.start b) keys) :
    ∃ out, Editor.run lib (Editor.start b) keys = some out
      ∧ ∀ e, out = .running e → InText e.buffer := by
  have hstart : EditorSound (Editor.start b : Editor ρ) := by
    refine ⟨?_, Leads.nil, nofun⟩
    rcases hb with rfl | ⟨io, path, htext, hload⟩
    · exact empty_sound
    · exact load_sound htext hload
  obtain ⟨out, hrun, hsound⟩ := run_sound hlib hstart hio hsafe
  exact ⟨out, hrun, fun e he => (hsound e he).buffer.inText⟩

-- ======== two lost cursors

def wholeLine : RegexLib Text where
  compile := fun pattern => .ok pattern
  findAt := fun re s i => if s = re ∧ i = 0 then some 0 else none
  findIter := fun re s => if s = re then [0] else []
  replaceAll := fun re s t => if s = re then t else s
  replaceOne := fun re s t => if s = re then t else s

theorem wholeLine_lawful : wholeLine.Lawful where
  findAt := by
    intro re s i m _ _ h
    obtain ⟨-, h⟩ := Option.ite_none_right_eq_some.mp h
    cases h
    exact boundary_zero s
  findIter := by
    intro re s m _ h
    have h : m ∈ if s = re then [0] else [] := h
    split at h
    · rw [List.mem_singleton.mp h]
      exact boundary_zero s
    · cases h
  replaceAll := by
    intro re s t hs ht
    show Leads (if s = re then t else s)
    split
    · exact ht
    · exact hs
  replaceOne := by
    intro re s t hs ht
    show Leads (if s = re then t else s)
    split
    · exact ht
    · exact hs

def textIo (text : Text) : Io where
  write := fun _ _ => .ok ()
  read := fun _ => .ok text

def keysOver (text : Text) (keys : String) : List (Io × Key) :=
  (typed keys).map fun key => (textIo text, key)

def viOf (text : Text) : Editor Text :=
  Editor.start ⟨some (ascii "f"), splitKeepEmpty text, 0, 0, false, false⟩

theorem loaded_viOf {text : Text} (h : Leads text) :
    Loaded (viOf text).buffer :=
  .inr ⟨textIo text, ascii "f", fun _ t ht => by cases ht; exact h, rfl⟩

/-- A run of motions, edits and a substitution that meets the condition. -/
theorem cursor_sound_example :
    ∃ out, Editor.run wholeLine (viOf (ascii "ab\n"))
        (keysOver (ascii "ab\n") "lax\x1b0:s/abx/cd/\ryyPJx") = some out
      ∧ ∀ e, out = .running e → InText e.buffer := by
  apply cursor_sound_run wholeLine_lawful
  · exact loaded_viOf (Leads.of_all (by decide))
  · intro k hk
    obtain ⟨key, -, rfl⟩ := List.mem_map.mp hk
    exact fun _ t ht => by cases ht; exact Leads.of_all (by decide)
  · decide

/-- On `é`, `$` leaves the cursor inside the character, and `x` panics; `:s`
leaves it past the end of a line, and the next typed letter panics. -/
theorem cursor_leaves_text :
    (∃ e, Editor.run wholeLine (viOf [0xc3#8, 0xa9#8, 0x0a#8])
        (keysOver [] "$") = some (.running e) ∧ ¬ InText e.buffer)
    ∧ Editor.run wholeLine (viOf [0xc3#8, 0xa9#8, 0x0a#8])
        (keysOver [] "$x") = none
    ∧ Editor.run wholeLine (viOf (ascii "ab\n"))
        (keysOver [] "l:s/ab//\riz") = none := by
  refine ⟨⟨_, rfl, fun h => ?_⟩, by decide, by decide⟩
  obtain ⟨l, hl, -, hcol⟩ := h.col
  cases hl
  exact absurd hcol (by decide)

end LinuxRs.Vi
