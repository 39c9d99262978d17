/-
The commands of vi that change the text, and the snapshots they push.

# One command

A `Change` is a command by its name, and `Change.keys` are the keys that
type it: an edit of normal mode, the session of insert mode with the keys
that open it, or a `:s` or `:r` line. A count may stand before it, since a
ready editor may hold one.

# What is pushed

`Change.newest` is the snapshot on top of the stack after the command
(`Performs.top`). It is not of the buffer that the command found where
`enter_insert` takes it: there the cursor has moved, or the operator has
deleted. An ex line pushes nothing.
-/
import LinuxRs.Vi.Tracking

namespace LinuxRs.Vi

variable {ρ : Type}

-- ======== the commands

inductive NormalEdit where
  | deleteChar
  | backspaceChar
  | deleteToEol
  | joinLines
  | pasteAfter
  | pasteBefore
  | deleteLine
  | deleteWord
  | replace (b : Printable)

def NormalEdit.keys : NormalEdit → List Key
  | .deleteChar => typed "x"
  | .backspaceChar => typed "X"
  | .deleteToEol => typed "D"
  | .joinLines => typed "J"
  | .pasteAfter => typed "p"
  | .pasteBefore => typed "P"
  | .deleteLine => typed "dd"
  | .deleteWord => typed "dw"
  | .replace b => typed "r" ++ [.char b]

inductive Opening where
  | insert
  | insertNonBlank
  | append
  | appendEnd
  | openBelow
  | openAbove
  | changeWord
  | changeLine
  | changeToEol

def Opening.keys : Opening → List Key
  | .insert => typed "i"
  | .insertNonBlank => typed "I"
  | .append => typed "a"
  | .appendEnd => typed "A"
  | .openBelow => typed "o"
  | .openAbove => typed "O"
  | .changeWord => typed "cw"
  | .changeLine => typed "cc"
  | .changeToEol => typed "c$"

/-- What `u` takes back: one command or one session of typing. -/
inductive Change where
  | edit (edit : NormalEdit)
  /-- A session of insert mode, with the keys up to its Esc. -/
  | session (opening : Opening) (keys : List Key)
  /-- An ex line, with the keys up to its Enter. -/
  | line (keys : List Key)

def Change.keys : Change → List Key
  | .edit e => e.keys
  | .session opening keys => opening.keys ++ (keys ++ [.esc])
  | .line keys => typed ":" ++ (keys ++ [.enter])

def typeLine : List Printable → List Key → Option (List Printable)
  | line, [] => some line
  | line, .char b :: rest => typeLine (line ++ [b]) rest
  | line, .backspace :: rest =>
    if line = [] then none else typeLine line.dropLast rest
  | _, .enter :: _ => none
  | _, .esc :: _ => none
  | line, _ :: rest => typeLine line rest

def editsText (line : Text) : Bool :=
  Ex.isSubstitution (trimSpaces line)
    || (exCommand line).any fun c => c.1 = ascii "r"

/-- A command is one command: its keys do not end it early, and an ex line
is a `:s` or a `:r`. -/
def Change.single : Change → Bool
  | .edit _ => true
  | .session _ keys => !keys.contains .esc
  | .line keys =>
    (typeLine [] keys).any fun line => editsText (line.map (·.val))

-- ======== the snapshots

def Opening.saved (b : Buffer) : Opening → Option Buffer
  | .insert => some b
  | .insertNonBlank => Motion.firstNonBlank b
  | .append => Editor.appendBuffer b
  | .appendEnd => Editor.appendEndBuffer b
  | .openBelow => some b
  | .openAbove => some b
  | .changeWord => (Edit.deleteWord b).map (·.2)
  | .changeLine => b.clearCurrentLine.map (·.2)
  | .changeToEol => (Edit.deleteToEol b).map (·.2)

def Change.newest (b : Buffer) (u : Undo) : Change → Option Snapshot
  | .edit _ => some b.snapshot
  | .session opening _ => (opening.saved b).map Buffer.snapshot
  | .line _ => u.stack.head?

/-- Does an opening push one snapshot: those that delete push another one
when insert mode is entered. -/
def Opening.pushesOne : Opening → Bool
  | .changeWord => false
  | .changeLine => false
  | .changeToEol => false
  | _ => true

def Change.pushesOne : Change → Bool
  | .edit _ => true
  | .session opening _ => opening.pushesOne
  | .line _ => false

namespace Editor

/-- No key is kept back: the next one is a command, or counts for one. -/
structure Ready (e : Editor ρ) : Prop where
  mode : e.mode = .normal
  pendingOp : e.pendingOp = none
  pendingFind : e.pendingFind = none

/-- Only text and cursor differ. -/
structure Beside (e e' : Editor ρ) : Prop where
  undo : e'.undo = e.undo
  pendingOp : e'.pendingOp = e.pendingOp
  pendingFind : e'.pendingFind = e.pendingFind

theorem Beside.refl (e : Editor ρ) : Beside e e := ⟨rfl, rfl, rfl⟩

theorem Beside.trans {e f g : Editor ρ} (hef : Beside e f)
    (hfg : Beside f g) : Beside e g :=
  ⟨hfg.undo.trans hef.undo, hfg.pendingOp.trans hef.pendingOp,
    hfg.pendingFind.trans hef.pendingFind⟩

def called (e : Editor ρ) : Editor ρ :=
  { e with
    mode := .normal, status := [], gPrefix := false, count := 0
    pendingOp := none, pendingFind := none }

end Editor

/-- A command that changed the text: it found a ready editor, its keys ran
through, and the lines are not what they were. -/
structure Performs (lib : RegexLib ρ) (c : Change) (e e' : Editor ρ) :
    Prop where
  single : c.single = true
  ready : e.Ready
  run : ∃ steps : List (Io × Key), steps.map Prod.snd = c.keys
    ∧ Editor.run lib e steps = some (.running e')
  changed : e'.buffer.lines ≠ e.buffer.lines

-- ======== single keys

namespace Editor

variable {lib : RegexLib ρ} {io : Io} {e e' : Editor ρ} {key : Key}

theorem run_append_running {xs ys : List (Io × Key)}
    (h : run lib e (xs ++ ys) = some (.running e')) :
    ∃ m, run lib e xs = some (.running m)
      ∧ run lib m ys = some (.running e') := by
  induction xs generalizing e with
  | nil => exact ⟨e, rfl, h⟩
  | cons x xs ih =>
    obtain ⟨io, key⟩ := x
    obtain ⟨o, ho, h⟩ := Option.bind_eq_some_iff.mp h
    cases o with
    | left code => cases h
    | running m =>
      obtain ⟨m', hm', h⟩ := ih h
      refine ⟨m', ?_, h⟩
      show (step lib io e key).bind _ = _
      rw [ho]
      exact hm'

theorem run_cons_running {steps : List (Io × Key)} {keys : List Key}
    (hkeys : steps.map Prod.snd = key :: keys)
    (h : run lib e steps = some (.running e')) :
    ∃ io m rest, step lib io e key = some (.running m)
      ∧ rest.map Prod.snd = keys ∧ run lib m rest = some (.running e') := by
  obtain ⟨⟨io, k⟩, rest, hsteps, hk, hrest⟩ := List.map_eq_cons_iff.mp hkeys
  subst hsteps
  have hk : k = key := hk
  subst hk
  obtain ⟨o, ho, h⟩ := Option.bind_eq_some_iff.mp h
  cases o with
  | left code => cases h
  | running m => exact ⟨io, m, rest, ho, hrest, h⟩

theorem run_one_running {steps : List (Io × Key)}
    (hkeys : steps.map Prod.snd = [key])
    (h : run lib e steps = some (.running e')) :
    ∃ io, step lib io e key = some (.running e') := by
  obtain ⟨io, m, rest, hstep, hrest, h⟩ := run_cons_running hkeys h
  have hnil : rest = [] := List.map_eq_nil_iff.mp hrest
  subst hnil
  cases h
  exact ⟨io, hstep⟩

theorem step_command (hready : e.Ready) {cmd : Command}
    (hcmd : key.command = some cmd) (hdigit : digitOf e.count key = none)
    (hg : key.isChar 'g' = false) : step lib io e key
      = (runCommand lib e.called (max e.count 1) (decide (0 < e.count))
          cmd).map .running := by
  have hdraw : e.draw = { e with status := [] } := by
    unfold draw
    rw [hready.mode]
  unfold step
  rw [hdraw]
  simp only [hready.mode]
  unfold handleNormal
  simp only [hready.pendingFind, hdigit]
  unfold handleVerb
  simp only [hg, hready.pendingOp, hcmd, Bool.false_eq_true, and_false,
    if_false]
  rfl

theorem step_operator (hmode : e.mode = .normal)
    (hfind : e.pendingFind = none) {op : Operator}
    (hop : e.pendingOp = some op) (hdigit : digitOf e.count key = none)
    (hg : key.isChar 'g' = false) : step lib io e key
      = (executeOperator lib io e.called op key).map .running := by
  have hdraw : e.draw = { e with status := [] } := by
    unfold draw
    rw [hmode]
  unfold step
  rw [hdraw]
  simp only [hmode]
  unfold handleNormal
  simp only [hfind, hdigit]
  unfold handleVerb
  simp only [hg, hop, Bool.false_eq_true, and_false, if_false]
  rfl

theorem run_command (hready : e.Ready) {cmd : Command}
    {steps : List (Io × Key)} (hkeys : steps.map Prod.snd = [key])
    (hcmd : key.command = some cmd) (hdigit : digitOf e.count key = none)
    (hg : key.isChar 'g' = false) (h : run lib e steps = some (.running e')) :
    runCommand lib e.called (max e.count 1) (decide (0 < e.count)) cmd
      = some e' := by
  obtain ⟨io, hstep⟩ := run_one_running hkeys h
  rw [step_command hready hcmd hdigit hg] at hstep
  obtain ⟨m, hm, heq⟩ := Option.map_eq_some_iff.mp hstep
  cases heq
  exact hm

theorem run_waiting (hready : e.Ready) {cmd : Command} {m : Editor ρ}
    {steps : List (Io × Key)} {keys : List Key}
    (hkeys : steps.map Prod.snd = key :: keys) (hcmd : key.command = some cmd)
    (hdigit : digitOf e.count key = none) (hg : key.isChar 'g' = false)
    (hwait : runCommand lib e.called (max e.count 1)
      (decide (0 < e.count)) cmd = some m)
    (h : run lib e steps = some (.running e')) :
    ∃ rest, rest.map Prod.snd = keys
      ∧ run lib m rest = some (.running e') := by
  obtain ⟨io, m', rest, hstep, hrest, h⟩ := run_cons_running hkeys h
  rw [step_command hready hcmd hdigit hg, hwait] at hstep
  cases hstep
  exact ⟨rest, hrest, h⟩

theorem run_operator (hready : e.Ready) {op : Operator} {motion : Key}
    {steps : List (Io × Key)} (hkeys : steps.map Prod.snd = [key, motion])
    (hcmd : key.command = some (.operator op))
    (hdigit : digitOf e.count key = none) (hg : key.isChar 'g' = false)
    (hdigit' : digitOf 0 motion = none) (hg' : motion.isChar 'g' = false)
    (h : run lib e steps = some (.running e')) :
    ∃ io, executeOperator lib io e.called op motion = some e' := by
  obtain ⟨rest, hrest, h⟩ :=
    run_waiting (m := { e.called with pendingOp := some op }) hready hkeys
      hcmd hdigit hg rfl h
  obtain ⟨io, hstep⟩ := run_one_running hrest h
  rw [step_operator rfl rfl rfl hdigit' hg'] at hstep
  obtain ⟨m, hm, heq⟩ := Option.map_eq_some_iff.mp hstep
  cases heq
  exact ⟨io, hm⟩

end Editor

-- ======== edits

section Edits

variable {lib : RegexLib ρ} {e e' : Editor ρ}

theorem edit_some {f : Buffer → Option Buffer} (h : e.edit f = some e') :
    ∃ b, f e.buffer = some b ∧ e' = e.withBuffer b := by
  obtain ⟨b, hb, heq⟩ := Option.map_eq_some_iff.mp h
  exact ⟨b, hb, heq.symm⟩

theorem take_some {f : Buffer → Option (Text × Buffer)}
    (h : e.take f = some e') : ∃ r, f e.buffer = some r
      ∧ e' = { e with register := r.1, buffer := r.2 } := by
  obtain ⟨r, hr, heq⟩ := Option.map_eq_some_iff.mp h
  exact ⟨r, hr, heq.symm⟩

theorem paste_some {f : Buffer → Text → Option Buffer}
    (h : e.paste f = some e') (hchanged : e'.buffer.lines ≠ e.buffer.lines) :
    ∃ b, e' = e.snapshot.withBuffer b := by
  unfold Editor.paste at h
  split at h
  · cases h
    exact absurd rfl hchanged
  · obtain ⟨b, -, heq⟩ := edit_some h
    exact ⟨b, heq⟩

/-- The keys of a change in normal mode do the change. -/
theorem normalEdit_run {edit : NormalEdit} {steps : List (Io × Key)}
    (hready : e.Ready) (hkeys : steps.map Prod.snd = edit.keys)
    (h : Editor.run lib e steps = some (.running e'))
    (hchanged : e'.buffer.lines ≠ e.buffer.lines) :
    e'.Ready ∧ e'.undo = e.undo.snapshot e.buffer := by
  cases edit with
  | deleteChar =>
    obtain ⟨b, -, rfl⟩ :=
      edit_some (Editor.run_command hready hkeys rfl rfl rfl h)
    exact ⟨⟨rfl, rfl, rfl⟩, rfl⟩
  | backspaceChar =>
    obtain ⟨b, -, rfl⟩ :=
      edit_some (Editor.run_command hready hkeys rfl rfl rfl h)
    exact ⟨⟨rfl, rfl, rfl⟩, rfl⟩
  | deleteToEol =>
    obtain ⟨r, -, rfl⟩ :=
      take_some (Editor.run_command hready hkeys rfl rfl rfl h)
    exact ⟨⟨rfl, rfl, rfl⟩, rfl⟩
  | joinLines =>
    obtain ⟨b, -, rfl⟩ :=
      edit_some (Editor.run_command hready hkeys rfl rfl rfl h)
    exact ⟨⟨rfl, rfl, rfl⟩, rfl⟩
  | pasteAfter =>
    obtain ⟨b, rfl⟩ :=
      paste_some (Editor.run_command hready hkeys rfl rfl rfl h) hchanged
    exact ⟨⟨rfl, rfl, rfl⟩, rfl⟩
  | pasteBefore =>
    obtain ⟨b, rfl⟩ :=
      paste_some (Editor.run_command hready hkeys rfl rfl rfl h) hchanged
    exact ⟨⟨rfl, rfl, rfl⟩, rfl⟩
  | deleteLine =>
    obtain ⟨io, h⟩ :=
      Editor.run_operator hready hkeys rfl rfl rfl rfl rfl h
    have h : e.called.snapshot.takeLine Buffer.deleteLine = some e' := h
    obtain ⟨r, -, rfl⟩ := take_some h
    exact ⟨⟨rfl, rfl, rfl⟩, rfl⟩
  | deleteWord =>
    obtain ⟨io, h⟩ :=
      Editor.run_operator hready hkeys rfl rfl rfl rfl rfl h
    have h : e.called.snapshot.take Edit.deleteWord = some e' := h
    obtain ⟨r, -, rfl⟩ := take_some h
    exact ⟨⟨rfl, rfl, rfl⟩, rfl⟩
  | replace b =>
    obtain ⟨rest, hrest, h⟩ :=
      Editor.run_waiting (m := { e.called with mode := .replaceOne })
        hready hkeys rfl rfl rfl rfl h
    obtain ⟨io, hstep⟩ := Editor.run_one_running hrest h
    obtain ⟨m, hm, heq⟩ := Option.map_eq_some_iff.mp hstep
    cases heq
    have hm : Editor.edit { e.called.snapshot with mode := .normal }
        (Buffer.replaceAtCursor · b.val) = some e' := hm
    obtain ⟨b', -, rfl⟩ := edit_some hm
    exact ⟨⟨rfl, rfl, rfl⟩, rfl⟩

end Edits

-- ======== sessions

section Sessions

variable {lib : RegexLib ρ} {io : Io} {e e' : Editor ρ} {key : Key}

theorem edit_beside {f : Buffer → Option Buffer} (h : e.edit f = some e') :
    e.Beside e' ∧ e'.mode = e.mode := by
  obtain ⟨b, -, rfl⟩ := edit_some h
  exact ⟨⟨rfl, rfl, rfl⟩, rfl⟩

theorem handleInsert_beside (hesc : key ≠ .esc)
    (h : e.handleInsert key = some e') : e.Beside e' ∧ e'.mode = e.mode := by
  cases key with
  | esc => exact absurd rfl hesc
  | enter => exact edit_beside h
  | backspace => exact edit_beside h
  | char b =>
    have h : e.edit (Buffer.insertByte · b.val) = some e' := h
    exact edit_beside h
  | tab =>
    have h : e.edit (Buffer.insertByte · (chr '\t')) = some e' := h
    exact edit_beside h
  | left =>
    cases h
    exact ⟨⟨rfl, rfl, rfl⟩, rfl⟩
  | right => exact edit_beside h
  | up => exact edit_beside h
  | down => exact edit_beside h
  | ctrl b =>
    have h : (if b = chr 'w' then e.edit Edit.dropWordLeft else some e)
        = some e' := h
    split at h
    · exact edit_beside h
    · cases h
      exact ⟨Editor.Beside.refl e, rfl⟩
  | _ =>
    have h : some e = some e' := h
    cases h
    exact ⟨Editor.Beside.refl e, rfl⟩

theorem step_insert (hmode : e.mode = .insert)
    (h : Editor.step lib io e key = some (.running e')) :
    { e with status := [] }.handleInsert key = some e' := by
  have hdraw : e.draw = { e with status := [] } := by
    unfold Editor.draw
    rw [hmode]
  unfold Editor.step at h
  rw [hdraw] at h
  simp only [hmode] at h
  obtain ⟨m, hm, heq⟩ := Option.map_eq_some_iff.mp h
  cases heq
  rw [← hm, hmode]

/-- The keys typed in insert mode up to the escape are one change. -/
theorem insert_run {keys : List Key} {steps : List (Io × Key)}
    (hmode : e.mode = .insert) (hkeys : steps.map Prod.snd = keys ++ [.esc])
    (hesc : keys.contains .esc = false)
    (h : Editor.run lib e steps = some (.running e')) :
    e.Beside e' ∧ e'.mode = .normal := by
  induction keys generalizing e steps with
  | nil =>
    obtain ⟨io, hstep⟩ := Editor.run_one_running hkeys h
    have hkey : Editor.edit { e with mode := .normal, status := [] }
        (Buffer.clampCol · false) = some e' := step_insert hmode hstep
    obtain ⟨b, -, rfl⟩ := edit_some hkey
    exact ⟨⟨rfl, rfl, rfl⟩, rfl⟩
  | cons key keys ih =>
    obtain ⟨io, m, rest, hstep, hrest, h⟩ :=
      Editor.run_cons_running hkeys h
    rw [List.contains_cons, Bool.or_eq_false_iff] at hesc
    have hne : key ≠ .esc := by
      intro heq
      rw [heq] at hesc
      cases hesc.1
    obtain ⟨hbeside, hmode'⟩ :=
      handleInsert_beside hne (step_insert hmode hstep)
    obtain ⟨hbeside', hnormal⟩ :=
      ih (hmode'.trans hmode) hrest hesc.2 h
    refine ⟨Editor.Beside.trans ?_ hbeside', hnormal⟩
    exact ⟨hbeside.undo, hbeside.pendingOp, hbeside.pendingFind⟩

/-- What an opening comes to: insert mode, with a snapshot on top of the
stack; only those that delete have pushed another one below it. -/
structure Opened (o : Opening) (e e' : Editor ρ) : Prop where
  mode : e'.mode = .insert
  pendingOp : e'.pendingOp = none
  pendingFind : e'.pendingFind = none
  pushed : ∃ b u, o.saved e.buffer = some b ∧ e'.undo = u.snapshot b
    ∧ (o.pushesOne = true → u = e.undo ∧ b.lines = e.buffer.lines)

theorem Opened.of_move {o : Opening} {f : Buffer → Option Buffer}
    (hmove : ∀ b b', f b = some b' → Moved b b')
    (hsaved : o.saved e.buffer = f e.buffer)
    (h : (e.called.edit f).map Editor.enterInsert = some e') :
    Opened o e e' := by
  obtain ⟨m, hm, rfl⟩ := Option.map_eq_some_iff.mp h
  obtain ⟨b, hb, rfl⟩ := edit_some hm
  exact ⟨rfl, rfl, rfl, b, e.undo, hsaved.trans hb, rfl,
    fun _ => ⟨rfl, (hmove _ _ hb).lines⟩⟩

theorem Opened.of_take {o : Opening} {f : Buffer → Option (Text × Buffer)}
    (htwo : o.pushesOne = false)
    (hsaved : o.saved e.buffer = (f e.buffer).map (·.2))
    (h : (e.called.snapshot.take f).map Editor.enterInsert = some e') :
    Opened o e e' := by
  obtain ⟨m, hm, rfl⟩ := Option.map_eq_some_iff.mp h
  obtain ⟨r, hr, rfl⟩ := take_some hm
  have hr : f e.buffer = some r := hr
  refine ⟨rfl, rfl, rfl, r.2, e.undo.snapshot e.buffer, ?_, rfl, ?_⟩
  · rw [hsaved, hr]
    rfl
  · intro hone
    rw [htwo] at hone
    cases hone

/-- The keys that open insert mode. -/
theorem opening_run {o : Opening} {steps : List (Io × Key)}
    (hready : e.Ready) (hkeys : steps.map Prod.snd = o.keys)
    (h : Editor.run lib e steps = some (.running e')) : Opened o e e' := by
  cases o with
  | insert =>
    have h := Editor.run_command hready hkeys rfl rfl rfl h
    cases h
    exact ⟨rfl, rfl, rfl, e.buffer, e.undo, rfl, rfl, fun _ => ⟨rfl, rfl⟩⟩
  | insertNonBlank =>
    exact Opened.of_move (fun _ _ => firstNonBlank_moved) rfl
      (Editor.run_command hready hkeys rfl rfl rfl h)
  | append =>
    exact Opened.of_move (fun _ _ => appendBuffer_moved) rfl
      (Editor.run_command hready hkeys rfl rfl rfl h)
  | appendEnd =>
    exact Opened.of_move (fun _ _ => appendEndBuffer_moved) rfl
      (Editor.run_command hready hkeys rfl rfl rfl h)
  | openBelow =>
    obtain ⟨b, -, rfl⟩ :=
      edit_some (Editor.run_command hready hkeys rfl rfl rfl h)
    exact ⟨rfl, rfl, rfl, e.buffer, e.undo, rfl, rfl, fun _ => ⟨rfl, rfl⟩⟩
  | openAbove =>
    obtain ⟨b, -, rfl⟩ :=
      edit_some (Editor.run_command hready hkeys rfl rfl rfl h)
    exact ⟨rfl, rfl, rfl, e.buffer, e.undo, rfl, rfl, fun _ => ⟨rfl, rfl⟩⟩
  | changeWord =>
    obtain ⟨io, h⟩ :=
      Editor.run_operator hready hkeys rfl rfl rfl rfl rfl h
    exact Opened.of_take (f := Edit.deleteWord) rfl rfl h
  | changeLine =>
    obtain ⟨io, h⟩ :=
      Editor.run_operator hready hkeys rfl rfl rfl rfl rfl h
    have h : (e.called.snapshot.takeLine
        Buffer.clearCurrentLine).map Editor.enterInsert = some e' := h
    refine Opened.of_take rfl ?_ h
    rw [Option.map_map]
    rfl
  | changeToEol =>
    obtain ⟨io, h⟩ :=
      Editor.run_operator hready hkeys rfl rfl rfl rfl rfl h
    exact Opened.of_take (f := Edit.deleteToEol) rfl rfl h

end Sessions

-- ======== ex lines

section Lines

variable {lib : RegexLib ρ} {io : Io} {e e' : Editor ρ}

/-- A line is typed key by key. -/
theorem typing_run {keys : List Key} {steps : List (Io × Key)}
    {line : List Printable} (hmode : e.mode = .commandLine .ex)
    (hkeys : steps.map Prod.snd = keys)
    (hline : typeLine e.cmdline keys = some line) :
    Editor.run lib e steps = some (.running { e with cmdline := line }) := by
  have hdraw : ∀ m : Editor ρ, m.mode = .commandLine .ex → m.draw = m := by
    intro m hm
    unfold Editor.draw
    rw [hm]
  induction keys generalizing e steps with
  | nil =>
    have hnil : steps = [] := List.map_eq_nil_iff.mp hkeys
    subst hnil
    cases hline
    rfl
  | cons key keys ih =>
    obtain ⟨⟨io, k⟩, rest, hsteps, hk, hrest⟩ :=
      List.map_eq_cons_iff.mp hkeys
    subst hsteps
    have hk : k = key := hk
    subst hk
    have hstep : Editor.step lib io e k
        = Editor.handleCmdline lib io e k .ex := by
      unfold Editor.step
      rw [hdraw e hmode]
      simp only [hmode]
    show (Editor.step lib io e k).bind _ = _
    rw [hstep]
    cases k with
    | char b =>
      exact ih (e := { e with cmdline := e.cmdline ++ [b] }) hmode hrest hline
    | backspace =>
      have hline : (if e.cmdline = [] then none
          else typeLine e.cmdline.dropLast keys) = some line := hline
      rw [Option.ite_none_left_eq_some] at hline
      obtain ⟨hne, hline⟩ := hline
      show (some (Outcome.running (if e.cmdline = [] then _
        else _))).bind _ = _
      rw [if_neg hne]
      exact ih (e := { e with cmdline := e.cmdline.dropLast }) hmode
        hrest hline
    | enter => cases hline
    | esc => cases hline
    | _ => exact ih hmode hrest hline

theorem editsText_continues {line : Text} {b : Buffer} {showNumbers : Bool}
    {r : ExResult × Buffer × Bool} (hline : editsText line = true)
    (h : Ex.dispatch lib io line b showNumbers = some r) :
    ∃ message, r.1 = .continuing message := by
  cases hcommand : exCommand line with
  | none => exact (dispatch_of_none hcommand h).1
  | some c =>
    have hr : c.1 = ascii "r" := by
      unfold editsText at hline
      rw [hcommand, Bool.or_eq_true] at hline
      rcases hline with hsubst | hr
      · unfold exCommand at hcommand
        simp only [Option.ite_none_left_eq_some, not_or] at hcommand
        exact absurd hsubst hcommand.1.2.2
      · exact of_decide_eq_true hr
    rw [dispatch_of_some lib io b showNumbers hcommand, hr] at h
    obtain ⟨result, hresult, rfl⟩ := Option.map_eq_some_iff.mp h
    exact readInto_continues hresult

/-- A command line is one change. -/
theorem line_run {keys : List Key} {steps : List (Io × Key)}
    (hready : e.Ready) (hsingle : (Change.line keys).single = true)
    (hkeys : steps.map Prod.snd = (Change.line keys).keys)
    (h : Editor.run lib e steps = some (.running e')) :
    e'.Ready ∧ e'.undo = e.undo := by
  obtain ⟨line, hline, hedits⟩ := (Option.any_eq_true _ _).mp hsingle
  obtain ⟨rest, hrest, h⟩ :=
    Editor.run_waiting
      (m := { e.called with mode := .commandLine .ex, cmdline := [] })
      hready hkeys rfl rfl rfl rfl h
  have hrest : rest.map Prod.snd = keys ++ [.enter] := hrest
  obtain ⟨typing, enter, rfl, htyping, henter⟩ :=
    List.map_eq_append_iff.mp hrest
  obtain ⟨m, hm, h⟩ := Editor.run_append_running h
  rw [typing_run rfl htyping hline] at hm
  cases hm
  obtain ⟨io, hstep⟩ := Editor.run_one_running henter h
  obtain ⟨r, hr, heq⟩ := Option.bind_eq_some_iff.mp hstep
  obtain ⟨message, hmessage⟩ := editsText_continues hedits hr
  obtain ⟨result, b, showNumbers⟩ := r
  have hmessage : result = .continuing message := hmessage
  subst hmessage
  cases heq
  exact ⟨⟨rfl, rfl, rfl⟩, rfl⟩

end Lines

-- ======== one command

namespace Performs

variable {lib : RegexLib ρ} {c : Change} {e e' : Editor ρ}

theorem session {o : Opening} {keys : List Key}
    (h : Performs lib (.session o keys) e e') :
    e'.Ready ∧ ∃ m, Opened o e m ∧ e'.undo = m.undo := by
  obtain ⟨steps, hkeys, hrun⟩ := h.run
  obtain ⟨opening, session, rfl, hopening, hsession⟩ :=
    List.map_eq_append_iff.mp hkeys
  obtain ⟨m, hm, hrun⟩ := Editor.run_append_running hrun
  have hopened : Opened o e m := opening_run h.ready hopening hm
  have hesc : keys.contains .esc = false := by
    have hsingle : (!keys.contains .esc) = true := h.single
    rw [Bool.not_eq_true'] at hsingle
    exact hsingle
  obtain ⟨hbeside, hmode⟩ := insert_run hopened.mode hsession hesc hrun
  refine ⟨⟨hmode, ?_, ?_⟩, m, hopened, hbeside.undo⟩
  · exact hbeside.pendingOp.trans hopened.pendingOp
  · exact hbeside.pendingFind.trans hopened.pendingFind

theorem ready_after (h : Performs lib c e e') : e'.Ready := by
  cases c with
  | edit edit =>
    obtain ⟨steps, hkeys, hrun⟩ := h.run
    exact (normalEdit_run h.ready hkeys hrun h.changed).1
  | session o keys => exact h.session.1
  | line keys =>
    obtain ⟨steps, hkeys, hrun⟩ := h.run
    exact (line_run h.ready h.single hkeys hrun).1

theorem top (h : Performs lib c e e') :
    e'.undo.stack.head? = c.newest e.buffer e.undo := by
  cases c with
  | edit edit =>
    obtain ⟨steps, hkeys, hrun⟩ := h.run
    rw [(normalEdit_run h.ready hkeys hrun h.changed).2]
    rfl
  | session o keys =>
    obtain ⟨-, m, hopened, hundo⟩ := h.session
    obtain ⟨b, u, hsaved, hpushed, -⟩ := hopened.pushed
    rw [hundo, hpushed]
    show some b.snapshot = (o.saved e.buffer).map Buffer.snapshot
    rw [hsaved]
    rfl
  | line keys =>
    obtain ⟨steps, hkeys, hrun⟩ := h.run
    rw [(line_run h.ready h.single hkeys hrun).2]
    rfl

theorem pushes (h : Performs lib c e e') (hone : c.pushesOne = true) :
    ∃ b, b.lines = e.buffer.lines ∧ e'.undo = e.undo.snapshot b := by
  cases c with
  | edit edit =>
    obtain ⟨steps, hkeys, hrun⟩ := h.run
    exact ⟨e.buffer, rfl, (normalEdit_run h.ready hkeys hrun h.changed).2⟩
  | session o keys =>
    obtain ⟨-, m, hopened, hundo⟩ := h.session
    obtain ⟨b, u, -, hpushed, hkept⟩ := hopened.pushed
    obtain ⟨hu, hlines⟩ := hkept hone
    refine ⟨b, hlines, ?_⟩
    rw [hundo, hpushed, hu]
  | line keys => cases hone

end Performs

end LinuxRs.Vi
