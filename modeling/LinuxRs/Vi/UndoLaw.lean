/-
What `u` restores.

# One command

`u` takes the snapshot on top of the stack, so it restores what stood
before a command exactly if the command found the buffer of that snapshot
(`restores_iff`). `undoable` says for each command when it did: always for
the edits of normal mode, `i`, `o` and `O`; for the other openings where
moving the cursor, or deleting, came to nothing; for an ex line, which
pushes nothing, where the snapshot that an earlier command left is the one.

# Several commands

`Saved` keeps, over a run of commands that push one snapshot each, where
in the stack the text stands that the run began with (`Session.saved`);
as many `u` take it out again (`undos_restore`).
-/
import LinuxRs.Vi.Changes
import LinuxRs.Vi.Boundary
import LinuxRs.Vi.Quit

namespace LinuxRs.Vi

variable {ρ : Type}

-- ======== the key

def undoKey : Key := Key.ofByte (chr 'u')

section Undo

variable {lib : RegexLib ρ} {e e' : Editor ρ}

theorem step_undo (lib : RegexLib ρ) (io : Io) (hready : e.Ready) :
    Editor.step lib io e undoKey = some (.running e.called.undoOne) := by
  have hcommand : undoKey.command = some .undo := rfl
  rw [Editor.step_command hready hcommand rfl rfl]
  rfl

theorem undoOne_some {s : Snapshot} (h : e.undo.stack.head? = some s) :
    e.called.undoOne.buffer.snapshot = s
      ∧ e.called.undoOne.undo = e.undo.below := by
  have hpop : e.called.undo.popInto e.called.buffer
      = (true, e.undo.below, { e.buffer with
          lines := s.lines, row := s.row, col := s.col, dirty := true }) := by
    have h : e.called.undo.stack.head? = some s := h
    unfold Undo.popInto
    rw [h]
    rfl
  unfold Editor.undoOne
  rw [hpop]
  exact ⟨rfl, rfl⟩

theorem undoOne_none (h : e.undo.stack.head? = none) :
    e.called.undoOne.buffer = e.buffer := by
  have hpop : e.called.undo.popInto e.called.buffer
      = (false, e.undo, e.buffer) := by
    have h : e.called.undo.stack.head? = none := h
    unfold Undo.popInto
    rw [h]
    rfl
  unfold Editor.undoOne
  rw [hpop]

theorem undoOne_ready : e.called.undoOne.Ready := by
  unfold Editor.undoOne
  split
  · exact ⟨rfl, rfl, rfl⟩
  · exact ⟨rfl, rfl, rfl⟩

end Undo

-- ======== one command

/-- What is promised of one command: the `u` after it gives the lines and
the cursor back. -/
def Restores (lib : RegexLib ρ) (io : Io) (e e' : Editor ρ) : Prop :=
  ∃ m, Editor.step lib io e' undoKey = some (.running m)
    ∧ m.buffer.snapshot = e.buffer.snapshot

/-- The openings whose newest snapshot is of the buffer they found: where
the cursor does not move, and where nothing is deleted. -/
def Opening.undoable (b : Buffer) : Opening → Prop
  | .insert => True
  | .insertNonBlank => b.col = Motion.nonBlankCol (b.line b.row)
  | .append => b.col = (b.line b.row).length
  | .appendEnd => b.col = (b.line b.row).length
  | .openBelow => True
  | .openAbove => True
  | .changeWord => Edit.wordStop b (b.line b.row) = b.col
      ∧ (b.col < (b.line b.row).length ∨ b.col = 0)
  | .changeLine => b.line b.row = [] ∧ b.col = 0
  | .changeToEol => b.line b.row = [] ∧ b.col = 0

/-- An undo brings back the text before the change. -/
def Change.undoable (b : Buffer) (u : Undo) : Change → Prop
  | .edit _ => True
  | .session opening _ => opening.undoable b
  | .line _ => u.stack.head? = some b.snapshot

section Saved

variable {b b' : Buffer}

theorem current_line {line : Text} (h : b.current = some line) :
    b.line b.row = line := by
  unfold Buffer.line
  rw [List.getD_eq_getElem?_getD]
  have h : b.lines[b.row]? = some line := h
  rw [h]
  rfl

theorem set_line_iff {line new : Text} (h : b.current = some line) :
    b.lines.set b.row new = b.lines ↔ new = line := by
  have h : b.lines[b.row]? = some line := h
  obtain ⟨hrow, hline⟩ := List.getElem?_eq_some_iff.mp h
  constructor
  · intro heq
    have hnew : (b.lines.set b.row new)[b.row]? = some new :=
      List.getElem?_set_self hrow
    rw [heq, h] at hnew
    exact (Option.some.inj hnew).symm
  · intro heq
    rw [heq, ← hline]
    exact List.set_getElem_self hrow

theorem take_drop_iff {line : Text} {start stop : Nat} (hle : start ≤ stop)
    (hstop : stop ≤ line.length) :
    line.take start ++ line.drop stop = line ↔ start = stop := by
  constructor
  · intro h
    have hlen := congrArg List.length h
    rw [List.length_append, List.length_take, List.length_drop] at hlen
    omega
  · intro h
    rw [h]
    exact List.take_append_drop stop line

theorem snapshot_iff : b'.snapshot = b.snapshot
      ↔ b'.lines = b.lines ∧ b'.row = b.row ∧ b'.col = b.col := by
  unfold Buffer.snapshot
  rw [Snapshot.mk.injEq]

theorem snapshot_col (b : Buffer) (c : Nat) :
    { b with col := c }.snapshot = b.snapshot ↔ b.col = c := by
  rw [snapshot_iff]
  constructor
  · intro h
    exact h.2.2.symm
  · intro h
    exact ⟨rfl, rfl, h.symm⟩

/-- A deletion can be undone if it deleted something. -/
theorem deleted_iff {line : Text} (hline : b.current = some line)
    {stop col : Nat} (hle : b.col ≤ stop) (hstop : stop ≤ line.length)
    {d : Bool}
    (hcol : col = if (line.take b.col ++ line.drop stop).length ≤ b.col
        ∧ 0 < b.col then (line.take b.col ++ line.drop stop).length - 1
      else b.col) :
    { b.setLine (line.take b.col ++ line.drop stop) with
        col := col, dirty := d }.snapshot = b.snapshot
      ↔ stop = b.col ∧ (b.col < line.length ∨ b.col = 0) := by
  rw [snapshot_iff]
  show b.lines.set b.row _ = b.lines ∧ b.row = b.row ∧ col = b.col ↔ _
  rw [set_line_iff hline, take_drop_iff hle hstop]
  constructor
  · intro h
    obtain ⟨hsame, -, hkept⟩ := h
    refine ⟨hsame.symm, ?_⟩
    rw [hcol, hsame, List.take_append_drop] at hkept
    split at hkept
    next hend => omega
    next hend => omega
  · intro h
    obtain ⟨hsame, hkept⟩ := h
    refine ⟨hsame.symm, rfl, ?_⟩
    rw [hcol, hsame, List.take_append_drop]
    split
    next hend => omega
    next hend => rfl

/-- What is saved on opening is the text before exactly if it can be
undone. -/
theorem Opening.saved_iff {o : Opening} (h : o.saved b = some b') :
    b'.snapshot = b.snapshot ↔ o.undoable b := by
  cases o with
  | insert =>
    cases h
    exact iff_of_true rfl trivial
  | insertNonBlank =>
    obtain ⟨line, hline, h⟩ := Option.bind_eq_some_iff.mp h
    cases h
    show _ ↔ b.col = Motion.nonBlankCol (b.line b.row)
    rw [snapshot_col, current_line hline]
  | append =>
    obtain ⟨line, hline, h⟩ := Option.bind_eq_some_iff.mp h
    obtain ⟨line', hline', h⟩ := Option.bind_eq_some_iff.mp h
    have hsame : line' = line :=
      Option.some.inj (hline'.symm.trans hline)
    subst hsame
    cases h
    show { b with col := _ }.snapshot = _ ↔ b.col = (b.line b.row).length
    rw [snapshot_col, current_line hline]
    by_cases hempty : line' = []
    · subst hempty
      simp only [if_true, true_or, List.length_nil]
      split
      · exact Iff.rfl
      · omega
    · simp only [if_neg hempty, true_or, if_true]
      split
      · exact Iff.rfl
      · omega
  | appendEnd =>
    obtain ⟨line, hline, h⟩ := Option.bind_eq_some_iff.mp h
    cases h
    show _ ↔ b.col = (b.line b.row).length
    rw [snapshot_col, current_line hline]
  | openBelow =>
    cases h
    exact iff_of_true rfl trivial
  | openAbove =>
    cases h
    exact iff_of_true rfl trivial
  | changeWord =>
    obtain ⟨r, hr, rfl⟩ := Option.map_eq_some_iff.mp h
    obtain ⟨line, hline, hr⟩ := Option.bind_eq_some_iff.mp hr
    obtain ⟨parts, hparts, hr⟩ := Option.bind_eq_some_iff.mp hr
    cases hr
    unfold drain at hparts
    rw [Option.ite_none_right_eq_some] at hparts
    obtain ⟨⟨hle, -, hstop⟩, hparts⟩ := hparts
    cases hparts
    show _ ↔ Edit.wordStop b (b.line b.row) = b.col
      ∧ (b.col < (b.line b.row).length ∨ b.col = 0)
    rw [current_line hline]
    exact deleted_iff hline hle (boundary_le hstop) rfl
  | changeLine =>
    obtain ⟨r, hr, rfl⟩ := Option.map_eq_some_iff.mp h
    obtain ⟨line, hline, hr⟩ := Option.bind_eq_some_iff.mp hr
    cases hr
    show _ ↔ b.line b.row = [] ∧ b.col = 0
    rw [current_line hline, snapshot_iff]
    show b.lines.set b.row [] = b.lines ∧ b.row = b.row ∧ 0 = b.col ↔ _
    rw [set_line_iff hline]
    constructor
    · intro h
      obtain ⟨hsame, -, hcol⟩ := h
      exact ⟨hsame.symm, hcol.symm⟩
    · intro h
      obtain ⟨hsame, hcol⟩ := h
      exact ⟨hsame.symm, rfl, hcol.symm⟩
  | changeToEol =>
    obtain ⟨r, hr, rfl⟩ := Option.map_eq_some_iff.mp h
    obtain ⟨line, hline, hr⟩ := Option.bind_eq_some_iff.mp hr
    obtain ⟨parts, hparts, hr⟩ := Option.bind_eq_some_iff.mp hr
    cases hr
    unfold drain at hparts
    rw [Option.ite_none_right_eq_some] at hparts
    obtain ⟨⟨hle, -, -⟩, hparts⟩ := hparts
    cases hparts
    show _ ↔ b.line b.row = [] ∧ b.col = 0
    rw [current_line hline]
    refine (deleted_iff hline hle (Nat.le_refl _)
      (if_congr And.comm rfl rfl)).trans ?_
    rw [← List.length_eq_zero_iff]
    omega

end Saved

section Command

variable {lib : RegexLib ρ} {c : Change} {e e' : Editor ρ}

/-- One undo restores the text exactly if the change has pushed it. -/
theorem restores_iff (h : Performs lib c e e') (io : Io) :
    Restores lib io e e' ↔ c.undoable e.buffer e.undo := by
  have htop := h.top
  have hstep := step_undo lib io h.ready_after
  have hrestores : Restores lib io e e'
      ↔ e'.called.undoOne.buffer.snapshot = e.buffer.snapshot := by
    constructor
    · intro hr
      obtain ⟨m, hm, hsame⟩ := hr
      rw [hstep] at hm
      cases hm
      exact hsame
    · intro hsame
      exact ⟨_, hstep, hsame⟩
  rw [hrestores]
  cases c with
  | edit edit =>
    rw [(undoOne_some htop).1]
    exact iff_of_true rfl trivial
  | session o keys =>
    obtain ⟨-, m, hopened, -⟩ := h.session
    obtain ⟨b, u, hsaved, -, -⟩ := hopened.pushed
    have hnewest : (Change.session o keys).newest e.buffer e.undo
        = some b.snapshot := by
      show (o.saved e.buffer).map Buffer.snapshot = _
      rw [hsaved]
      rfl
    rw [(undoOne_some (htop.trans hnewest)).1]
    exact Opening.saved_iff hsaved
  | line keys =>
    have htop : e'.undo.stack.head? = e.undo.stack.head? := htop
    show _ ↔ e.undo.stack.head? = some e.buffer.snapshot
    cases hhead : e.undo.stack.head? with
    | none =>
      rw [undoOne_none (htop.trans hhead)]
      refine iff_of_false ?_ nofun
      intro hsame
      exact h.changed (Iff.mp snapshot_iff hsame).1
    | some s =>
      rw [(undoOne_some (htop.trans hhead)).1, Option.some.injEq]

end Command

-- ======== several commands

/-- A run of commands that change the text, the newest first. Between them
stand keys that leave the text and the stack alone: motions, counts,
searches. -/
inductive Session (lib : RegexLib ρ) (e : Editor ρ) :
    List Change → Editor ρ → Prop where
  | start : Session lib e [] e
  | quiet {cs : List Change} {m m' : Editor ρ} {io : Io} {key : Key}
      (hrun : Session lib e cs m)
      (hstep : Editor.step lib io m key = some (.running m'))
      (hlines : m'.buffer.lines = m.buffer.lines)
      (hundo : m'.undo = m.undo) : Session lib e cs m'
  | change {cs : List Change} {c : Change} {m m' : Editor ρ}
      (hrun : Session lib e cs m) (hchange : Performs lib c m m') :
      Session lib e (c :: cs) m'

/-- As many `u` as the number give the lines back. -/
def Saved (lines : List Text) (e : Editor ρ) : Nat → Prop
  | 0 => e.buffer.lines = lines
  | n + 1 => ∃ s, e.undo.stack[n]? = some s ∧ s.lines = lines

theorem room_getElem? (u : Undo) {n : Nat} (h : n + 1 < Undo.cap) :
    u.room[n]? = u.stack[n]? := by
  unfold Undo.room
  split
  next hfull =>
    rw [List.getElem?_dropLast, if_pos (by omega)]
  next => rfl

section Sessions

variable {lib : RegexLib ρ} {e e' : Editor ρ} {cs : List Change}

/-- After changes that push one text each, the stack holds them in order. -/
theorem Session.saved (h : Session lib e cs e')
    (hone : ∀ c ∈ cs, c.pushesOne = true) (hcap : cs.length ≤ Undo.cap) :
    Saved e.buffer.lines e' cs.length := by
  induction h with
  | start => rfl
  | @quiet cs m m' io key hrun hstep hlines hundo ih =>
    have hsaved := ih hone hcap
    cases hlen : cs.length with
    | zero =>
      rw [hlen] at hsaved
      exact hlines.trans hsaved
    | succ n =>
      rw [hlen] at hsaved
      obtain ⟨s, hs, hsame⟩ := hsaved
      refine ⟨s, ?_, hsame⟩
      rw [hundo]
      exact hs
  | @change cs c m m' hrun hchange ih =>
    rw [List.length_cons] at hcap
    have hsaved := ih (fun c hc => hone c (List.mem_cons_of_mem _ hc))
      (by omega)
    obtain ⟨b, hlines, hundo⟩ :=
      hchange.pushes (hone c List.mem_cons_self)
    show ∃ s, m'.undo.stack[cs.length]? = some s ∧ _
    rw [hundo]
    show ∃ s, (b.snapshot :: m.undo.room)[cs.length]? = some s ∧ _
    cases hlen : cs.length with
    | zero =>
      rw [hlen] at hsaved
      exact ⟨b.snapshot, rfl, hlines.trans hsaved⟩
    | succ n =>
      rw [hlen] at hsaved
      obtain ⟨s, hs, hsame⟩ := hsaved
      refine ⟨s, ?_, hsame⟩
      rw [List.getElem?_cons_succ, room_getElem? _ (by omega)]
      exact hs

/-- As many undos as there are texts on the stack restore the first. -/
theorem undos_restore {lines : List Text} {n : Nat} (hready : e.Ready)
    (hsaved : Saved lines e n) {undos : List (Io × Key)}
    (hkeys : undos.map Prod.snd = List.replicate n undoKey) :
    ∃ m, Editor.run lib e undos = some (.running m)
      ∧ m.buffer.lines = lines := by
  induction n generalizing e undos with
  | zero =>
    have hnil : undos = [] := List.map_eq_nil_iff.mp hkeys
    subst hnil
    exact ⟨e, rfl, hsaved⟩
  | succ n ih =>
    rw [List.replicate_succ] at hkeys
    obtain ⟨⟨io, k⟩, rest, hundos, hk, hrest⟩ :=
      List.map_eq_cons_iff.mp hkeys
    subst hundos
    have hk : k = undoKey := hk
    subst hk
    obtain ⟨s, hs, hsame⟩ := hsaved
    have hbelow : Saved lines e.called.undoOne n := by
      cases hstack : e.undo.stack with
      | nil =>
        rw [hstack] at hs
        cases hs
      | cons top below =>
        have htop : e.undo.stack.head? = some top := by
          rw [hstack]
          rfl
        obtain ⟨hbuffer, hundo⟩ := undoOne_some htop
        rw [hstack] at hs
        cases n with
        | zero =>
          cases hs
          exact (congrArg Snapshot.lines hbuffer).trans hsame
        | succ n =>
          refine ⟨s, ?_, hsame⟩
          rw [hundo]
          show e.undo.stack.tail[n]? = some s
          rw [hstack]
          exact hs
    obtain ⟨m, hrun, hm⟩ := ih undoOne_ready hbelow hrest
    refine ⟨m, ?_, hm⟩
    show (Editor.step lib io e undoKey).bind _ = _
    rw [step_undo lib io hready]
    exact hrun

end Sessions

-- ======== the law

/-- `u` after one command that changed the text restores the lines and the
cursor exactly if the command is undoable there; and commands that push one
snapshot each, at most as many as the stack holds, are undone by as many
`u`. -/
theorem undo_law (lib : RegexLib ρ) :
    (∀ (c : Change) (e e' : Editor ρ) (io : Io), Performs lib c e e' →
      (Restores lib io e e' ↔ c.undoable e.buffer e.undo))
    ∧ ∀ (cs : List Change) (e e' : Editor ρ) (undos : List (Io × Key)),
      Session lib e cs e' → e'.Ready →
      (∀ c ∈ cs, c.pushesOne = true) → cs.length ≤ Undo.cap →
      undos.map Prod.snd = List.replicate cs.length undoKey →
      ∃ m, Editor.run lib e' undos = some (.running m)
        ∧ m.buffer.lines = e.buffer.lines := by
  refine ⟨?_, ?_⟩
  · intro c e e' io h
    exact restores_iff h io
  · intro cs e e' undos h hready hone hcap hkeys
    exact undos_restore hready (h.saved hone hcap) hkeys

def Change.steps (c : Change) : List (Io × Key) :=
  c.keys.map fun key => (fullDisk, key)

def viOfAb : Editor Unit := Editor.start loadedFile

theorem performs_x : ∃ e', Performs noRegex (.edit .deleteChar) viOfAb e' :=
  ⟨_, rfl, ⟨rfl, rfl, rfl⟩,
    ⟨(Change.edit .deleteChar).steps, rfl, rfl⟩, by decide⟩

/-- `x` and its `u`, as one command and as a run of one. -/
theorem undo_law_x : ∃ e', Performs noRegex (.edit .deleteChar) viOfAb e'
    ∧ Restores noRegex fullDisk viOfAb e'
    ∧ ∃ m, Editor.run noRegex e' [(fullDisk, undoKey)] = some (.running m)
      ∧ m.buffer.lines = [ascii "ab"] := by
  obtain ⟨e', h⟩ := performs_x
  refine ⟨e', h, ?_, ?_⟩
  · exact ((undo_law noRegex).1 _ _ _ _ h).mpr trivial
  · exact (undo_law noRegex).2 [.edit .deleteChar] viOfAb e' _
      (.change .start h) h.ready_after (by decide) (by decide) rfl

/-- `ccx` and Esc on the line `ab`: the snapshot on top of the stack is of
the empty line, which is what `u` gives. -/
theorem change_line_half_undone :
    ∃ e' m, Performs noRegex (.session .changeLine (typed "x")) viOfAb e'
      ∧ ¬ Restores noRegex fullDisk viOfAb e'
      ∧ Editor.step noRegex fullDisk e' undoKey = some (.running m)
      ∧ viOfAb.buffer.lines = [ascii "ab"] ∧ e'.buffer.lines = [ascii "x"]
      ∧ m.buffer.lines = [[]] := by
  refine ⟨_, _, ⟨rfl, ⟨rfl, rfl, rfl⟩,
    ⟨(Change.session .changeLine (typed "x")).steps, rfl, rfl⟩,
    by decide⟩, ?_, rfl, by decide, by decide, by decide⟩
  intro h
  obtain ⟨m, hm, hsame⟩ := h
  cases hm
  exact absurd hsame (by decide)

end LinuxRs.Vi
