/-
The two laws of terminal input: the count of complete lines, and that no
raw byte is left behind.

# Counting lines

`pendingLines` counts the boundary bytes of the cooked queue (`Lines`).
Every turn of the discipline and every read keeps the count; a `termios`
change does not recount, so it keeps the law exactly when the new
end-of-file character gives the queue the same count.

# Moving input on

A discipline run ends with no raw input or no room for more (`Drained`).
Reading makes room and does not run the discipline, so the law survives a
read exactly when there was no raw input to be left behind.
-/
import LinuxRs.Driver.Tty
import LinuxRs.Lib.Run

namespace LinuxRs.Driver

open LinuxRs.Lib

namespace TtyState

variable {s s' s'' : TtyState} {byte : BitVec 8}

-- ======== the two laws

/-- The boundary bytes of the cooked queue, under an end-of-file
character. -/
def boundaries (s : TtyState) (eof : BitVec 8) : Nat :=
  s.cookedInput.toList.countP (boundary eof)

/-- `pending_lines` is the number of boundary bytes in the queue. -/
def Lines (s : TtyState) : Prop := s.pendingLines = s.boundaries s.eof

/-- Bytes wait to be cooked only where the cooked queue is full. -/
def Drained (s : TtyState) : Prop :=
  s.rawInput.toList ≠ [] → s.cookedInput.isFull = true

/-- What a turn of the input keeps. -/
structure Turn (s s' : TtyState) : Prop where
  termios : s'.termios = s.termios
  rawInput : s'.rawInput = s.rawInput
  lines : s.Lines → s'.Lines

theorem Turn.refl (s : TtyState) : Turn s s := ⟨rfl, rfl, fun h => h⟩

theorem Turn.trans (h : Turn s s') (h' : Turn s' s'') : Turn s s'' :=
  ⟨h'.termios.trans h.termios, h'.rawInput.trans h.rawInput,
    fun hl => h'.lines (h.lines hl)⟩

/-- The input side is as it was. -/
structure SameInput (s s' : TtyState) : Prop where
  termios : s'.termios = s.termios
  rawInput : s'.rawInput = s.rawInput
  cookedInput : s'.cookedInput = s.cookedInput
  pendingLines : s'.pendingLines = s.pendingLines

theorem SameInput.trans (h : SameInput s s') (h' : SameInput s' s'') :
    SameInput s s'' :=
  ⟨h'.termios.trans h.termios, h'.rawInput.trans h.rawInput,
    h'.cookedInput.trans h.cookedInput, h'.pendingLines.trans h.pendingLines⟩

theorem SameInput.refl (s : TtyState) : SameInput s s := ⟨rfl, rfl, rfl, rfl⟩

theorem pushOutput_same (s : TtyState) (byte : BitVec 8) :
    SameInput s (s.pushOutput byte) := ⟨rfl, rfl, rfl, rfl⟩

theorem pushEraseSequence_same (s : TtyState) :
    SameInput s s.pushEraseSequence :=
  ((pushOutput_same s _).trans (pushOutput_same _ _)).trans (pushOutput_same _ _)

theorem echo_same (s : TtyState) (byte : BitVec 8) :
    SameInput s (s.echo byte).1 := by
  unfold echo
  split
  next => exact (pushOutput_same s _).trans (pushOutput_same _ _)
  next =>
    split
    next =>
      split
      next => exact (pushOutput_same s _).trans (pushOutput_same _ _)
      next => exact .refl s
    next => exact pushOutput_same s byte

theorem echoErase_same (s : TtyState) (erased : BitVec 8) :
    SameInput s (s.echoErase erased).1 := by
  unfold echoErase
  split
  next => exact .refl s
  next =>
    split
    next =>
      split
      next =>
        exact (pushEraseSequence_same s).trans (pushEraseSequence_same _)
      next => exact pushEraseSequence_same s
    next => exact pushOutput_same s backspace

-- ======== the discipline

theorem eraseLast_turn {echoed : Bool} (h : s.eraseLast = some (s', echoed)) :
    Turn s s' := by
  unfold eraseLast at h
  split at h
  next => cases h
  next last hlast =>
    split at h
    next => cases h
    next hline =>
      cases h
      have hsame := s.echoErase_same last
      refine ⟨hsame.termios, hsame.rawInput, fun hl => ?_⟩
      have hqueue := RingBuffer.last_some hlast
      have hcount : s.boundaries s.eof
          = (s.cookedInput.popLast.toList).countP (boundary s.eof) := by
        unfold boundaries
        rw [hqueue, List.countP_append, List.countP_singleton,
          if_neg (show ¬ boundary s.eof last = true from hline), Nat.add_zero]
      unfold Lines boundaries eof at *
      rw [hsame.termios, hsame.cookedInput, hsame.pendingLines, hl, hcount]

theorem eraseLine_turn (fuel : Nat) (s : TtyState) :
    Turn s (eraseLine fuel s).1 := by
  induction fuel generalizing s with
  | zero => exact .refl s
  | succ fuel ih =>
    unfold eraseLine
    split
    next => exact .refl s
    next s₁ echoed herase => exact (eraseLast_turn herase).trans (ih s₁)

theorem handleEditing_turn {flush : Bool}
    (h : s.handleEditing byte = some (s', flush)) : Turn s s' := by
  unfold handleEditing at h
  dsimp only at h
  split at h
  next =>
    obtain heq := Option.some.inj h
    have hturn := eraseLine_turn s.cookedInput.len s
    rw [heq] at hturn
    exact hturn
  next =>
    split at h
    next =>
      split at h
      next =>
        cases h
        exact .refl s
      next r herase =>
        cases h
        exact eraseLast_turn herase
    next => cases h

theorem handleFlowControl_turn {flush : Bool}
    (h : s.handleFlowControl byte = some (s', flush)) : Turn s s' := by
  unfold handleFlowControl at h
  split at h
  next =>
    cases h
    exact ⟨rfl, rfl, fun hl => hl⟩
  next =>
    split at h
    next =>
      cases h
      exact ⟨rfl, rfl, fun hl => hl⟩
    next => cases h

theorem accept_turn (hroom : s.cookedInput.isFull = false)
    (byte : BitVec 8) : Turn s (s.accept byte).1 := by
  have hcounted : ∀ s₁ : TtyState, s₁.termios = s.termios →
      s₁.rawInput = s.rawInput → s₁.cookedInput = s.cookedInput →
      s₁.pendingLines = s.pendingLines
        + (if s.isLineBoundary byte then 1 else 0) →
      Turn s { s₁ with cookedInput := s₁.cookedInput.push byte } := by
    intro s₁ ht hr hc hp
    refine ⟨ht, hr, fun hl => ?_⟩
    unfold Lines boundaries eof at *
    rw [ht, hc, RingBuffer.toList_push hroom, List.countP_append,
      List.countP_singleton, hp, hl]
    rfl
  unfold accept
  dsimp only
  split
  next hline =>
    split
    next =>
      have hsame := echo_same { s with pendingLines := s.pendingLines + 1 } byte
      refine hcounted _ hsame.termios hsame.rawInput hsame.cookedInput ?_
      rw [hsame.pendingLines, if_pos hline]
    next =>
      refine hcounted { s with pendingLines := s.pendingLines + 1 } rfl rfl rfl
        ?_
      rw [if_pos hline]
  next hline =>
    split
    next =>
      have hsame := echo_same s byte
      refine hcounted _ hsame.termios hsame.rawInput hsame.cookedInput ?_
      rw [hsame.pendingLines, if_neg hline, Nat.add_zero]
    next =>
      refine hcounted s rfl rfl rfl ?_
      rw [if_neg hline, Nat.add_zero]

theorem dispatch_turn (hroom : s.cookedInput.isFull = false)
    (byte : BitVec 8) : Turn s (s.dispatch byte).1 := by
  unfold dispatch
  split
  next s₁ flush h =>
    split at h
    next => exact handleFlowControl_turn h
    next => cases h
  next =>
    split
    next => exact .refl s
    next =>
      split
      next s₁ flush h =>
        split at h
        next => exact handleEditing_turn h
        next => cases h
      next => exact accept_turn hroom byte

theorem processByte_turn (hroom : s.cookedInput.isFull = false)
    (raw : BitVec 8) : Turn s (s.processByte raw).1 := by
  unfold processByte
  split
  next => exact .refl s
  next byte _ => exact dispatch_turn hroom byte

/-- The loop ends with nothing raw left, or the cooked queue full. -/
theorem processLoop_spec (fuel : Nat) (s : TtyState) :
    (processLoop fuel s).1.termios = s.termios ∧
      (s.Lines → (processLoop fuel s).1.Lines) ∧
      (s.rawInput.len ≤ fuel → (processLoop fuel s).1.Drained) := by
  induction fuel generalizing s with
  | zero =>
    refine ⟨rfl, fun hl => hl, fun hlen hne => ?_⟩
    rw [← RingBuffer.length_toList] at hlen
    exact absurd (List.length_eq_zero_iff.mp (Nat.le_zero.mp hlen)) hne
  | succ fuel ih =>
    unfold processLoop
    split
    next hfull => exact ⟨rfl, fun hl => hl, fun _ _ => hfull⟩
    next hroom =>
      have hroom : s.cookedInput.isFull = false := Bool.eq_false_iff.mpr hroom
      split
      next hnone =>
        refine ⟨rfl, fun hl => hl, fun _ hne => ?_⟩
        exact absurd (RingBuffer.pop_none_iff.mp hnone) hne
      next raw rest hpop =>
        have hturn : Turn { s with rawInput := rest }
            (({ s with rawInput := rest } : TtyState).processByte raw).1 :=
          processByte_turn (s := { s with rawInput := rest }) hroom raw
        obtain ⟨ht, hl, hd⟩ := ih
          (({ s with rawInput := rest } : TtyState).processByte raw).1
        refine ⟨ht.trans hturn.termios, fun h => hl (hturn.lines h),
          fun hlen => hd ?_⟩
        have hlist := congrArg List.length (RingBuffer.pop_some hpop)
        rw [List.length_cons, RingBuffer.length_toList,
          RingBuffer.length_toList] at hlist
        rw [hturn.rawInput]
        dsimp only
        omega

theorem receiveInput_lines (h : s.Lines) (bytes : List (BitVec 8)) :
    (s.receiveInput bytes).1.Lines :=
  (processLoop_spec _ _).2.1 h

theorem receiveInput_drained (s : TtyState) (bytes : List (BitVec 8)) :
    (s.receiveInput bytes).1.Drained :=
  (processLoop_spec _ _).2.2 (Nat.le_refl _)

-- ======== reading

theorem takeCooked_lines {rest : RingBuffer} (h : s.Lines)
    (hpop : s.cookedInput.pop = some (byte, rest)) :
    (s.takeCooked byte rest).Lines := by
  have hqueue := RingBuffer.pop_some hpop
  unfold Lines boundaries at h
  rw [hqueue, List.countP_cons] at h
  show (if s.isLineBoundary byte ∧ 0 < s.pendingLines then s.pendingLines - 1
    else s.pendingLines) = rest.toList.countP (boundary s.eof)
  by_cases hb : s.isLineBoundary byte
  · rw [if_pos (show boundary s.eof byte = true from hb)] at h
    rw [if_pos ⟨hb, by omega⟩]
    omega
  · rw [if_neg (show ¬ boundary s.eof byte = true from hb)] at h
    rw [if_neg fun hc => hb hc.1]
    exact h

theorem drainCooked_lines (room : Nat) (h : s.Lines) :
    (drainCooked room s).1.Lines := by
  induction room generalizing s with
  | zero => exact h
  | succ room ih =>
    unfold drainCooked
    split
    next => exact h
    next byte rest hpop =>
      have hone := takeCooked_lines h hpop
      split
      next => exact hone
      next => exact ih hone

theorem drainCooked_len (room : Nat) (s : TtyState) :
    (drainCooked room s).1.rawInput = s.rawInput ∧
      (drainCooked room s).1.cookedInput.len ≤ s.cookedInput.len := by
  induction room generalizing s with
  | zero => exact ⟨rfl, Nat.le_refl _⟩
  | succ room ih =>
    unfold drainCooked
    split
    next => exact ⟨rfl, Nat.le_refl _⟩
    next byte rest hpop =>
      have hlist := congrArg List.length (RingBuffer.pop_some hpop)
      rw [List.length_cons, RingBuffer.length_toList,
        RingBuffer.length_toList] at hlist
      have hlen : (s.takeCooked byte rest).cookedInput.len
          ≤ s.cookedInput.len := by
        show rest.len ≤ _
        omega
      split
      next => exact ⟨rfl, hlen⟩
      next =>
        obtain ⟨hraw, hle⟩ := ih (s.takeCooked byte rest)
        exact ⟨hraw, hle.trans hlen⟩

theorem drainCooked_lt {room : Nat} (hroom : room ≠ 0)
    (hne : s.cookedInput.toList ≠ []) :
    (drainCooked room s).1.cookedInput.len < s.cookedInput.len := by
  cases room with
  | zero => exact absurd rfl hroom
  | succ room =>
    unfold drainCooked
    split
    next hnone => exact absurd (RingBuffer.pop_none_iff.mp hnone) hne
    next byte rest hpop =>
      have hlist := congrArg List.length (RingBuffer.pop_some hpop)
      rw [List.length_cons, RingBuffer.length_toList,
        RingBuffer.length_toList] at hlist
      have hlen : (s.takeCooked byte rest).cookedInput.len
          < s.cookedInput.len := by
        show rest.len < _
        omega
      split
      next => exact hlen
      next =>
        have hle := (drainCooked_len room (s.takeCooked byte rest)).2
        exact Nat.lt_of_le_of_lt hle hlen

-- ======== complete lines

/-- The count is right, and a canonical reader sleeps exactly when no line
is complete, the low-water rule aside. -/
structure Exact (s : TtyState) : Prop where
  lines : s.Lines
  sleeps : s.isCanonical = true → (s.hasReadableData = false ↔
    (∀ byte ∈ s.cookedInput.toList, s.isLineBoundary byte = false) ∧
      readCanonicalLowWater < s.cookedInput.remaining)

theorem Lines.exact (h : s.Lines) : s.Exact := by
  refine ⟨h, fun hcanon => ?_⟩
  have hzero : s.pendingLines = 0 ↔
      ∀ byte ∈ s.cookedInput.toList, s.isLineBoundary byte = false := by
    rw [h]
    unfold boundaries
    rw [List.countP_eq_zero]
    refine forall₂_congr fun byte _ => ?_
    rw [Bool.not_eq_true]
    rfl
  unfold hasReadableData
  rw [if_pos hcanon, decide_eq_false_iff_not, not_or, ← hzero]
  omega

/-- A `termios` change gives the queue the same number of boundary
bytes. -/
def SameLines (s : TtyState) : TtyOp → Prop
  | .setTermios termios =>
    s.boundaries (termios.controlChar .eof) = s.boundaries s.eof
  | .setTermio termio =>
    s.boundaries ((s.termios.applyTermio termio).controlChar .eof)
      = s.boundaries s.eof
  | _ => True

theorem lines_setTermios_iff (h : s.Lines) (termios : Termios) :
    Lines { s with termios := termios } ↔
      s.boundaries (termios.controlChar .eof) = s.boundaries s.eof := by
  show s.pendingLines = s.boundaries (termios.controlChar .eof) ↔ _
  rw [h, eq_comm]

theorem lines_flushInput (s : TtyState) : s.flushInput.Lines := by
  show 0 = (s.cookedInput.clear.toList).countP (boundary s.eof)
  rw [RingBuffer.toList_clear, List.countP_nil]

theorem lines_takeOutput (h : s.Lines) (room : Nat) :
    (s.takeOutput room).Lines := by
  unfold takeOutput
  split
  next => exact h
  next => exact h

/-- The count of lines stays right exactly if the call changes neither mode
nor delimiters under queued bytes. -/
theorem Lines.step_iff (h : s.Lines) {op : TtyOp}
    (hstep : s.step op = some s') : s'.Lines ↔ s.SameLines op := by
  cases op with
  | receive bytes =>
    cases hstep
    exact iff_of_true (receiveInput_lines h bytes) trivial
  | read room =>
    simp only [step] at hstep
    split at hstep
    next =>
      cases hstep
      exact iff_of_true h trivial
    next =>
      split at hstep
      next =>
        cases hstep
        exact iff_of_true (drainCooked_lines room h) trivial
      next => cases hstep
  | flush selector =>
    cases selector with
    | input =>
      cases hstep
      exact iff_of_true (lines_flushInput s) trivial
    | output =>
      cases hstep
      exact iff_of_true h trivial
    | both =>
      cases hstep
      exact iff_of_true (lines_flushInput s) trivial
  | setTermios termios =>
    cases hstep
    exact lines_setTermios_iff h termios
  | setTermiosFlush termios =>
    cases hstep
    refine iff_of_true ?_ trivial
    rw [lines_setTermios_iff (lines_flushInput s)]
    show s.cookedInput.clear.toList.countP _
      = s.cookedInput.clear.toList.countP _
    rw [RingBuffer.toList_clear, List.countP_nil, List.countP_nil]
  | setTermio termio =>
    cases hstep
    exact lines_setTermios_iff h (s.termios.applyTermio termio)
  | setTermioFlush termio =>
    cases hstep
    refine iff_of_true ?_ trivial
    rw [lines_setTermios_iff (lines_flushInput s)]
    show s.cookedInput.clear.toList.countP _
      = s.cookedInput.clear.toList.countP _
    rw [RingBuffer.toList_clear, List.countP_nil, List.countP_nil]
  | takeOutput room =>
    cases hstep
    exact iff_of_true (lines_takeOutput h room) trivial

-- ======== no stuck input

/-- A read comes when everything received is cooked. -/
def Prompt (s : TtyState) : TtyOp → Prop
  | .read room => room ≠ 0 → s.rawInput.toList = []
  | _ => True

theorem Drained.read_iff (h : s.Drained) {room : Nat} (hroom : room ≠ 0) :
    (drainCooked room s).1.Drained ↔ s.rawInput.toList = [] := by
  obtain ⟨hraw, -⟩ := drainCooked_len room s
  unfold Drained
  rw [hraw]
  constructor
  · intro hafter
    by_contra hne
    have hfull := RingBuffer.isFull_iff.mp (h hne)
    have hfull' := RingBuffer.isFull_iff.mp (hafter hne)
    have hqueue : s.cookedInput.toList ≠ [] := by
      intro hnil
      rw [hnil] at hfull
      cases hfull
    have hlt := drainCooked_lt hroom hqueue
    rw [RingBuffer.length_toList] at hfull hfull'
    omega
  · intro hnil hne
    exact absurd hnil hne

theorem drained_flushInput (s : TtyState) : s.flushInput.Drained :=
  fun hne => absurd (RingBuffer.toList_clear s.rawInput) hne

/-- A step keeps the input drained exactly if it is prompt. -/
theorem Drained.step_iff (h : s.Drained) {op : TtyOp}
    (hstep : s.step op = some s') : s'.Drained ↔ s.Prompt op := by
  cases op with
  | receive bytes =>
    cases hstep
    exact iff_of_true (receiveInput_drained s bytes) trivial
  | read room =>
    simp only [step] at hstep
    split at hstep
    next hzero =>
      cases hstep
      exact iff_of_true h fun hne => absurd hzero hne
    next hroom =>
      split at hstep
      next =>
        cases hstep
        rw [h.read_iff hroom]
        exact ⟨fun hnil _ => hnil, fun hnil => hnil hroom⟩
      next => cases hstep
  | flush selector =>
    cases selector with
    | input =>
      cases hstep
      exact iff_of_true (drained_flushInput s) trivial
    | output =>
      cases hstep
      exact iff_of_true h trivial
    | both =>
      cases hstep
      exact iff_of_true (drained_flushInput s) trivial
  | setTermios termios =>
    cases hstep
    exact iff_of_true h trivial
  | setTermiosFlush termios =>
    cases hstep
    exact iff_of_true (drained_flushInput s) trivial
  | setTermio termio =>
    cases hstep
    exact iff_of_true h trivial
  | setTermioFlush termio =>
    cases hstep
    exact iff_of_true (drained_flushInput s) trivial
  | takeOutput room =>
    cases hstep
    refine iff_of_true ?_ trivial
    unfold TtyState.takeOutput
    split
    next => exact h
    next => exact h

end TtyState

-- ======== runs

/-- `INIT_CONTROL_CHARS`, in the slots that the terminal reads. -/
def initControlChars (i : Nat) : BitVec 8 :=
  [0x03#8, 0x1c#8, 0x7f#8, 0x15#8, 0x04#8, 0x00#8, 0x01#8, 0x00#8, 0x11#8,
    0x13#8].getD i 0#8

def Termios.consoleDefault : Termios := ⟨0o400#32, 0o5013#32, initControlChars⟩

def Termios.serialDefault : Termios := ⟨0#32, 0#32, initControlChars⟩

def TtyState.new (termios : Termios) : TtyState :=
  ⟨termios, 0#32, false, .new, .new, .new, 0, false⟩

theorem TtyState.drained_new (termios : Termios) :
    (TtyState.new termios).Drained :=
  fun hne => absurd RingBuffer.toList_new hne

/-- Along a run from a state without stuck input, raw input is left only
when the cooked queue is full, exactly when every read that takes something
finds no raw input. -/
theorem raw_input_drained_iff {s : TtyState} (h : s.Drained)
    (ops : List TtyOp) : (∀ t ∈ visited TtyState.step s ops, t.Drained) ↔
      Guarded TtyState.step TtyState.Prompt s ops := by
  refine visited_iff_guarded (I := TtyState.Drained) (fun _ hs => hs) ?_ ?_ h
  · intro s op s' hs hprompt hstep
    exact (hs.step_iff hstep).mpr hprompt
  · intro s op s' hs hlate hstep hdrained
    exact hlate ((hs.step_iff hstep).mp hdrained)

/-- A line is typed and read. -/
theorem raw_input_drained_line : (run TtyState.step (.new .consoleDefault)
      [.receive [97#8, 13#8], .read 10]).isSome ∧
    ∀ t ∈ visited TtyState.step (.new .consoleDefault)
      [.receive [97#8, 13#8], .read 10], t.Drained := by
  refine ⟨by decide, ?_⟩
  apply (raw_input_drained_iff (TtyState.drained_new _) _).mpr
  refine ⟨trivial, fun _ => ?_, trivial⟩
  decide

theorem TtyState.serial_processByte {s : TtyState}
    (h : s.termios = .serialDefault) (raw : BitVec 8) :
    (s.processByte raw).1.termios = .serialDefault ∧
      (s.processByte raw).1.rawInput = s.rawInput ∧
      (s.processByte raw).1.cookedInput = s.cookedInput.push raw := by
  have hlocal : s.termios.localMode = 0#32 := by rw [h]; rfl
  have hmap : s.mapInput raw = some raw := by
    unfold mapInput
    rw [h]
    simp [Termios.serialDefault, hasFlag]
  have hdispatch : (s.dispatch raw).1 = (s.accept raw).1 := by
    unfold dispatch isCanonical
    rw [hlocal]
    simp [hasFlag]
  unfold processByte
  rw [hmap]
  rw [hdispatch]
  unfold accept
  split <;> simp [Termios.serialDefault, h, hasFlag]

/-- In the serial mode every byte goes through as it is. -/
theorem TtyState.serial_processLoop (bytes : List (BitVec 8)) {s : TtyState}
    (h : s.termios = .serialDefault) (hraw : s.rawInput.toList = bytes)
    (hfit : s.cookedInput.toList.length + bytes.length ≤ ringMask) :
    (processLoop bytes.length s).1.termios = .serialDefault ∧
      (processLoop bytes.length s).1.rawInput.toList = [] ∧
      (processLoop bytes.length s).1.cookedInput.toList =
        s.cookedInput.toList ++ bytes := by
  induction bytes generalizing s with
  | nil => exact ⟨h, hraw, (List.append_nil _).symm⟩
  | cons byte bytes ih =>
    rw [List.length_cons] at hfit
    have hroom : s.cookedInput.isFull = false :=
      RingBuffer.isFull_eq_false (by omega)
    obtain ⟨⟨raw, rest⟩, hpop⟩ : ∃ p, s.rawInput.pop = some p := by
      cases hp : s.rawInput.pop with
      | none =>
        rw [RingBuffer.pop_none_iff.mp hp] at hraw
        cases hraw
      | some p => exact ⟨p, rfl⟩
    have hlist := RingBuffer.pop_some hpop
    rw [hraw] at hlist
    obtain ⟨rfl, hrest⟩ := List.cons.inj hlist
    obtain ⟨ht, hr, hc⟩ :=
      serial_processByte (s := { s with rawInput := rest }) h byte
    have hpush : (s.cookedInput.push byte).toList =
        s.cookedInput.toList ++ [byte] := RingBuffer.toList_push hroom
    have hmoved := ih ht (by rw [hr]; exact hrest.symm) (by
      rw [hc, hpush, List.length_append, List.length_singleton]
      omega)
    rw [hc, hpush, List.append_assoc, List.singleton_append] at hmoved
    rw [List.length_cons]
    unfold processLoop
    rw [hroom, hpop]
    exact hmoved

theorem TtyState.serial_receive (bytes : List (BitVec 8))
    (h : bytes.length ≤ ringMask) :
    ((TtyState.new .serialDefault).receiveInput bytes).1.termios =
        .serialDefault ∧
      ((TtyState.new .serialDefault).receiveInput bytes).1.rawInput.toList =
        [] ∧
      ((TtyState.new .serialDefault).receiveInput bytes).1.cookedInput.toList =
        bytes := by
  have hqueued : (bytes.foldl RingBuffer.push .new).toList = bytes := by
    rw [RingBuffer.toList_foldl_push bytes .new (by simpa using h)]
    simp
  have hlen : (bytes.foldl RingBuffer.push .new).len = bytes.length := by
    rw [← RingBuffer.length_toList, hqueued]
  have hmoved := serial_processLoop bytes
    (s := { TtyState.new .serialDefault with
      rawInput := bytes.foldl RingBuffer.push .new })
    rfl hqueued (by simpa [TtyState.new] using h)
  unfold receiveInput processRawInput
  dsimp only [TtyState.new] at hmoved ⊢
  rw [hlen]
  simpa using hmoved

theorem TtyState.receive_full {s : TtyState} (h : s.cookedInput.isFull = true)
    (bytes : List (BitVec 8)) : (s.receiveInput bytes).1 =
      { s with rawInput := bytes.foldl RingBuffer.push s.rawInput } := by
  show (processLoop _ _).1 = _
  cases (bytes.foldl RingBuffer.push s.rawInput).len with
  | zero => rfl
  | succ fuel =>
    unfold processLoop
    rw [if_pos h]

theorem TtyState.serial_stuck (bytes : List (BitVec 8)) (byte : BitVec 8)
    (h : bytes.length = ringMask) :
    ∃ s, run TtyState.step (.new .serialDefault)
        [.receive bytes, .receive [byte], .read 1] = some s ∧
      s.rawInput.toList = [byte] ∧ s.cookedInput.isFull = false := by
  obtain ⟨hterm, hraw, hcooked⟩ := serial_receive bytes (by omega)
  generalize hfilled :
    ((TtyState.new .serialDefault).receiveInput bytes).1 = filled at *
  have hfull : filled.cookedInput.isFull = true := by
    apply RingBuffer.isFull_iff.mpr
    rw [hcooked, h]
  have hreceive := receive_full hfull [byte]
  have hne : filled.cookedInput.toList ≠ [] := by
    intro hnil
    rw [← hcooked, hnil] at h
    cases h
  have hready : (filled.receiveInput [byte]).1.hasReadableData = true := by
    rw [hreceive]
    unfold hasReadableData isCanonical
    rw [hterm]
    cases hempty : filled.cookedInput.isEmpty with
    | true => exact absurd (RingBuffer.isEmpty_iff.mp hempty) hne
    | false => simp [hasFlag, Termios.serialDefault]
  refine ⟨((filled.receiveInput [byte]).1.drainCooked 1).1, ?_, ?_, ?_⟩
  · have hread : (filled.receiveInput [byte]).1.step (.read 1) =
        some ((filled.receiveInput [byte]).1.drainCooked 1).1 := by
      unfold TtyState.step
      dsimp only
      rw [if_neg (by decide), if_pos hready]
    show (some ((TtyState.new .serialDefault).receiveInput bytes).1).bind
      (fun s => run TtyState.step s [.receive [byte], .read 1]) = _
    rw [Option.bind_some, hfilled]
    show (some (filled.receiveInput [byte]).1).bind
      (fun s => (s.step (.read 1)).bind some) = _
    rw [Option.bind_some, hread, Option.bind_some]
  · rw [(drainCooked_len 1 _).1, hreceive]
    show (filled.rawInput.push byte).toList = _
    rw [RingBuffer.toList_push (RingBuffer.isFull_eq_false
      (by rw [hraw]; decide)), hraw]
    rfl
  · apply RingBuffer.isFull_eq_false
    have hless := drainCooked_lt (s := (filled.receiveInput [byte]).1)
      Nat.one_ne_zero (by rw [hreceive]; exact hne)
    have hbound := filled.cookedInput.len_le
    rw [hreceive] at hless ⊢
    rw [RingBuffer.length_toList]
    exact Nat.lt_of_lt_of_le hless hbound

/-- 1023 bytes fill the cooked queue of a serial line, one more byte comes
in, and a read takes one byte. -/
theorem raw_input_stuck : ∃ s, run TtyState.step (.new .serialDefault)
        [.receive (List.replicate 1023 97#8), .receive [98#8], .read 1]
        = some s ∧
      s.rawInput.toList = [98#8] ∧ s.cookedInput.isFull = false ∧
      ¬ s.Drained := by
  obtain ⟨s, hrun, hraw, hroom⟩ := TtyState.serial_stuck
    (List.replicate 1023 97#8) 98#8 List.length_replicate
  refine ⟨s, hrun, hraw, hroom, fun h => ?_⟩
  have hfull : s.cookedInput.isFull = true := h (by rw [hraw]; simp)
  rw [hroom] at hfull
  cases hfull

end LinuxRs.Driver
