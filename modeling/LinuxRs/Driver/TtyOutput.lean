/-
Output post-processing across pauses
(kernel/src/driver/character/tty/mod.rs, `fill_output`, `write` and
`take_output`).

# One call

A write fills the output queue, sleeps while it is full, and goes on where
it stopped; the backend takes bytes off the queue in between. The two are
the labels of `writeStep`, in any order and with any sizes: the threshold
at which `write` wakes only excludes some of these orders.

# The invariant

What has left the queue, what is in it, and what the rest of the buffer will
still put into it: the three together never change (`WriteCall.stream`). The
rest of the buffer is translated from the pending flag on, since its first
newline may already have its carriage return in the queue.
-/
import LinuxRs.Driver.TtyInput

namespace LinuxRs.Driver

open LinuxRs.Lib

-- ======== output modes

def toAsciiUppercase (byte : BitVec 8) : BitVec 8 :=
  if 97#8 ≤ byte ∧ byte ≤ 122#8 then byte - 32#8 else byte

structure OutputMode where
  bits : BitVec 32

namespace OutputMode

def opost (m : OutputMode) : Bool := hasFlag m.bits 0o1#32

def olcuc (m : OutputMode) : Bool := hasFlag m.bits 0o2#32

def onlcr (m : OutputMode) : Bool := hasFlag m.bits 0o4#32

def ocrnl (m : OutputMode) : Bool := hasFlag m.bits 0o10#32

def onlret (m : OutputMode) : Bool := hasFlag m.bits 0o40#32

def mapOutputByte (m : OutputMode) (byte : BitVec 8) : BitVec 8 :=
  if byte = carriageReturn ∧ m.ocrnl then newline
  else if byte = newline ∧ m.onlret then carriageReturn
  else if m.olcuc then toAsciiUppercase byte
  else byte

def mapped (m : OutputMode) (byte : BitVec 8) : BitVec 8 :=
  if m.opost then m.mapOutputByte byte else byte

end OutputMode

namespace TtyState

def shouldInsertOutputCr (s : TtyState) (m : OutputMode)
    (byte : BitVec 8) : Bool :=
  byte = newline ∧ m.onlcr ∧ s.outputCrPending = false

/-- The loop of `TtyState::fill_output`, with the number of bytes that it
consumes. -/
def fillLoop (m : OutputMode) :
    Nat → TtyState → List (BitVec 8) → TtyState × Nat
  | 0, s, _ => (s, 0)
  | _ + 1, s, [] => (s, 0)
  | fuel + 1, s, byte :: rest =>
    if s.output.isFull then (s, 0)
    else if m.opost ∧ s.shouldInsertOutputCr m (m.mapped byte) then
      fillLoop m fuel { s with
          outputCrPending := true
          output := s.output.push carriageReturn }
        (byte :: rest)
    else
      let r := fillLoop m fuel { s with
          outputCrPending := false
          output := s.output.push (m.mapped byte) } rest
      (r.1, r.2 + 1)

/-- `TtyState::fill_output`; a byte takes at most two turns. -/
def fillOutput (m : OutputMode) (s : TtyState) (buffer : List (BitVec 8)) :
    TtyState × Nat :=
  fillLoop m (2 * buffer.length) s buffer

/-- What the loop of `TtyDevice::take_output` puts into its buffer. -/
def takenBytes : Nat → RingBuffer → List (BitVec 8)
  | 0, _ => []
  | n + 1, r =>
    match r.pop with
    | none => []
    | some (byte, r) => byte :: takenBytes n r

end TtyState

-- ======== the translation

namespace OutputMode

/-- A byte on its way out; a newline gets a carriage return under ONLCR
unless it has one. -/
def expand (m : OutputMode) (pending : Bool) (byte : BitVec 8) :
    List (BitVec 8) :=
  if m.opost ∧ m.mapped byte = newline ∧ m.onlcr ∧ pending = false then
    [carriageReturn, newline]
  else [m.mapped byte]

def translate (m : OutputMode) (bytes : List (BitVec 8)) : List (BitVec 8) :=
  bytes.flatMap (m.expand false)

/-- The translation of a buffer whose first newline may have its carriage
return already. -/
def translateFrom (m : OutputMode) (pending : Bool) :
    List (BitVec 8) → List (BitVec 8)
  | [] => []
  | byte :: rest => m.expand pending byte ++ m.translate rest

theorem translateFrom_false (m : OutputMode) (bytes : List (BitVec 8)) :
    m.translateFrom false bytes = m.translate bytes := by
  cases bytes with
  | nil => rfl
  | cons byte rest => rfl

end OutputMode

namespace TtyState

variable {s s' : TtyState} {m : OutputMode} {bytes : List (BitVec 8)}

/-- What a filling does: the queue and the translation of what is left of
the buffer are what they were, and it stops for lack of bytes or of room. -/
structure Filled (m : OutputMode) (s s' : TtyState)
    (bytes : List (BitVec 8)) (consumed : Nat) : Prop where
  stream : s'.output.toList
      ++ m.translateFrom s'.outputCrPending (bytes.drop consumed)
    = s.output.toList ++ m.translateFrom s.outputCrPending bytes
  bound : consumed ≤ bytes.length
  stops : consumed = bytes.length ∨ s'.output.isFull = true

def turns (s : TtyState) (bytes : List (BitVec 8)) : Nat :=
  2 * bytes.length - (if s.outputCrPending then 1 else 0)

/-- The loop puts in what fits and leaves the rest. -/
theorem fillLoop_filled (fuel : Nat) (s : TtyState)
    (bytes : List (BitVec 8)) (hfuel : s.turns bytes ≤ fuel) :
    Filled m s (fillLoop m fuel s bytes).1 bytes
      (fillLoop m fuel s bytes).2 := by
  induction fuel generalizing s bytes with
  | zero =>
    have hempty : bytes = [] := by
      apply List.length_eq_zero_iff.mp
      unfold turns at hfuel
      split at hfuel <;> omega
    subst hempty
    exact ⟨rfl, Nat.le_refl _, .inl rfl⟩
  | succ fuel ih =>
    cases bytes with
    | nil => exact ⟨rfl, Nat.le_refl _, .inl rfl⟩
    | cons byte rest =>
      unfold fillLoop
      split
      next hfull => exact ⟨rfl, Nat.zero_le _, .inr hfull⟩
      next hroom =>
        have hroom : s.output.isFull = false := Bool.eq_false_iff.mpr hroom
        split
        next hinsert =>
          -- the carriage return is queued, and the newline is still there
          obtain ⟨hpost, hinsert⟩ := hinsert
          obtain ⟨hnl, honlcr, hpending⟩ := of_decide_eq_true hinsert
          obtain ⟨hstream, hbound, hstops⟩ := ih { s with
              outputCrPending := true
              output := s.output.push carriageReturn } (byte :: rest)
            (by
              unfold turns at hfuel ⊢
              rw [hpending] at hfuel
              simp only [Bool.false_eq_true, if_false, if_true,
                List.length_cons] at hfuel ⊢
              omega)
          refine ⟨?_, hbound, hstops⟩
          rw [hstream]
          rw [RingBuffer.toList_push hroom, List.append_assoc]
          show _ ++ ([carriageReturn] ++ (m.expand true byte
            ++ m.translate rest))
            = _ ++ (m.expand s.outputCrPending byte ++ m.translate rest)
          have hsecond : m.expand true byte = [newline] := by
            unfold OutputMode.expand
            rw [if_neg fun h => Bool.noConfusion h.2.2.2, hnl]
          have hboth : m.expand s.outputCrPending byte
              = [carriageReturn, newline] := by
            unfold OutputMode.expand
            rw [if_pos ⟨hpost, hnl, honlcr, hpending⟩]
          rw [hsecond, hboth]
          rfl
        next hplain =>
          obtain ⟨hstream, hbound, hstops⟩ := ih { s with
              outputCrPending := false
              output := s.output.push (m.mapped byte) } rest
            (by
              unfold turns at hfuel ⊢
              simp only [Bool.false_eq_true, if_false,
                List.length_cons] at hfuel ⊢
              split at hfuel <;> omega)
          refine ⟨?_, Nat.succ_le_succ hbound, ?_⟩
          · show _ ++ m.translateFrom _ (rest.drop _) = _
            rw [hstream]
            rw [RingBuffer.toList_push hroom,
              OutputMode.translateFrom_false, List.append_assoc]
            have hone : m.expand s.outputCrPending byte = [m.mapped byte] := by
              unfold OutputMode.expand
              rw [if_neg fun h => hplain ⟨h.1, decide_eq_true h.2⟩]
            show _ = _ ++ (m.expand s.outputCrPending byte ++ m.translate rest)
            rw [hone]
          · exact hstops.imp_left (congrArg Nat.succ)

theorem fillOutput_filled (m : OutputMode) (s : TtyState)
    (bytes : List (BitVec 8)) :
    Filled m s (s.fillOutput m bytes).1 bytes (s.fillOutput m bytes).2 :=
  fillLoop_filled _ s bytes (Nat.sub_le _ _)

theorem takenBytes_append (n : Nat) (r : RingBuffer) :
    takenBytes n r ++ (takeLoop n r).toList = r.toList := by
  induction n generalizing r with
  | zero => rfl
  | succ n ih =>
    unfold takenBytes takeLoop
    cases hpop : r.pop with
    | none => rfl
    | some popped =>
      obtain ⟨byte, rest⟩ := popped
      rw [RingBuffer.pop_some hpop]
      exact congrArg (byte :: ·) (ih rest)

end TtyState

-- ======== one write

/-- A write under way: the bytes of the buffer that are consumed, and those
that have left the queue since it began. -/
structure WriteCall where
  tty : TtyState
  sent : Nat
  left : List (BitVec 8)

/-- What happens during a write: it fills the queue, the backend takes at
most `room` bytes, output is stopped or resumed. -/
inductive WriteAct
  | fill
  | take (room : Nat)
  | flow (stopped : Bool)

variable {s : TtyState} {m : OutputMode} {buffer : List (BitVec 8)}
  {w w' : WriteCall}

/-- One step of a write of `buffer` under an output mode. -/
def writeStep (m : OutputMode) (buffer : List (BitVec 8))
    (w : WriteCall) : WriteAct → Option WriteCall
  | .fill =>
    if w.sent < buffer.length then
      let r := w.tty.fillOutput m (buffer.drop w.sent)
      some { w with tty := r.1, sent := w.sent + r.2 }
    else none
  | .take room =>
    let out := if w.tty.stopped then []
      else TtyState.takenBytes room w.tty.output
    some { w with tty := w.tty.takeOutput room, left := w.left ++ out }
  | .flow stopped => some { w with tty := { w.tty with stopped := stopped } }

namespace WriteCall

/-- The state of a write against the state in which it began: what has left
the queue, what is in it, and what is still to come. -/
structure Inv (m : OutputMode) (buffer : List (BitVec 8)) (s : TtyState)
    (w : WriteCall) : Prop where
  stream : w.left ++ (w.tty.output.toList
      ++ m.translateFrom w.tty.outputCrPending (buffer.drop w.sent))
    = s.output.toList ++ m.translateFrom s.outputCrPending buffer
  bound : w.sent ≤ buffer.length

theorem Inv.init (m : OutputMode) (buffer : List (BitVec 8)) (s : TtyState) :
    Inv m buffer s ⟨s, 0, []⟩ := ⟨rfl, Nat.zero_le _⟩

theorem Inv.step (h : Inv m buffer s w) {act : WriteAct}
    (hstep : writeStep m buffer w act = some w') : Inv m buffer s w' := by
  obtain ⟨hstream, hbound⟩ := h
  cases act with
  | fill =>
    obtain ⟨hlt, hstep⟩ := Option.ite_none_right_eq_some.mp hstep
    cases hstep
    have hfilled := w.tty.fillOutput_filled m (buffer.drop w.sent)
    refine ⟨?_, ?_⟩
    · dsimp only
      rw [← List.drop_drop, hfilled.stream]
      exact hstream
    · have hle := hfilled.bound
      rw [List.length_drop] at hle
      dsimp only
      omega
  | take room =>
    cases hstep
    refine ⟨?_, hbound⟩
    unfold TtyState.takeOutput
    by_cases hstopped : w.tty.stopped = true
    · rw [if_pos hstopped, if_pos hstopped, List.append_nil]
      exact hstream
    · rw [if_neg hstopped, if_neg hstopped, ← hstream]
      rw [List.append_assoc, ← List.append_assoc (TtyState.takenBytes ..),
        TtyState.takenBytes_append]
  | flow stopped =>
    cases hstep
    exact ⟨hstream, hbound⟩

theorem Inv.run (h : Inv m buffer s w) (acts : List WriteAct)
    (hrun : run (writeStep m buffer) w acts = some w') : Inv m buffer s w' :=
  Reachable.invariant h (fun _ _ _ hinv => hinv.step)
    (Reachable.of_run .refl hrun)

/-- The stream of a write: at every moment what has left the queue is the
beginning of its old content and the translation behind it; when the whole
buffer is consumed nothing of it is missing, and when the queue is empty as
well, that is what has left. -/
structure Stream (m : OutputMode) (buffer : List (BitVec 8)) (s : TtyState)
    (w : WriteCall) : Prop where
  left : w.left <+: s.output.toList ++ m.translateFrom s.outputCrPending buffer
  sent : w.sent = buffer.length → w.left ++ w.tty.output.toList
    = s.output.toList ++ m.translateFrom s.outputCrPending buffer
  drained : w.sent = buffer.length → w.tty.output.toList = [] →
    w.left = s.output.toList ++ m.translateFrom s.outputCrPending buffer

theorem Inv.toStream (h : Inv m buffer s w) : Stream m buffer s w := by
  obtain ⟨hstream, -⟩ := h
  have hsent : w.sent = buffer.length → w.left ++ w.tty.output.toList
      = s.output.toList ++ m.translateFrom s.outputCrPending buffer := by
    intro hall
    rw [hall, List.drop_length] at hstream
    have hnone : m.translateFrom w.tty.outputCrPending [] = [] := rfl
    rw [hnone, List.append_nil] at hstream
    exact hstream
  refine ⟨?_, hsent, fun hall hempty => ?_⟩
  · rw [← hstream]
    exact List.prefix_append ..
  · rw [← hsent hall, hempty, List.append_nil]

end WriteCall

-- ======== the result

/-- For every output mode, buffer, state of the terminal and order of
fillings, drains and stops: the bytes that leave the queue are its old
content and the one-pass translation of the buffer, in which a newline at
the front gets no second carriage return if an earlier write has queued one
for it. -/
theorem write_stream (m : OutputMode) (buffer : List (BitVec 8))
    (s : TtyState) (acts : List WriteAct)
    (h : run (writeStep m buffer) ⟨s, 0, []⟩ acts = some w) :
    WriteCall.Stream m buffer s w ∧ (s.outputCrPending = false →
        m.translateFrom s.outputCrPending buffer = m.translate buffer) := by
  refine ⟨((WriteCall.Inv.init m buffer s).run acts h).toStream, ?_⟩
  intro hfresh
  rw [hfresh]
  exact m.translateFrom_false buffer

/-- A line, drained in two parts. -/
theorem write_stream_line : ∃ w, run (writeStep ⟨0o5#32⟩ [97#8, 10#8])
        ⟨.new .consoleDefault, 0, []⟩ [.fill, .take 2, .take 5] = some w
      ∧ WriteCall.Stream ⟨0o5#32⟩ [97#8, 10#8] (.new .consoleDefault) w
      ∧ OutputMode.translate ⟨0o5#32⟩ [97#8, 10#8] = [97#8, 13#8, 10#8] :=
  ⟨_, rfl, (write_stream _ _ _ [.fill, .take 2, .take 5] rfl).1, by decide⟩

def almostFull : TtyState :=
  { TtyState.new .consoleDefault with
    output := ⟨fun _ => 97#8, 1022, 0,
      Nat.lt_succ_of_lt (Nat.lt_succ_self 1022), Nat.succ_pos 1023⟩ }

/-- A newline is written to a queue with one free slot, and a signal ends
the write behind the carriage return, with nothing sent. The queue is
drained. The next write of a newline is complete, and only the newline
leaves the queue. -/
theorem interrupted_newline :
    (run (writeStep ⟨0o5#32⟩ [10#8]) ⟨almostFull, 0, []⟩
        [.fill, .take 1023]).map
        (fun w => (w.sent, w.tty.output.toList)) = some (0, [])
    ∧ ((run (writeStep ⟨0o5#32⟩ [10#8]) ⟨almostFull, 0, []⟩
        [.fill, .take 1023]).bind fun w =>
      run (writeStep ⟨0o5#32⟩ [10#8]) ⟨w.tty, 0, []⟩ [.fill, .take 2]).map
        (fun w => (w.sent, w.left)) = some (1, [10#8])
    ∧ OutputMode.translate ⟨0o5#32⟩ [10#8] = [13#8, 10#8] := by
  refine ⟨?_, ?_, ?_⟩ <;> decide +kernel

end LinuxRs.Driver
