/-
The buffered writer of the user library (user_lib/src/io/buffered.rs).

# The machine

`BufWriter` is generic in its inner writer, which may take part of what it is
given, take nothing, be interrupted or fail. A step is therefore one call on
the `BufWriter` or one answer of the inner writer, and a state says where the
code stands between two calls on the inner writer. What went into the inner
writer and what `write` answered for is kept beside it.

# The law

At every moment what was delivered, followed by what is still in the buffer,
is what was accepted. `flush_buf` leaves by three doors; the one that answers
`WriteZero` does not drain what was written before, so an `Ok(0)` after a
partial write leaves bytes in the buffer that were delivered already. That is
the only way to break the law, and it breaks it at once.
-/
import LinuxRs.Lib.Run
import Mathlib.Data.List.Basic

namespace LinuxRs.User

open LinuxRs.Lib

-- ======== machine

/-- `ErrorKind`, as far as the loop tells kinds apart. -/
inductive ErrorKind
  | interrupted
  | writeZero
  | other (code : Nat)

/-- What the inner writer answers to a `write`. It takes at most what it was
given. -/
inductive Answer
  | ok (n : Nat)
  | err (e : ErrorKind)

inductive Caller
  | write (buf : List (BitVec 8))
  | flush
  | drop

/-- Where the code stands between two calls on the inner writer: in no call,
in the loop of `flush_buf`, at `self.inner.write(buf)`, at
`self.inner.flush()`, or gone. -/
inductive Point
  | idle
  | draining (caller : Caller) (written : Nat)
  | passing (buf : List (BitVec 8))
  | flushing
  | dropped

/-- `BufWriter`, with the bytes its inner writer took, the bytes its `write`
answered for and the answer of the last call. -/
structure BufWriter where
  capacity : Nat
  buffer : List (BitVec 8)
  point : Point
  delivered : List (BitVec 8)
  accepted : List (BitVec 8)
  result : Option (Except ErrorKind Nat)

def BufWriter.withCapacity (capacity : Nat) : BufWriter where
  capacity := capacity
  buffer := []
  point := .idle
  delivered := []
  accepted := []
  result := none

namespace BufWriter

/-- The end of `write`, once there was room or the buffer was flushed. -/
def finishWrite (s : BufWriter) (buf : List (BitVec 8)) : BufWriter :=
  if s.capacity ≤ buf.length then { s with point := .passing buf }
  else { s with
    buffer := s.buffer ++ buf
    accepted := s.accepted ++ buf
    point := .idle
    result := some (.ok buf.length) }

/-- What follows a `flush_buf` that succeeds. -/
def afterFlush (s : BufWriter) : Caller → BufWriter
  | .write buf => s.finishWrite buf
  | .flush => { s with point := .flushing }
  | .drop => { s with point := .dropped }

/-- What follows a `flush_buf` that fails; `drop` ignores it. -/
def afterError (s : BufWriter) (e : ErrorKind) : Caller → BufWriter
  | .drop => { s with point := .dropped }
  | _ => { s with point := .idle, result := some (.error e) }

def loopHead (s : BufWriter) (caller : Caller) (written : Nat) : BufWriter :=
  if written < s.buffer.length then { s with point := .draining caller written }
  else { s with buffer := [] }.afterFlush caller

def taken (n : Nat) (given : List (BitVec 8)) : List (BitVec 8) := given.take n

def loopBody (s : BufWriter) (caller : Caller) (written : Nat) :
    Answer → BufWriter
  | .ok 0 => s.afterError .writeZero caller
  | .ok n =>
    let out := taken n (s.buffer.drop written)
    { s with delivered := s.delivered ++ out }.loopHead caller
      (written + out.length)
  | .err .interrupted => s.loopHead caller written
  | .err e => { s with buffer := s.buffer.drop written }.afterError e caller

/-- The answer to `self.inner.write(buf)`, passed on. -/
def passOn (s : BufWriter) (buf : List (BitVec 8)) : Answer → BufWriter
  | .ok n => { s with
      delivered := s.delivered ++ taken n buf
      accepted := s.accepted ++ taken n buf
      point := .idle
      result := some (.ok (taken n buf).length) }
  | .err e => { s with point := .idle, result := some (.error e) }

end BufWriter

/-- A call on the `BufWriter` or an answer of the inner writer. -/
inductive WriterEvent
  | write (buf : List (BitVec 8))
  | flush
  | drop
  | inner (answer : Answer)
  | innerFlush (answer : Except ErrorKind Unit)

open BufWriter in
/-- One step; an event that cannot happen at this point is not enabled. -/
def writerStep (s : BufWriter) (event : WriterEvent) : Option BufWriter :=
  match s.point, event with
  | .idle, .write buf =>
    if s.capacity < s.buffer.length + buf.length then
      some (s.loopHead (.write buf) 0)
    else some (s.finishWrite buf)
  | .idle, .flush => some (s.loopHead .flush 0)
  | .idle, .drop => some (s.loopHead .drop 0)
  | .draining caller written, .inner answer =>
    some (s.loopBody caller written answer)
  | .passing buf, .inner answer => some (s.passOn buf answer)
  | .flushing, .innerFlush (.ok ()) =>
    some { s with point := .idle, result := some (.ok 0) }
  | .flushing, .innerFlush (.error e) =>
    some { s with point := .idle, result := some (.error e) }
  | _, _ => none

-- ======== law

def BufWriter.stillBuffered (s : BufWriter) : List (BitVec 8) :=
  match s.point with
  | .draining _ written => s.buffer.drop written
  | _ => s.buffer

/-- What was delivered is a prefix of what was accepted, and the buffer holds
the rest. -/
def StreamLaw (s : BufWriter) : Prop :=
  s.delivered <+: s.accepted ∧ s.delivered ++ s.stillBuffered = s.accepted

/-- The loop of `flush_buf` is not answered `Ok(0)` after a partial write. -/
def NoLateZero (s : BufWriter) (event : WriterEvent) : Prop :=
  match s.point, event with
  | .draining _ written, .inner (.ok 0) => written = 0
  | _, _ => True

/-- What carries the law from step to step: the loop has something left to
write, and nothing is buffered when a buffer is passed on. -/
structure InStep (s : BufWriter) : Prop where
  stream : s.delivered ++ s.stillBuffered = s.accepted
  draining : ∀ caller written, s.point = .draining caller written →
    written < s.buffer.length
  passing : ∀ buf, s.point = .passing buf → s.buffer = []

theorem InStep.law {s : BufWriter} (h : InStep s) : StreamLaw s :=
  ⟨⟨_, h.stream⟩, h.stream⟩

theorem InStep.of_rest {s : BufWriter} (hstream : s.delivered ++ s.buffer = s.accepted)
    (hdraining : ∀ caller written, s.point ≠ .draining caller written)
    (hpassing : ∀ buf, s.point = .passing buf → s.buffer = []) : InStep s where
  stream := by
    unfold BufWriter.stillBuffered
    split
    next caller written hpoint => exact absurd hpoint (hdraining caller written)
    next => exact hstream
  draining := fun caller written hpoint => absurd hpoint (hdraining caller written)
  passing := hpassing

theorem InStep.finishWrite {s : BufWriter} {buf : List (BitVec 8)}
    (hstream : s.delivered ++ s.buffer = s.accepted)
    (hempty : s.capacity ≤ buf.length → s.buffer = []) :
    InStep (s.finishWrite buf) := by
  unfold BufWriter.finishWrite
  split
  next hbig =>
    exact .of_rest hstream nofun fun _ _ => hempty hbig
  next =>
    refine .of_rest ?_ nofun nofun
    rw [← List.append_assoc, hstream]

theorem InStep.afterFlush {s : BufWriter} (hempty : s.buffer = [])
    (hstream : s.delivered = s.accepted) (caller : Caller) :
    InStep (s.afterFlush caller) := by
  have hwhole : s.delivered ++ s.buffer = s.accepted := by
    rw [hempty, List.append_nil, hstream]
  cases caller with
  | write buf => exact .finishWrite hwhole fun _ => hempty
  | flush => exact .of_rest hwhole nofun nofun
  | drop => exact .of_rest hwhole nofun nofun

theorem InStep.afterError {s : BufWriter}
    (hstream : s.delivered ++ s.buffer = s.accepted) (e : ErrorKind)
    (caller : Caller) : InStep (s.afterError e caller) := by
  cases caller with
  | write buf => exact .of_rest hstream nofun nofun
  | flush => exact .of_rest hstream nofun nofun
  | drop => exact .of_rest hstream nofun nofun

theorem InStep.loopHead {s : BufWriter} {written : Nat}
    (hstream : s.delivered ++ s.buffer.drop written = s.accepted)
    (caller : Caller) : InStep (s.loopHead caller written) := by
  unfold BufWriter.loopHead
  split
  next hlt =>
    refine ⟨hstream, fun _ _ h => ?_, nofun⟩
    cases h
    exact hlt
  next hge =>
    refine .afterFlush rfl ?_ caller
    rw [List.drop_of_length_le (by omega), List.append_nil] at hstream
    exact hstream

/-- A turn of the drain loop writes the front of what is buffered. -/
theorem InStep.loopBody {s : BufWriter} (h : InStep s) {caller : Caller}
    {written : Nat} (hpoint : s.point = .draining caller written) {answer : Answer}
    (hguard : NoLateZero s (.inner answer)) :
    InStep (s.loopBody caller written answer) := by
  have hstream : s.delivered ++ s.buffer.drop written = s.accepted := by
    have := h.stream
    unfold BufWriter.stillBuffered at this
    rw [hpoint] at this
    exact this
  unfold NoLateZero at hguard
  rw [hpoint] at hguard
  match answer with
  | .ok 0 =>
    have hzero : written = 0 := hguard
    subst hzero
    exact .afterError hstream _ _
  | .ok (n + 1) =>
    refine .loopHead ?_ caller
    show s.delivered ++ (s.buffer.drop written).take (n + 1) ++ s.buffer.drop
      (written + ((s.buffer.drop written).take (n + 1)).length) = s.accepted
    rw [← List.drop_drop, List.append_assoc, ← hstream, List.length_take]
    congr 1
    rcases Nat.le_total (n + 1) (s.buffer.drop written).length with hle | hge
    · rw [Nat.min_eq_left hle, List.take_append_drop]
    · rw [Nat.min_eq_right hge, List.take_of_length_le hge,
        List.drop_of_length_le (Nat.le_refl _), List.append_nil]
  | .err .interrupted => exact .loopHead hstream caller
  | .err .writeZero => exact .afterError hstream _ _
  | .err (.other code) => exact .afterError hstream _ _

theorem InStep.passOn {s : BufWriter} (h : InStep s) {buf : List (BitVec 8)}
    (hpoint : s.point = .passing buf) (answer : Answer) :
    InStep (s.passOn buf answer) := by
  have hempty := h.passing buf hpoint
  have hstream : s.delivered = s.accepted := by
    have := h.stream
    unfold BufWriter.stillBuffered at this
    rw [hpoint] at this
    rw [← this, hempty, List.append_nil]
  cases answer with
  | ok n =>
    refine .of_rest ?_ nofun nofun
    show s.delivered ++ _ ++ s.buffer = s.accepted ++ _
    rw [hempty, List.append_nil, hstream]
  | err e =>
    refine .of_rest ?_ nofun nofun
    show s.delivered ++ s.buffer = s.accepted
    rw [hempty, List.append_nil, hstream]

theorem InStep.rest {s : BufWriter} (h : InStep s)
    (hpoint : ∀ caller written, s.point ≠ .draining caller written) :
    s.delivered ++ s.buffer = s.accepted := by
  have := h.stream
  unfold BufWriter.stillBuffered at this
  split at this
  next caller written heq => exact absurd heq (hpoint caller written)
  next => exact this

/-- Every answer of the inner writer keeps what was accepted in order. -/
theorem InStep.step {s s' : BufWriter} {event : WriterEvent} (h : InStep s)
    (hguard : NoLateZero s event) (hstep : writerStep s event = some s') :
    InStep s' := by
  unfold writerStep at hstep
  split at hstep
  next buf hpoint =>
    have hrest := h.rest fun _ _ heq => by rw [hpoint] at heq; cases heq
    split at hstep
    next => exact Option.some.inj hstep ▸ .loopHead hrest _
    next hroom =>
      refine Option.some.inj hstep ▸ .finishWrite hrest fun hbig => ?_
      exact List.length_eq_zero_iff.mp (by omega)
  next hpoint =>
    have hrest := h.rest fun _ _ heq => by rw [hpoint] at heq; cases heq
    exact Option.some.inj hstep ▸ .loopHead hrest _
  next hpoint =>
    have hrest := h.rest fun _ _ heq => by rw [hpoint] at heq; cases heq
    exact Option.some.inj hstep ▸ .loopHead hrest _
  next caller written answer hpoint =>
    exact Option.some.inj hstep ▸ h.loopBody hpoint hguard
  next buf answer hpoint => exact Option.some.inj hstep ▸ h.passOn hpoint answer
  next hpoint =>
    have hrest := h.rest fun _ _ heq => by rw [hpoint] at heq; cases heq
    exact Option.some.inj hstep ▸ .of_rest hrest nofun nofun
  next e hpoint =>
    have hrest := h.rest fun _ _ heq => by rw [hpoint] at heq; cases heq
    exact Option.some.inj hstep ▸ .of_rest hrest nofun nofun
  next => cases hstep

theorem InStep.late_zero {s s' : BufWriter} {event : WriterEvent} (h : InStep s)
    (hguard : ¬ NoLateZero s event) (hstep : writerStep s event = some s') :
    ¬ StreamLaw s' := by
  unfold NoLateZero at hguard
  split at hguard
  next caller written hpoint =>
    have hstream := h.stream
    have hlt := h.draining caller written hpoint
    unfold BufWriter.stillBuffered at hstream
    rw [hpoint] at hstream
    unfold writerStep at hstep
    rw [hpoint] at hstep
    cases hstep
    intro hlaw
    have hkept : s.delivered ++ s.buffer = s.accepted := by
      cases caller <;> exact hlaw.2
    have hlen := congrArg List.length (hkept.trans hstream.symm)
    rw [List.length_append, List.length_append, List.length_drop] at hlen
    omega
  next => exact absurd trivial hguard

/-- Over any calls and any answers of the inner writer, the stream law holds
at every moment exactly when `flush_buf` is never answered `Ok(0)` after a
partial write of the same buffer. -/
theorem buf_writer_stream_iff (capacity : Nat) (events : List WriterEvent) :
    (∀ t ∈ visited writerStep (.withCapacity capacity) events, StreamLaw t) ↔
      Guarded writerStep NoLateZero (.withCapacity capacity) events :=
  visited_iff_guarded (I := InStep) (fun _ h => h.law)
    (fun _ _ _ h hguard hstep => h.step hguard hstep)
    (fun _ _ _ h hguard hstep => h.late_zero hguard hstep)
    (.of_rest rfl nofun nofun)

/-- Three bytes are buffered and flushed; the inner writer takes one, then
none, and on the retry all three: the first byte is delivered twice. -/
theorem buf_writer_duplicates : (run writerStep (.withCapacity 4)
      [.write [1#8, 2#8, 3#8], .flush, .inner (.ok 1), .inner (.ok 0), .flush,
        .inner (.ok 3)]).map (fun t => (t.delivered, t.accepted))
      = some ([1#8, 1#8, 2#8, 3#8], [1#8, 2#8, 3#8]) ∧
    ¬ ∀ t ∈ visited writerStep (.withCapacity 4)
      [.write [1#8, 2#8, 3#8], .flush, .inner (.ok 1), .inner (.ok 0), .flush,
        .inner (.ok 3)], StreamLaw t := by
  refine ⟨rfl, fun hall => ?_⟩
  have hlaw := hall _ (mem_visited_of_run rfl)
  exact absurd hlaw.1 (by decide)

end LinuxRs.User
