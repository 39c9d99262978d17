/-
Pipes (kernel/src/fs/file/pipe.rs): one page as a ring buffer, a head
and a tail index, and a wait queue shared by readers and writers.

# The system

`read` and `write` are loops of chunk copies. A chunk is copied inside
`KernelCell::exclusive`, between kernel buffers, so it is one step; so
is what a turn of the loop does when there is nothing to copy: wake the
queue and return or go to sleep. The steps of different tasks may come
in any order, which includes every schedule the kernel has. Both ends
share the code of `read` and `write`, and a call does not look at
`is_write`, so any task may make either call.

`handed` and `accepted` record the bytes of the chunk copies in the
order they are made.

# The invariant

One equation, `accepted = handed ++ content`: a write chunk appends the
same bytes on both sides, a read chunk moves bytes from the content to
`handed` and sleeping touches neither. The indices stay inside the page,
so every copy does.
-/
import LinuxRs.Lib.Run
import LinuxRs.Lib.Ring
import LinuxRs.Sync.WaitQueue

namespace LinuxRs.Fs

open LinuxRs.Lib LinuxRs.Sync
open Function (update)

universe u

variable {T : Type u}

-- ======== the ring state

def pipeBufSize : Nat := 4096
def wrapMask : Nat := pipeBufSize - 1

/-- `PipeState`; `buffer` is the page behind `buffer_ptr`. -/
structure PipeState where
  buffer : Nat → UInt8
  head : Nat
  tail : Nat
  readers : BitVec 32
  writers : BitVec 32

/-- `PipeState::size`, with the wrapping subtraction of `usize`. -/
def PipeState.size (s : PipeState) : Nat :=
  (s.head + 2 ^ 32 - s.tail) % 2 ^ 32 &&& wrapMask

def PipeState.space (s : PipeState) : Nat :=
  pipeBufSize - 1 - s.size

/-- The critical section of `read`: a chunk of at most `room` bytes, or
whether the writers are gone. -/
def PipeState.readChunk (s : PipeState) (room : Nat) :
    List UInt8 × Bool × PipeState :=
  if s.size = 0 then ([], s.writers = 0#32, s)
  else
    let chars := min (min (pipeBufSize - s.tail) room) s.size
    let chunk := Ring.copyOut s.buffer s.tail chars
    (chunk, false, { s with tail := (s.tail + chars) &&& wrapMask })

/-- The critical section of `write`: how much of `rest` was taken, or
whether the readers are gone. -/
def PipeState.writeChunk (s : PipeState) (rest : List UInt8) :
    List UInt8 × Bool × PipeState :=
  if s.space = 0 then ([], s.readers = 0#32, s)
  else
    let chars := min (min (pipeBufSize - s.head) rest.length) s.space
    let chunk := rest.take chars
    (chunk, false, { s with
      buffer := Ring.copyIn s.buffer s.head chunk
      head := (s.head + chars) &&& wrapMask })

-- ======== the system

/-- A call in progress: what is read so far, or what was to be written
and how much of it is. -/
inductive PipeCall
  | read (count : Nat) (output : List UInt8)
  | write (input : List UInt8) (total : Nat)
  deriving DecidableEq

/-- Where a task stands: outside the pipe's code, at the head of a loop,
or in the `schedule()` of a sleep inside it. -/
inductive PipeFrame (T : Type u)
  | outside
  | looping (call : PipeCall)
  | asleep (call : PipeCall) (handoffSlot : Option T)
  deriving DecidableEq

inductive PipeResult
  | read (output : List UInt8)
  | written (total : Nat)
  | epipe

/-- One pipe and the tasks around it; `signalled` are the tasks that
`SIGPIPE` was raised for. -/
structure PipeSys (T : Type u) where
  pipe : PipeState
  wait : WaitQueue T
  state : T → TaskState
  frame : T → PipeFrame T
  signalled : List T
  results : List (T × PipeResult)
  handed : List UInt8
  accepted : List UInt8

/-- `PipeFile::create_pair`, on a page of any content and among tasks in
any states. -/
def PipeSys.createPair (buffer : Nat → UInt8) (state : T → TaskState) :
    PipeSys T where
  pipe := { buffer := buffer, head := 0, tail := 0, readers := 1#32,
            writers := 1#32 }
  wait := WaitQueue.new
  state := state
  frame := fun _ => .outside
  signalled := []
  results := []
  handed := []
  accepted := []

section
variable [DecidableEq T]

def PipeSys.wake (s : PipeSys T) : PipeSys T :=
  let (q, state) := s.wait.wake s.state
  { s with wait := q, state := state }

/-- `self.shared.wait.sleep()` from inside `call`. -/
def PipeSys.sleep (s : PipeSys T) (me : T) (call : PipeCall) : PipeSys T :=
  let (q, handoffSlot, state) := s.wait.sleepBegin s.state me
  { s with
    wait := q
    state := state
    frame := update s.frame me (.asleep call handoffSlot) }

def PipeSys.finish (s : PipeSys T) (me : T) (result : PipeResult) :
    PipeSys T :=
  { s with
    results := (me, result) :: s.results
    frame := update s.frame me .outside }

/-- One turn of the loop of `read`, and the code behind it. -/
def PipeSys.readTurn (s : PipeSys T) (me : T) (count : Nat)
    (output : List UInt8) : PipeSys T :=
  if output.length < count then
    let (chunk, noWriters, pipe) := s.pipe.readChunk (count - output.length)
    if 0 < chunk.length then
      { s with
        pipe := pipe
        handed := s.handed ++ chunk
        frame := update s.frame me (.looping (.read count (output ++ chunk))) }
    else if noWriters then s.wake.finish me (.read output)
    else s.wake.sleep me (.read count output)
  else s.wake.finish me (.read output)

/-- One turn of the loop of `write`, and the code behind it. -/
def PipeSys.writeTurn (s : PipeSys T) (me : T) (input : List UInt8)
    (total : Nat) : PipeSys T :=
  if total < input.length then
    let (chunk, noReaders, pipe) := s.pipe.writeChunk (input.drop total)
    if 0 < chunk.length then
      { s with
        pipe := pipe
        accepted := s.accepted ++ chunk
        frame := update s.frame me
          (.looping (.write input (total + chunk.length))) }
    else if noReaders then
      let s := { s.wake with signalled := me :: s.signalled }
      s.finish me (if 0 < total then .written total else .epipe)
    else s.wake.sleep me (.write input total)
  else s.wake.finish me (.written total)

def PipeSys.turn (s : PipeSys T) (me : T) : PipeCall → PipeSys T
  | .read count output => s.readTurn me count output
  | .write input total => s.writeTurn me input total

def PipeSys.dropEnd (s : PipeSys T) (isWrite : Bool) : PipeSys T :=
  let pipe :=
    if isWrite then { s.pipe with writers := s.pipe.writers - 1#32 }
    else { s.pipe with readers := s.pipe.readers - 1#32 }
  { s with pipe := pipe }.wake

/-- A call starts, takes a turn or is woken; an end is closed. -/
inductive PipeAct (T : Type u)
  | read (t : T) (count : Nat)
  | write (t : T) (input : List UInt8)
  | turn (t : T)
  | resume (t : T)
  | dropEnd (isWrite : Bool)
  | elsewhere (t : T) (st : TaskState)

/-- One step of the system. As for every wait queue, code elsewhere may
change the state of a task outside the pipe, and may wake a task. -/
def PipeSys.step (s : PipeSys T) : PipeAct T → Option (PipeSys T)
  | .read t count =>
    if s.frame t = .outside then
      some { s with
        frame := update s.frame t (.looping (.read count [])) }
    else none
  | .write t input =>
    if s.frame t = .outside then
      some { s with
        frame := update s.frame t (.looping (.write input 0)) }
    else none
  | .turn t =>
    match s.frame t with
    | .looping call => some (s.turn t call)
    | _ => none
  | .resume t =>
    match s.frame t with
    | .asleep call handoffSlot =>
      if s.state t = .running then
        some { s with
          state := wakeHandoff s.state handoffSlot
          frame := update s.frame t (.looping call) }
      else none
    | _ => none
  | .dropEnd isWrite => some (s.dropEnd isWrite)
  | .elsewhere t st =>
    if s.frame t = .outside ∨ st = .running then
      some { s with state := update s.state t st }
    else none

end

-- ======== the content

def PipeState.content (s : PipeState) : List UInt8 :=
  Ring.content pipeBufSize s.buffer s.tail s.size

/-- Both ends are in the page. -/
structure PipeState.InPage (s : PipeState) : Prop where
  head : s.head < pipeBufSize
  tail : s.tail < pipeBufSize

theorem and_wrapMask (n : Nat) : n &&& wrapMask = n % pipeBufSize :=
  Nat.and_two_pow_sub_one_eq_mod n 12

theorem PipeState.InPage.size_eq {s : PipeState} (h : s.InPage) :
    s.size = (s.head + pipeBufSize - s.tail) % pipeBufSize := by
  have hh := h.head
  have ht := h.tail
  unfold PipeState.size
  rw [and_wrapMask]
  simp only [pipeBufSize] at *
  omega

theorem PipeState.size_lt (s : PipeState) : s.size < pipeBufSize := by
  unfold PipeState.size
  rw [and_wrapMask]
  exact Nat.mod_lt _ (by decide)

theorem PipeState.size_add_space (s : PipeState) :
    s.size + s.space = pipeBufSize - 1 := by
  have := s.size_lt
  unfold PipeState.space
  omega

theorem PipeState.InPage.head_eq {s : PipeState} (h : s.InPage) :
    s.head = (s.tail + s.size) % pipeBufSize := by
  have hh := h.head
  have ht := h.tail
  rw [h.size_eq]
  simp only [pipeBufSize] at *
  omega

theorem PipeState.InPage.advance_tail {s : PipeState} (h : s.InPage)
    {k : Nat} (hk : k ≤ s.size) (hwrap : s.tail + k ≤ pipeBufSize) :
    ({ s with tail := (s.tail + k) &&& wrapMask }).InPage ∧
      s.content = Ring.copyOut s.buffer s.tail k ++
        ({ s with tail := (s.tail + k) &&& wrapMask }).content := by
  have hin : ({ s with tail := (s.tail + k) &&& wrapMask }).InPage :=
    ⟨h.head, by rw [and_wrapMask]; exact Nat.mod_lt _ (by decide)⟩
  have hsize : ({ s with tail := (s.tail + k) &&& wrapMask }).size
      = s.size - k := by
    have hh := h.head
    rw [hin.size_eq]
    rw [h.size_eq] at hk ⊢
    simp only [and_wrapMask, pipeBufSize] at *
    omega
  refine ⟨hin, ?_⟩
  unfold PipeState.content
  rw [hsize, and_wrapMask]
  exact Ring.content_eq_copyOut hk hwrap

/-- Bytes are copied in behind what the pipe holds. -/
theorem PipeState.InPage.extend_head {s : PipeState} (h : s.InPage)
    {xs : List UInt8} (hspace : xs.length ≤ s.space)
    (hwrap : s.head + xs.length ≤ pipeBufSize) : ({ s with
      buffer := Ring.copyIn s.buffer s.head xs
      head := (s.head + xs.length) &&& wrapMask }).InPage ∧
      ({ s with
        buffer := Ring.copyIn s.buffer s.head xs
        head := (s.head + xs.length) &&& wrapMask }).content
        = s.content ++ xs := by
  have hall := s.size_add_space
  have hhead := h.head_eq
  have hin : ({ s with
      buffer := Ring.copyIn s.buffer s.head xs
      head := (s.head + xs.length) &&& wrapMask }).InPage :=
    ⟨by rw [and_wrapMask]; exact Nat.mod_lt _ (by decide), h.tail⟩
  have hsize : ({ s with
      buffer := Ring.copyIn s.buffer s.head xs
      head := (s.head + xs.length) &&& wrapMask }).size
      = s.size + xs.length := by
    have ht := h.tail
    rw [hin.size_eq]
    rw [h.size_eq] at hall ⊢
    simp only [and_wrapMask, pipeBufSize] at *
    omega
  have happend : Ring.content pipeBufSize
      (Ring.copyIn s.buffer ((s.tail + s.size) % pipeBufSize) xs) s.tail
        (s.size + xs.length)
      = s.content ++ xs :=
    Ring.content_copyIn (by omega) (by omega)
  refine ⟨hin, ?_⟩
  rw [← hhead] at happend
  rw [PipeState.content, hsize]
  exact happend

theorem PipeState.readChunk_spec {s : PipeState} (h : s.InPage) (room : Nat) :
    (s.readChunk room).2.2.InPage ∧
      s.content = (s.readChunk room).1 ++ (s.readChunk room).2.2.content := by
  have ht := h.tail
  by_cases hsize : s.size = 0
  · have heq : s.readChunk room = ([], decide (s.writers = 0#32), s) :=
      if_pos hsize
    rw [heq]
    exact ⟨h, (List.nil_append _).symm⟩
  · have hk : min (min (pipeBufSize - s.tail) room) s.size ≤ s.size :=
      Nat.min_le_right _ _
    have hwrap : s.tail + min (min (pipeBufSize - s.tail) room) s.size
        ≤ pipeBufSize := by omega
    simp only [PipeState.readChunk, if_neg hsize]
    exact h.advance_tail hk hwrap

theorem PipeState.writeChunk_spec {s : PipeState} (h : s.InPage)
    (rest : List UInt8) : (s.writeChunk rest).2.2.InPage ∧
      (s.writeChunk rest).2.2.content = s.content ++ (s.writeChunk rest).1 := by
  have hh := h.head
  by_cases hspace : s.space = 0
  · have heq : s.writeChunk rest = ([], decide (s.readers = 0#32), s) :=
      if_pos hspace
    rw [heq]
    exact ⟨h, (List.append_nil _).symm⟩
  · have hlen : (rest.take (min (min (pipeBufSize - s.head) rest.length)
        s.space)).length
        = min (min (pipeBufSize - s.head) rest.length) s.space := by
      rw [List.length_take]
      omega
    have hext := h.extend_head (show (rest.take (min (min (pipeBufSize - s.head)
      rest.length) s.space)).length ≤ s.space by omega) (by omega)
    rw [hlen] at hext
    simp only [PipeState.writeChunk, if_neg hspace]
    exact hext

-- ======== the invariant

/-- What was accepted is what was handed out and what is in the ring. -/
structure PipeSys.Inv (s : PipeSys T) : Prop where
  inPage : s.pipe.InPage
  fifo : s.accepted = s.handed ++ s.pipe.content

theorem PipeSys.Inv.congr {s s' : PipeSys T} (h : s.Inv)
    (hpipe : s'.pipe = s.pipe) (hh : s'.handed = s.handed)
    (ha : s'.accepted = s.accepted) : s'.Inv :=
  ⟨hpipe ▸ h.inPage, by rw [ha, hh, hpipe]; exact h.fifo⟩

section
variable [DecidableEq T]

theorem PipeSys.Inv.readTurn {s : PipeSys T} (h : s.Inv) (me : T)
    (count : Nat) (output : List UInt8) : (s.readTurn me count output).Inv := by
  obtain ⟨hin, hcontent⟩ := PipeState.readChunk_spec h.inPage
    (count - output.length)
  unfold PipeSys.readTurn
  generalize s.pipe.readChunk (count - output.length) = res at hin hcontent ⊢
  obtain ⟨chunk, noWriters, pipe⟩ := res
  dsimp only at hin hcontent ⊢
  split_ifs
  · refine ⟨hin, ?_⟩
    calc s.accepted = s.handed ++ s.pipe.content := h.fifo
      _ = s.handed ++ (chunk ++ pipe.content) := by rw [hcontent]
      _ = s.handed ++ chunk ++ pipe.content := (List.append_assoc ..).symm
  · exact h.congr rfl rfl rfl
  · exact h.congr rfl rfl rfl
  · exact h.congr rfl rfl rfl

theorem PipeSys.Inv.writeTurn {s : PipeSys T} (h : s.Inv) (me : T)
    (input : List UInt8) (total : Nat) : (s.writeTurn me input total).Inv := by
  obtain ⟨hin, hcontent⟩ := PipeState.writeChunk_spec h.inPage
    (input.drop total)
  unfold PipeSys.writeTurn
  generalize s.pipe.writeChunk (input.drop total) = res at hin hcontent ⊢
  obtain ⟨chunk, noReaders, pipe⟩ := res
  dsimp only at hin hcontent ⊢
  split_ifs
  · refine ⟨hin, ?_⟩
    calc s.accepted ++ chunk = s.handed ++ s.pipe.content ++ chunk := by
          rw [h.fifo]
      _ = s.handed ++ (s.pipe.content ++ chunk) := List.append_assoc ..
      _ = s.handed ++ pipe.content := by rw [hcontent]
  all_goals exact h.congr rfl rfl rfl

theorem PipeSys.Inv.dropEnd {s : PipeSys T} (h : s.Inv) (isWrite : Bool) :
    (s.dropEnd isWrite).Inv := by
  cases isWrite with
  | true => exact ⟨⟨h.inPage.head, h.inPage.tail⟩, h.fifo⟩
  | false => exact ⟨⟨h.inPage.head, h.inPage.tail⟩, h.fifo⟩

/-- Every turn keeps the stream: what is read is what was written, in
order. -/
theorem PipeSys.Inv.step {s s' : PipeSys T} (h : s.Inv) {a : PipeAct T}
    (hstep : s.step a = some s') : s'.Inv := by
  cases a with
  | read t count =>
    simp only [PipeSys.step, Option.ite_none_right_eq_some,
      Option.some.injEq] at hstep
    obtain ⟨-, rfl⟩ := hstep
    exact h.congr rfl rfl rfl
  | write t input =>
    simp only [PipeSys.step, Option.ite_none_right_eq_some,
      Option.some.injEq] at hstep
    obtain ⟨-, rfl⟩ := hstep
    exact h.congr rfl rfl rfl
  | turn t =>
    simp only [PipeSys.step] at hstep
    split at hstep
    next call hcall =>
      injection hstep with hstep
      subst hstep
      cases call with
      | read count output => exact h.readTurn t count output
      | write input total => exact h.writeTurn t input total
    next => cases hstep
  | resume t =>
    simp only [PipeSys.step] at hstep
    split at hstep
    next call handoffSlot hcall =>
      simp only [Option.ite_none_right_eq_some, Option.some.injEq] at hstep
      obtain ⟨-, rfl⟩ := hstep
      exact h.congr rfl rfl rfl
    next => cases hstep
  | dropEnd isWrite =>
    injection hstep with hstep
    subst hstep
    exact h.dropEnd isWrite
  | elsewhere t st =>
    simp only [PipeSys.step, Option.ite_none_right_eq_some,
      Option.some.injEq] at hstep
    obtain ⟨-, rfl⟩ := hstep
    exact h.congr rfl rfl rfl

omit [DecidableEq T] in
theorem PipeSys.Inv.createPair (buffer : Nat → UInt8) (state : T → TaskState) :
    (PipeSys.createPair buffer state).Inv := by
  have hpos : 0 < pipeBufSize := by decide
  have hsize : (PipeSys.createPair buffer state).pipe.size = 0 := by
    simp [PipeState.size, PipeSys.createPair]
  refine ⟨⟨hpos, hpos⟩, ?_⟩
  unfold PipeState.content
  rw [hsize]
  rfl

-- ======== the result

/-- Whatever the tasks do and in whichever order, the bytes handed to
readers are a prefix of the bytes accepted from writers, the ring holds
the rest, and used and free bytes add up to the page but one. -/
theorem pipe_fifo {buffer : Nat → UInt8} {state : T → TaskState}
    {s : PipeSys T}
    (h : Reachable PipeSys.step (PipeSys.createPair buffer state) s) :
    s.handed <+: s.accepted ∧ s.accepted = s.handed ++ s.pipe.content ∧
      s.pipe.content.length = s.pipe.size ∧
      s.pipe.size + s.pipe.space = 4095 := by
  have hinv : s.Inv :=
    h.invariant (PipeSys.Inv.createPair buffer state)
      fun _ _ _ hs hstep => hs.step hstep
  refine ⟨⟨_, hinv.fifo.symm⟩, hinv.fifo, Ring.length_content .., ?_⟩
  exact s.pipe.size_add_space

/-- A writer and two readers on one pipe; the second reader sleeps. -/
def twoReaders : List (PipeAct (Fin 3)) :=
  [.read 2 1, .turn 2, .write 0 [7, 8, 9], .turn 0, .read 1 2, .turn 1,
    .turn 1, .resume 2, .turn 2]

/-- The sleeper is woken by the first reader's return and gets the byte
that is left. -/
theorem pipe_fifo_two_readers :
    ∃ s, run PipeSys.step (PipeSys.createPair (fun _ => 0) fun _ => .running)
        twoReaders = some s ∧
      s.handed = [7, 8, 9] ∧ s.handed <+: s.accepted := by
  have hsome : ((run PipeSys.step (PipeSys.createPair (fun _ => 0)
      fun _ => .running) twoReaders).map (·.handed)) = some [7, 8, 9] := by
    decide
  obtain ⟨s, hs, hhanded⟩ := Option.map_eq_some_iff.mp hsome
  exact ⟨s, hs, hhanded, (pipe_fifo (.of_run .refl hs)).1⟩

end

end LinuxRs.Fs
