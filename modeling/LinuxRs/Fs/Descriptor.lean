/-
File descriptors and the close-on-exec mask
(kernel/src/syscall/handler/fs/fd.rs, kernel/src/task/task_struct.rs,
the closing of descriptors in kernel/src/syscall/handler/process/exec.rs).

# Two records

The descriptor table and the mask `close_on_exec` are separate fields. A
bit is set by `fcntl` on an open descriptor, and cleared by `fcntl`, by
`exec` and for the descriptor that `F_DUPFD` installs. `close`, `dup2` and
the other installers leave the mask alone.

# The history

`asked` remembers the descriptors for which `fcntl` has set the flag since
they were installed. No step reads it; the law is that a set bit of an
open descriptor was asked for (`Lawful`). It holds along a run exactly
when every descriptor is installed in a slot whose bit is clear, because
an install over a stale bit breaks it at once.
-/
import LinuxRs.Lib.Run
import Mathlib.Logic.Function.Basic
import Mathlib.Data.List.FinRange

namespace LinuxRs.Fs

open LinuxRs.Lib

-- ======== the tables

def taskOpenFilesLimit : Nat := 20

abbrev Fd := Fin taskOpenFilesLimit

abbrev FileRef := Nat

/-- The part of `TaskFileSystemContext` that concerns descriptors. -/
structure FdContext where
  openFiles : Fd → Option FileRef
  closeOnExec : BitVec 32

/-- `Errno`, as far as the calls on descriptors use it. -/
inductive FdErrno
  | badf
  | mfile
  | inval

/-- `FcntlCmd`; the raw command is decoded by `FcntlCmd.ofRaw`. -/
inductive FcntlCmd
  | dupFd
  | getFd
  | setFd
  | getFlags
  | setFlags
  deriving DecidableEq

def FcntlCmd.ofRaw (cmd : BitVec 32) : Option FcntlCmd :=
  if cmd = 0#32 then some .dupFd
  else if cmd = 1#32 then some .getFd
  else if cmd = 2#32 then some .setFd
  else if cmd = 3#32 then some .getFlags
  else if cmd = 4#32 then some .setFlags
  else none

namespace FdContext

def bit (c : FdContext) (fd : Fd) : Bool := c.closeOnExec.getLsbD fd.val

def setBit (c : FdContext) (fd : Fd) : FdContext :=
  { c with closeOnExec := c.closeOnExec ||| 1#32 <<< fd.val }

def clearBit (c : FdContext) (fd : Fd) : FdContext :=
  { c with closeOnExec := c.closeOnExec &&& ~~~(1#32 <<< fd.val) }

def install (c : FdContext) (fd : Fd) (file : Option FileRef) : FdContext :=
  { c with openFiles := Function.update c.openFiles fd file }

/-- `open_files.get(fd)`: the descriptor, when it is in range. -/
def inRange (fd : BitVec 32) : Option Fd :=
  if h : fd.toNat < taskOpenFilesLimit then some ⟨fd.toNat, h⟩ else none

/-- `lookup_file`, with the descriptor it found the file under. -/
def lookupFile (c : FdContext) (fd : BitVec 32) : Option (Fd × FileRef) :=
  (inRange fd).bind fun fd => (c.openFiles fd).map fun file => (fd, file)

def firstFree (c : FdContext) (low : Nat) : Option Fd :=
  (List.finRange taskOpenFilesLimit).find? fun fd =>
    low ≤ fd.val ∧ (c.openFiles fd).isNone

def addFile (c : FdContext) (file : FileRef) : Option (Fd × FdContext) :=
  (c.firstFree 0).map fun fd => (fd, c.install fd (some file))

-- ======== the calls

/-- The end of `sys_open` (and `sys_creat`), once the file is there; the
descriptors that the call installs come last. -/
def openFile (c : FdContext) (file : FileRef) :
    Except FdErrno Nat × FdContext × List Fd :=
  match c.addFile file with
  | none => (.error .mfile, c, [])
  | some (fd, c) => (.ok fd.val, c, [fd])

def dup (c : FdContext) (fd : BitVec 32) :
    Except FdErrno Nat × FdContext × List Fd :=
  match c.lookupFile fd with
  | none => (.error .badf, c, [])
  | some (_, file) => c.openFile file

def dup2 (c : FdContext) (oldfd newfd : BitVec 32) :
    Except FdErrno Nat × FdContext × List Fd :=
  match c.lookupFile oldfd with
  | none => (.error .badf, c, [])
  | some (_, file) =>
    if oldfd = newfd then (.ok newfd.toNat, c, [])
    else
      match inRange newfd with
      | none => (.error .badf, c, [])
      | some fd => (.ok newfd.toNat, c.install fd (some file), [fd])

/-- `sys_pipe`; the first end is taken back when the second has no room. -/
def pipe (c : FdContext) (reader writer : FileRef) :
    Except FdErrno Nat × FdContext × List Fd :=
  match c.addFile reader with
  | none => (.error .mfile, c, [])
  | some (fd0, c) =>
    match c.addFile writer with
    | none => (.error .mfile, c.install fd0 none, [])
    | some (fd1, c) => (.ok 0, c, [fd0, fd1])

def close (c : FdContext) (fd : BitVec 32) : Except FdErrno Nat × FdContext :=
  match c.lookupFile fd with
  | none => (.error .badf, c)
  | some (fd, _) => (.ok 0, c.install fd none)

/-- `sys_fcntl`; the descriptor that `F_DUPFD` installs comes last. -/
def fcntl (c : FdContext) (fd cmd arg : BitVec 32) :
    Except FdErrno Nat × FdContext × List Fd :=
  match c.lookupFile fd with
  | none => (.error .badf, c, [])
  | some (fd, file) =>
    match FcntlCmd.ofRaw cmd with
    | some .dupFd =>
      match c.firstFree arg.toNat with
      | none => (.error .mfile, c, [])
      | some newFd =>
        (.ok newFd.val, (c.install newFd (some file)).clearBit newFd, [newFd])
    | some .getFd => (.ok (c.bit fd).toNat, c, [])
    | some .setFd =>
      if arg &&& 1#32 ≠ 0#32 then (.ok 0, c.setBit fd, [])
      else (.ok 0, c.clearBit fd, [])
    | some .getFlags => (.ok 0, c, [])
    | some .setFlags => (.ok 0, c, [])
    | none => (.error .inval, c, [])

/-- The descriptors of a task after `sys_execve`. -/
def exec (c : FdContext) : FdContext :=
  ⟨fun fd => if c.bit fd then none else c.openFiles fd, 0#32⟩

end FdContext

-- ======== the steps

/-- The descriptor tables, and which descriptors were asked to close on
exec. -/
structure FdSys where
  tasks : Nat → FdContext
  asked : Nat → Fd → Bool

inductive FdOp
  | openFile (t : Nat) (file : FileRef)
  | dup (t : Nat) (fd : BitVec 32)
  | dup2 (t : Nat) (oldfd newfd : BitVec 32)
  | pipe (t : Nat) (reader writer : FileRef)
  | fcntl (t : Nat) (fd cmd arg : BitVec 32)
  | close (t : Nat) (fd : BitVec 32)
  | fork (t child : Nat)
  | exec (t : Nat)

namespace FdSys

def update (s : FdSys) (t : Nat) (c : FdContext) (installed : List Fd) :
    FdSys where
  tasks := Function.update s.tasks t c
  asked := Function.update s.asked t fun fd =>
    if fd ∈ installed then false else s.asked t fd

/-- Whether a call of `fcntl` sets or clears the flag of a descriptor. -/
def asks (c : FdContext) (fd cmd arg : BitVec 32) : Option (Fd × Bool) :=
  match c.lookupFile fd with
  | none => none
  | some (fd, _) =>
    if FcntlCmd.ofRaw cmd = some .setFd then
      some (fd, decide (arg &&& 1#32 ≠ 0#32))
    else none

def note (s : FdSys) (t : Nat) (asked : Option (Fd × Bool)) : FdSys :=
  match asked with
  | none => s
  | some (fd, b) =>
    { s with
      asked := Function.update s.asked t (Function.update (s.asked t) fd b) }

def step (s : FdSys) : FdOp → Option FdSys
  | .openFile t file =>
    let r := (s.tasks t).openFile file
    some (s.update t r.2.1 r.2.2)
  | .dup t fd =>
    let r := (s.tasks t).dup fd
    some (s.update t r.2.1 r.2.2)
  | .dup2 t oldfd newfd =>
    let r := (s.tasks t).dup2 oldfd newfd
    some (s.update t r.2.1 r.2.2)
  | .pipe t reader writer =>
    let r := (s.tasks t).pipe reader writer
    some (s.update t r.2.1 r.2.2)
  | .fcntl t fd cmd arg =>
    let r := (s.tasks t).fcntl fd cmd arg
    some ((s.update t r.2.1 r.2.2).note t (asks (s.tasks t) fd cmd arg))
  | .close t fd => some (s.update t ((s.tasks t).close fd).2 [])
  | .fork t child =>
    some ⟨Function.update s.tasks child (s.tasks t),
      Function.update s.asked child (s.asked t)⟩
  | .exec t => some (s.update t (s.tasks t).exec [])

end FdSys

-- ======== the law

namespace FdContext

variable {c c' : FdContext} {fd fd' : Fd} {file : FileRef}

@[simp] theorem bit_install (c : FdContext) (fd fd' : Fd)
    (file : Option FileRef) : (c.install fd file).bit fd' = c.bit fd' := rfl

theorem bit_setBit (c : FdContext) (fd fd' : Fd) :
    (c.setBit fd).bit fd' = (decide (fd' = fd) || c.bit fd') := by
  have hlt : fd'.val < 32 := Nat.lt_trans fd'.isLt (by decide)
  unfold setBit bit
  rw [BitVec.getLsbD_or, Bool.or_comm]
  congr 1
  rw [BitVec.getLsbD_shiftLeft, BitVec.getLsbD_one]
  by_cases heq : fd' = fd
  · subst heq
    simp [hlt]
  · have hne : fd'.val ≠ fd.val := fun hv => heq (Fin.ext hv)
    simp only [decide_eq_false heq, hlt, decide_true, Bool.true_and,
      Bool.and_eq_false_iff]
    by_cases hlow : fd'.val < fd.val
    · exact .inl (by simp [hlow])
    · exact .inr (by simp; omega)

theorem bit_clearBit (c : FdContext) (fd fd' : Fd) :
    (c.clearBit fd).bit fd' = (!decide (fd' = fd) && c.bit fd') := by
  have hlt : fd'.val < 32 := Nat.lt_trans fd'.isLt (by decide)
  have hset := bit_setBit ⟨c.openFiles, 0#32⟩ fd fd'
  unfold setBit bit at hset
  simp only [BitVec.zero_or, BitVec.getLsbD_zero, Bool.or_false] at hset
  unfold clearBit bit
  rw [BitVec.getLsbD_and, BitVec.getLsbD_not, hset, Bool.and_comm]
  simp [hlt]

theorem addFile_some (h : c.addFile file = some (fd, c')) :
    c.firstFree 0 = some fd ∧ c' = c.install fd (some file) := by
  obtain ⟨fd', hfree, heq⟩ := Option.map_eq_some_iff.mp h
  cases heq
  exact ⟨hfree, rfl⟩

theorem install_of_ne (hne : fd' ≠ fd) (o : Option FileRef) :
    (c.install fd o).openFiles fd' = c.openFiles fd' :=
  Function.update_of_ne hne ..

theorem install_self (o : Option FileRef) :
    (c.install fd o).openFiles fd = o :=
  Function.update_self ..

end FdContext

namespace FdSys

open FdContext

variable {s : FdSys} {t : Nat} {c : FdContext} {installed : List Fd} {fd : Fd}

/-- A set bit of an open descriptor was asked for since the descriptor was
installed. -/
def Lawful (s : FdSys) : Prop :=
  ∀ t fd, ((s.tasks t).openFiles fd).isSome → (s.tasks t).bit fd → s.asked t fd

/-- The descriptor that the step opens has its close-on-exec bit clear. -/
def Clear (s : FdSys) : FdOp → Prop
  | .openFile t _ => ∀ fd, (s.tasks t).firstFree 0 = some fd →
      (s.tasks t).bit fd = false
  | .dup t fd => (s.tasks t).lookupFile fd ≠ none →
      ∀ fd, (s.tasks t).firstFree 0 = some fd → (s.tasks t).bit fd = false
  | .dup2 t oldfd newfd => (s.tasks t).lookupFile oldfd ≠ none →
      oldfd ≠ newfd → ∀ fd, inRange newfd = some fd →
        (s.tasks t).bit fd = false
  | .pipe t reader _ => ∀ fd0, (s.tasks t).firstFree 0 = some fd0 →
      ∀ fd1, ((s.tasks t).install fd0 (some reader)).firstFree 0 = some fd1 →
        (s.tasks t).bit fd0 = false ∧ (s.tasks t).bit fd1 = false
  | _ => True

theorem Lawful.update (h : s.Lawful)
    (hc : ∀ fd, (c.openFiles fd).isSome → c.bit fd → fd ∉ installed ∧
      ((s.tasks t).openFiles fd).isSome ∧ (s.tasks t).bit fd) :
    (s.update t c installed).Lawful := by
  intro u fd hopen hbit
  by_cases hu : u = t
  · subst hu
    simp only [FdSys.update, Function.update_self] at hopen hbit ⊢
    obtain ⟨hnew, hopen, hbit⟩ := hc fd hopen hbit
    rw [if_neg hnew]
    exact h u fd hopen hbit
  · simp only [FdSys.update, Function.update_of_ne hu] at hopen hbit ⊢
    exact h u fd hopen hbit

theorem not_lawful_update (hin : fd ∈ installed)
    (hopen : (c.openFiles fd).isSome) (hbit : c.bit fd) :
    ¬ (s.update t c installed).Lawful := by
  intro h
  have hasked := h t fd
  simp only [FdSys.update, Function.update_self, hin, if_true] at hasked
  exact absurd (hasked hopen hbit) (by decide)

theorem Lawful.install (h : s.Lawful) (hclear : (s.tasks t).bit fd = false)
    (file : FileRef) :
    (s.update t ((s.tasks t).install fd (some file)) [fd]).Lawful := by
  refine h.update fun x hopen hbit => ?_
  rw [bit_install] at hbit
  have hne : x ≠ fd := by
    intro hx
    rw [hx, hclear] at hbit
    cases hbit
  rw [install_of_ne hne] at hopen
  exact ⟨fun hmem => hne (List.mem_singleton.mp hmem), hopen, hbit⟩

theorem not_lawful_install (hset : (s.tasks t).bit fd = true)
    (file : FileRef) :
    ¬ (s.update t ((s.tasks t).install fd (some file)) [fd]).Lawful := by
  apply not_lawful_update (List.mem_singleton_self fd)
  · rw [install_self]
    rfl
  · rw [bit_install]
    exact hset

theorem Lawful.shrink (h : s.Lawful)
    (hopen : ∀ fd, (c.openFiles fd).isSome → ((s.tasks t).openFiles fd).isSome)
    (hbit : ∀ fd, c.bit fd → (s.tasks t).bit fd) : (s.update t c []).Lawful :=
  h.update fun fd ho hb => ⟨List.not_mem_nil, hopen fd ho, hbit fd hb⟩

theorem lawful_openFile_iff (h : s.Lawful) (file : FileRef) :
    (s.update t ((s.tasks t).openFile file).2.1
      ((s.tasks t).openFile file).2.2).Lawful ↔
      ∀ fd, (s.tasks t).firstFree 0 = some fd → (s.tasks t).bit fd = false := by
  unfold openFile
  split
  next hfull =>
    have hnone : (s.tasks t).firstFree 0 = none := Option.map_eq_none_iff.mp hfull
    rw [hnone]
    refine ⟨nofun, fun _ => ?_⟩
    exact h.shrink (fun _ ho => ho) (fun _ hb => hb)
  next fd c hadd =>
    obtain ⟨hfree, rfl⟩ := addFile_some hadd
    constructor
    · intro hlaw x hx
      rw [hfree] at hx
      cases hx
      by_contra hset
      exact not_lawful_install (Bool.eq_true_of_not_eq_false hset) file hlaw
    · intro hclear
      exact h.install (hclear fd hfree) file

theorem lawful_dup_iff (h : s.Lawful) (raw : BitVec 32) :
    (s.update t ((s.tasks t).dup raw).2.1 ((s.tasks t).dup raw).2.2).Lawful ↔
      ((s.tasks t).lookupFile raw ≠ none → ∀ fd,
        (s.tasks t).firstFree 0 = some fd → (s.tasks t).bit fd = false) := by
  unfold dup
  split
  next hnone =>
    refine ⟨fun _ hne => absurd hnone hne, fun _ => ?_⟩
    exact h.shrink (fun _ ho => ho) (fun _ hb => hb)
  next x file hfile =>
    rw [lawful_openFile_iff h file, hfile]
    simp

/-- `dup2` keeps the law unless it finds no open file and changes the flag all
the same. -/
theorem lawful_dup2_iff (h : s.Lawful) (oldfd newfd : BitVec 32) :
    (s.update t ((s.tasks t).dup2 oldfd newfd).2.1
      ((s.tasks t).dup2 oldfd newfd).2.2).Lawful ↔
      ((s.tasks t).lookupFile oldfd ≠ none → oldfd ≠ newfd →
        ∀ fd, inRange newfd = some fd → (s.tasks t).bit fd = false) := by
  unfold dup2
  split
  next hnone =>
    refine ⟨fun _ hne => absurd hnone hne, fun _ => ?_⟩
    exact h.shrink (fun _ ho => ho) (fun _ hb => hb)
  next x file hfile =>
    split
    next heq =>
      refine ⟨fun _ _ hne => absurd heq hne, fun _ => ?_⟩
      exact h.shrink (fun _ ho => ho) (fun _ hb => hb)
    next hne =>
      split
      next hrange =>
        refine ⟨fun _ _ _ fd hfd => ?_, fun _ => ?_⟩
        · rw [hrange] at hfd
          cases hfd
        · exact h.shrink (fun _ ho => ho) (fun _ hb => hb)
      next fd hrange =>
        constructor
        · intro hlaw _ _ x hx
          rw [hrange] at hx
          cases hx
          by_contra hset
          exact not_lawful_install (Bool.eq_true_of_not_eq_false hset) file hlaw
        · intro hclear
          exact h.install (hclear (by rw [hfile]; simp) hne fd hrange) file

/-- `pipe` keeps the law if a second descriptor is free, or none is. -/
theorem lawful_pipe_iff (h : s.Lawful) (reader writer : FileRef) :
    (s.update t ((s.tasks t).pipe reader writer).2.1
      ((s.tasks t).pipe reader writer).2.2).Lawful ↔
      ∀ fd0, (s.tasks t).firstFree 0 = some fd0 →
        ∀ fd1, ((s.tasks t).install fd0 (some reader)).firstFree 0 = some fd1 →
          (s.tasks t).bit fd0 = false ∧ (s.tasks t).bit fd1 = false := by
  unfold pipe
  split
  next hfull =>
    have hnone : (s.tasks t).firstFree 0 = none := Option.map_eq_none_iff.mp hfull
    rw [hnone]
    refine ⟨nofun, fun _ => ?_⟩
    exact h.shrink (fun _ ho => ho) (fun _ hb => hb)
  next fd0 c hadd =>
    obtain ⟨hfree, rfl⟩ := addFile_some hadd
    split
    next hfull =>
      have hnone := Option.map_eq_none_iff.mp hfull
      refine ⟨fun _ x hx y hy => ?_, fun _ => ?_⟩
      · rw [hfree] at hx
        cases hx
        rw [hnone] at hy
        cases hy
      · -- the slot is free again, as it was
        refine h.shrink (fun x ho => ?_) (fun x hb => hb)
        by_cases hx : x = fd0
        · rw [hx, install_self] at ho
          cases ho
        · rw [install_of_ne hx, install_of_ne hx] at ho
          exact ho
    next fd1 c hadd' =>
      obtain ⟨hfree', rfl⟩ := addFile_some hadd'
      constructor
      · intro hlaw x hx y hy
        rw [hfree] at hx
        cases hx
        rw [hfree'] at hy
        cases hy
        constructor
        · by_contra hset
          have hmem : fd0 ∈ [fd0, fd1] := List.mem_cons_self
          refine not_lawful_update hmem ?_ ?_ hlaw
          · by_cases hx : fd0 = fd1
            · rw [hx, install_self]
              rfl
            · rw [install_of_ne hx, install_self]
              rfl
          · exact Bool.eq_true_of_not_eq_false hset
        · by_contra hset
          refine not_lawful_update (List.mem_cons_of_mem _
            (List.mem_singleton_self fd1)) ?_ ?_ hlaw
          · rw [install_self]
            rfl
          · exact Bool.eq_true_of_not_eq_false hset
      · intro hclear
        obtain ⟨hclear0, hclear1⟩ := hclear fd0 hfree fd1 hfree'
        refine h.update fun x hopen hbit => ?_
        rw [bit_install, bit_install] at hbit
        have hne0 : x ≠ fd0 := by
          intro hx
          rw [hx, hclear0] at hbit
          cases hbit
        have hne1 : x ≠ fd1 := by
          intro hx
          rw [hx, hclear1] at hbit
          cases hbit
        rw [install_of_ne hne1, install_of_ne hne0] at hopen
        refine ⟨fun hmem => ?_, hopen, hbit⟩
        rcases List.mem_cons.mp hmem with hx | hx
        · exact hne0 hx
        · exact hne1 (List.mem_singleton.mp hx)

theorem asked_note (s : FdSys) (t u : Nat) (fd x : Fd) (b : Bool) :
    (s.note t (some (fd, b))).asked u x
      = if u = t ∧ x = fd then b else s.asked u x := by
  unfold FdSys.note
  dsimp only
  by_cases hu : u = t
  · subst hu
    rw [Function.update_self]
    by_cases hx : x = fd
    · rw [hx, Function.update_self, if_pos ⟨rfl, rfl⟩]
    · rw [Function.update_of_ne hx, if_neg fun hc => hx hc.2]
  · rw [Function.update_of_ne hu, if_neg fun hc => hu hc.1]

theorem Lawful.note (h : s.Lawful) {b : Bool}
    (hsame : c.openFiles = (s.tasks t).openFiles)
    (hother : ∀ x, x ≠ fd → c.bit x = (s.tasks t).bit x)
    (hself : c.bit fd → b) :
    ((s.update t c []).note t (some (fd, b))).Lawful := by
  intro u x hopen hbit
  rw [asked_note]
  by_cases hu : u = t
  · subst hu
    simp only [FdSys.note, FdSys.update, Function.update_self] at hopen hbit
    by_cases hx : x = fd
    · rw [if_pos ⟨rfl, hx⟩]
      exact hself (hx ▸ hbit)
    · rw [if_neg fun hc => hx hc.2]
      rw [hsame] at hopen
      rw [hother x hx] at hbit
      simp only [FdSys.update, Function.update_self, List.not_mem_nil, if_false]
      exact h u x hopen hbit
  · rw [if_neg fun hc => hu hc.1]
    simp only [FdSys.note, FdSys.update, Function.update_of_ne hu]
      at hopen hbit ⊢
    exact h u x hopen hbit

/-- `fcntl` does to the flag what it is asked to. -/
theorem Lawful.fcntl (h : s.Lawful) (raw cmd arg : BitVec 32) :
    ((s.update t ((s.tasks t).fcntl raw cmd arg).2.1
      ((s.tasks t).fcntl raw cmd arg).2.2).note t
        (asks (s.tasks t) raw cmd arg)).Lawful := by
  have hsame : (s.update t (s.tasks t) []).Lawful :=
    h.shrink (fun _ ho => ho) (fun _ hb => hb)
  unfold FdContext.fcntl asks
  split
  next hnone => exact hsame
  next fd file hfile =>
    split
    next hcmd =>
      rw [hcmd, if_neg (by decide)]
      split
      next => exact hsame
      next newFd hfree =>
        refine h.update fun x hopen hbit => ?_
        rw [bit_clearBit, bit_install] at hbit
        obtain ⟨hne, hbit⟩ := Bool.and_eq_true_iff.mp hbit
        have hne : x ≠ newFd := of_decide_eq_false (Bool.not_eq_true' _ ▸ hne)
        refine ⟨fun hmem => hne (List.mem_singleton.mp hmem), ?_, hbit⟩
        have hsame : ((s.tasks t).install newFd (some file)).openFiles x
            = (s.tasks t).openFiles x := install_of_ne hne _
        rw [← hsame]
        exact hopen
    next hcmd =>
      rw [hcmd, if_neg (by decide)]
      exact hsame
    next hcmd =>
      rw [if_pos hcmd]
      split
      next harg =>
        rw [decide_eq_true harg]
        refine h.note rfl (fun x hx => ?_) (fun _ => rfl)
        rw [bit_setBit, decide_eq_false hx, Bool.false_or]
      next harg =>
        rw [decide_eq_false harg]
        refine h.note rfl (fun x hx => ?_) (fun hset => ?_)
        · rw [bit_clearBit, decide_eq_false hx, Bool.not_false, Bool.true_and]
        · rw [bit_clearBit, decide_eq_true rfl, Bool.not_true,
            Bool.false_and] at hset
          cases hset
    next hcmd =>
      rw [hcmd, if_neg (by decide)]
      exact hsame
    next hcmd =>
      rw [hcmd, if_neg (by decide)]
      exact hsame
    next hcmd =>
      rw [hcmd, if_neg (by decide)]
      exact hsame

theorem Lawful.close (h : s.Lawful) (raw : BitVec 32) :
    (s.update t ((s.tasks t).close raw).2 []).Lawful := by
  unfold FdContext.close
  split
  next => exact h.shrink (fun _ ho => ho) (fun _ hb => hb)
  next fd file hfile =>
    refine h.shrink (fun x ho => ?_) (fun x hb => hb)
    by_cases hx : x = fd
    · rw [hx, install_self] at ho
      cases ho
    · rw [install_of_ne hx] at ho
      exact ho

theorem Lawful.exec (h : s.Lawful) : (s.update t (s.tasks t).exec []).Lawful := by
  refine h.update fun x _ hb => ?_
  have hzero : (s.tasks t).exec.bit x = false := by
    exact BitVec.getLsbD_zero
  rw [hzero] at hb
  cases hb

theorem Lawful.fork (h : s.Lawful) (t child : Nat) :
    FdSys.Lawful ⟨Function.update s.tasks child (s.tasks t),
      Function.update s.asked child (s.asked t)⟩ := by
  intro u x hopen hbit
  by_cases hu : u = child
  · subst hu
    simp only [Function.update_self] at hopen hbit ⊢
    exact h t x hopen hbit
  · simp only [Function.update_of_ne hu] at hopen hbit ⊢
    exact h u x hopen hbit

/-- The law holds after a call exactly if the call leaves no stale flag. -/
theorem Lawful.step_iff (h : s.Lawful) {op : FdOp} {s' : FdSys}
    (hstep : s.step op = some s') : s'.Lawful ↔ s.Clear op := by
  cases op with
  | openFile t file =>
    cases hstep
    exact lawful_openFile_iff h file
  | dup t fd =>
    cases hstep
    exact lawful_dup_iff h fd
  | dup2 t oldfd newfd =>
    cases hstep
    exact lawful_dup2_iff h oldfd newfd
  | pipe t reader writer =>
    cases hstep
    exact lawful_pipe_iff h reader writer
  | fcntl t fd cmd arg =>
    cases hstep
    exact iff_of_true (h.fcntl fd cmd arg) trivial
  | close t fd =>
    cases hstep
    exact iff_of_true (h.close fd) trivial
  | fork t child =>
    cases hstep
    exact iff_of_true (h.fork t child) trivial
  | exec t =>
    cases hstep
    exact iff_of_true h.exec trivial

end FdSys

/-- Along a run from a lawful state, a set close-on-exec bit of an open
descriptor was always asked for, exactly when every `open`, `dup`, `dup2`
and `pipe` installs its descriptors in slots whose bit is clear. -/
theorem fresh_descriptors_iff {s : FdSys} (h : s.Lawful) (ops : List FdOp) :
    (∀ t ∈ visited FdSys.step s ops, t.Lawful) ↔
      Guarded FdSys.step FdSys.Clear s ops := by
  refine visited_iff_guarded (I := FdSys.Lawful) (fun _ hs => hs) ?_ ?_ h
  · intro s op s' hs hclear hstep
    exact (hs.step_iff hstep).mpr hclear
  · intro s op s' hs hstale hstep hlaw
    exact hstale ((hs.step_iff hstep).mp hlaw)

def FdSys.init : FdSys := ⟨fun _ => ⟨fun _ => none, 0#32⟩, fun _ _ => false⟩

theorem FdSys.lawful_init : FdSys.init.Lawful := by
  intro t fd hopen
  cases hopen

/-- A descriptor is marked, and goes away with `exec`; its slot is used
again. -/
theorem fresh_descriptors_exec :
    Guarded FdSys.step FdSys.Clear FdSys.init [.openFile 1 7,
      .fcntl 1 0#32 2#32 1#32, .exec 1, .openFile 1 8] ∧
    ∀ t ∈ visited FdSys.step FdSys.init [.openFile 1 7,
      .fcntl 1 0#32 2#32 1#32, .exec 1, .openFile 1 8], t.Lawful := by
  have hguard : Guarded FdSys.step FdSys.Clear FdSys.init [.openFile 1 7,
      .fcntl 1 0#32 2#32 1#32, .exec 1, .openFile 1 8] := by
    refine ⟨fun fd hfd => ?_, trivial, trivial, fun fd hfd => ?_, trivial⟩
    · exact BitVec.getLsbD_zero
    · exact BitVec.getLsbD_zero
  exact ⟨hguard, (fresh_descriptors_iff FdSys.lawful_init _).mpr hguard⟩

/-- A marked descriptor is closed, and the next `open` takes over its bit:
`exec` then closes a descriptor that nobody marked. -/
theorem open_inherits_stale_bit :
    ∃ s, run FdSys.step FdSys.init [.openFile 1 7, .fcntl 1 0#32 2#32 1#32,
        .close 1 0#32, .openFile 1 8] = some s ∧ ¬ s.Lawful ∧
      ∃ s', s.step (.exec 1) = some s' ∧
        (s.tasks 1).openFiles ⟨0, by decide⟩ = some 8 ∧
        (s'.tasks 1).openFiles ⟨0, by decide⟩ = none := by
  refine ⟨_, rfl, fun h => ?_, _, rfl, by decide, by decide⟩
  exact absurd (h 1 ⟨0, by decide⟩ (by decide) (by decide)) (by decide)

end LinuxRs.Fs
