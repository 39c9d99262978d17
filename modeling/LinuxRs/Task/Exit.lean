/-
How a task dies and how its parent learns of it: `exit_process`
(kernel/src/task/mod.rs), its three callers, `waitpid`, and the decoder
`ExitStatus` (user_lib/src/process/mod.rs).

# The word in between

Each caller builds the status word on its own and `waitpid` passes it on
untouched. The decoder expects the exit code in bits 8 to 15 or the
signal number in the low seven bits; the default signal action stores
the signal's mask bit instead of its number, which is the same word for
the signals 1 and 2 only.

# What the state remembers

`died` is the cause of a zombie's death, kept beside the word so that a
report can be compared with it; no step of the code reads it.
-/
import LinuxRs.Lib.Exec
import LinuxRs.Sync.WaitQueue
import LinuxRs.Task.Signal
import Mathlib.Tactic.IntervalCases

namespace LinuxRs.Task

open LinuxRs.Lib
open LinuxRs.Sync (TaskState)

-- ======== the decoder

def exited (status : BitVec 32) : Bool := status &&& 0x7f#32 = 0#32

def exitStatusCode (status : BitVec 32) : Option (BitVec 32) :=
  if exited status then some ((status >>> 8) &&& 0xff#32) else none

def exitStatusSignal (status : BitVec 32) : Option (BitVec 32) :=
  let signum := status &&& 0x7f#32
  if signum ≠ 0#32 ∧ signum ≠ 0x7f#32 then some signum else none

-- ======== the deaths

/-- Why a task died: `exit(status)`, the default action of a signal, or
the out-of-memory kill. -/
inductive Death
  | exit (status : BitVec 32)
  | signal (signalNumber : Nat)
  | oom
  deriving DecidableEq

def sigSegv : Nat := 11

/-- The word each path gives to `exit_process`. -/
def Death.exitCode : Death → BitVec 32
  | .exit status => (status &&& 0xff#32) <<< 8
  | .signal n => 1#32 <<< (n - 1)
  | .oom => BitVec.ofNat 32 sigSegv

/-- The word tells the cause, as `ExitStatus` documents it. -/
def Death.ToldBy (d : Death) (word : BitVec 32) : Prop :=
  match d with
  | .exit status => exitStatusCode word = some (status &&& 0xff#32) ∧
      exitStatusSignal word = none
  | .signal n => exitStatusSignal word = some (BitVec.ofNat 32 n) ∧
      exitStatusCode word = none
  | .oom => exitStatusSignal word = some (BitVec.ofNat 32 sigSegv) ∧
      exitStatusCode word = none

/-- The status word of this death is read as this death. -/
def Death.Tellable : Death → Prop
  | .signal n => n ≤ 2
  | _ => True

-- ======== the table

/-- What `exit_process` and `waitpid` read and write of a task. -/
structure ProcTask where
  pid : BitVec 32
  father : BitVec 32
  pgrp : BitVec 32
  state : TaskState
  exitCode : BitVec 32
  died : Option Death
  deriving DecidableEq

abbrev ProcSys := Fin 64 → Option ProcTask

def ProcSys.boot : ProcSys :=
  Function.update (fun _ => none) 0
    (some ⟨0#32, 0xffffffff#32, 0#32, .running, 0#32, none⟩)

def ProcSys.onTask (s : ProcSys) (t : Fin 64) (f : ProcTask → ProcTask) :
    ProcSys :=
  Function.update s t ((s t).map f)

def ProcSys.reparent (s : ProcSys) (t : Fin 64) (pid : BitVec 32) : ProcSys :=
  fun u => if u = t then s u else (s u).map fun task =>
    if task.father = pid then { task with father := 1#32 } else task

/-- `exit_process`; task 0 fails its assertion. -/
def ProcSys.exitProcess (s : ProcSys) (t : Fin 64) (death : Death) :
    Option ProcSys :=
  match s t with
  | some task =>
    if t = 0 ∨ task.state ≠ .running then none
    else some ((s.reparent t task.pid).onTask t fun task =>
      { task with
        state := .zombie
        exitCode := death.exitCode
        died := some death })
  | none => none

def pidMatches (pid : BitVec 32) (child : ProcTask) (currentPgrp : BitVec 32) :
    Bool :=
  if 0 < pid.toInt then child.pid = pid
  else if pid = 0#32 then child.pgrp = currentPgrp
  else if pid = -1#32 then true
  else child.pgrp = -pid

inductive ScanResult
  | stopped (pid status : BitVec 32)
  | zombie (slot : Fin 64) (pid status : BitVec 32)
  | needWait
  | noChild

def ProcSys.children (s : ProcSys) (me : Fin 64) (caller : ProcTask)
    (pid : BitVec 32) : List (Fin 64 × ProcTask) :=
  (List.finRange 64).reverse.filterMap fun slot =>
    (s slot).bind fun task =>
      if slot ≠ me ∧ task.father = caller.pid ∧
          pidMatches pid task caller.pgrp then some (slot, task)
      else none

/-- One pass of `waitpid` over the children. -/
def ProcSys.scan (s : ProcSys) (me : Fin 64) (caller : ProcTask)
    (pid : BitVec 32) (untraced : Bool) : ScanResult :=
  let children := s.children me caller pid
  match children.findSome? fun (slot, task) =>
      match task.state with
      | .stopped => if untraced then some (.stopped task.pid 0x7f#32) else none
      | .zombie => some (.zombie slot task.pid task.exitCode)
      | _ => none with
  | some result => result
  | none =>
    if children.any fun (_, task) =>
        task.state ≠ .stopped ∧ task.state ≠ .zombie then .needWait
    else .noChild

-- ======== the steps

/-- What happens to the tasks of the table. -/
inductive ProcOp
  | fork (parent child : Fin 64) (pid : BitVec 32)
  | exit (t : Fin 64) (status : BitVec 32)
  | defaultAction (t : Fin 64) (info : TaskSignalInfo)
  | oom (t : Fin 64)
  | stop (t : Fin 64)
  | wake (t : Fin 64)
  | waitpid (t : Fin 64) (pid : BitVec 32) (untraced nohang : Bool)

/-- What a step tells: `waitpid` hands out a status word, with the cause
it stands for. -/
inductive ProcOut
  | silent
  | stopped (pid status : BitVec 32)
  | reaped (pid status : BitVec 32) (died : Option Death)
  deriving DecidableEq

/-- One step. A death by signal is the `exit` answer of `takeSignal`. -/
def ProcSys.step (s : ProcSys) : ProcOp → Option (ProcSys × ProcOut)
  | .fork parent child pid =>
    match s parent, s child with
    | some p, none =>
      if child ≠ 0 ∧ p.state = .running then
        some (Function.update s child
          (some ⟨pid, p.pid, p.pgrp, .running, 0#32, none⟩), .silent)
      else none
    | _, _ => none
  | .exit t status =>
    (s.exitProcess t (.exit status)).map fun s => (s, .silent)
  | .defaultAction t info =>
    match info.takeSignal.2 with
    | .exit n => (s.exitProcess t (.signal n)).map fun s => (s, .silent)
    | _ => none
  | .oom t => (s.exitProcess t .oom).map fun s => (s, .silent)
  | .stop t =>
    match s t with
    | some task =>
      if task.state = .running then
        some (s.onTask t fun task => { task with state := .stopped }, .silent)
      else none
    | none => none
  | .wake t =>
    -- A wait queue does not look at the state it overwrites.
    some (s.onTask t fun task => { task with state := .running }, .silent)
  | .waitpid t pid untraced nohang =>
    match s t with
    | none => none
    | some caller =>
      if caller.state ≠ .running then none
      else
        match s.scan t caller pid untraced with
        | .stopped child status => some (s, .stopped child status)
        | .zombie slot child status =>
          some (Function.update s slot none,
            .reaped child status ((s slot).bind (·.died)))
        | .needWait =>
          if nohang then some (s, .silent)
          else some (s.onTask t fun task =>
            { task with state := .interruptible }, .silent)
        | .noChild => some (s, .silent)

-- ======== the law

/-- A zombie's code is the one of the death it died. -/
def ProcTask.Marked (task : ProcTask) : Prop :=
  task.state = .zombie → ∃ d, task.died = some d ∧ task.exitCode = d.exitCode ∧
      ∀ n, d = .signal n → 1 ≤ n ∧ n ≤ nsig

def ProcSys.Marked (s : ProcSys) : Prop :=
  ∀ t task, s t = some task → task.Marked

theorem TaskSignalInfo.takeSignal_exit {info : TaskSignalInfo} {n : Nat}
    (h : info.takeSignal.2 = .exit n) : 1 ≤ n ∧ n ≤ nsig := by
  unfold takeSignal at h
  cases hp : info.pending with
  | none =>
    rw [hp] at h
    cases h
  | some i =>
    rw [hp] at h
    dsimp only at h
    have hi := i.isLt
    split at h
    · cases h
    · split at h
      · split at h
        · cases h
        · split at h
          · cases h
          · obtain rfl := PendingSignalAction.exit.inj h
            omega
      · split at h <;> cases h

theorem ProcSys.Marked.onTask {s : ProcSys} (h : s.Marked) {t : Fin 64}
    {f : ProcTask → ProcTask}
    (hf : ∀ task, s t = some task → (f task).Marked) :
    (s.onTask t f).Marked := by
  intro u task hu
  unfold ProcSys.onTask at hu
  by_cases hut : u = t
  · subst hut
    rw [Function.update_self] at hu
    obtain ⟨task', htask', rfl⟩ := Option.map_eq_some_iff.mp hu
    exact hf task' htask'
  · rw [Function.update_of_ne hut] at hu
    exact h u task hu

theorem ProcTask.Marked.of_state {task : ProcTask}
    (h : task.state ≠ .zombie) : task.Marked := fun hz => absurd hz h

theorem ProcSys.Marked.reparent {s : ProcSys} (h : s.Marked) (t : Fin 64)
    (pid : BitVec 32) : (s.reparent t pid).Marked := by
  intro u task hu
  unfold ProcSys.reparent at hu
  split at hu
  next => exact h u task hu
  next =>
    obtain ⟨task', htask', rfl⟩ := Option.map_eq_some_iff.mp hu
    have hm := h u task' htask'
    split
    next => exact hm
    next => exact hm

theorem ProcSys.Marked.exitProcess {s s' : ProcSys} (h : s.Marked) {t : Fin 64}
    {death : Death} (hd : ∀ n, death = .signal n → 1 ≤ n ∧ n ≤ nsig)
    (hs : s.exitProcess t death = some s') : s'.Marked := by
  unfold ProcSys.exitProcess at hs
  split at hs
  next task htask =>
    split at hs
    next => cases hs
    next =>
      cases hs
      apply (h.reparent t task.pid).onTask
      intro task' _ _
      exact ⟨death, rfl, rfl, hd⟩
  next => cases hs

theorem ProcSys.Marked.update {s : ProcSys} (h : s.Marked) (t : Fin 64)
    {o : Option ProcTask} (ho : ∀ task, o = some task → task.Marked) :
    ProcSys.Marked (Function.update s t o) := by
  intro u task hu
  by_cases hut : u = t
  · subst hut
    rw [Function.update_self] at hu
    exact ho task hu
  · rw [Function.update_of_ne hut] at hu
    exact h u task hu

/-- A zombie that is found is a child that matches. -/
theorem ProcSys.scan_zombie {s : ProcSys} {me slot : Fin 64}
    {caller : ProcTask} {pid child status : BitVec 32} {untraced : Bool}
    (h : s.scan me caller pid untraced = .zombie slot child status) :
    ∃ task, s slot = some task ∧ task.state = .zombie ∧
      task.exitCode = status := by
  unfold ProcSys.scan at h
  dsimp only at h
  split at h
  next result hfind =>
    subst h
    obtain ⟨⟨slot', task⟩, hmem, hres⟩ := List.exists_of_findSome?_eq_some hfind
    obtain ⟨slot'', -, hbind⟩ := List.mem_filterMap.mp hmem
    obtain ⟨task', htask', hif⟩ := Option.bind_eq_some_iff.mp hbind
    split at hif
    next =>
      obtain ⟨rfl, rfl⟩ := Prod.mk.inj (Option.some.inj hif)
      split at hres
      next =>
        split at hres
        · cases Option.some.inj hres
        · cases hres
      next hz =>
        obtain ⟨rfl, -, rfl⟩ := ScanResult.zombie.inj (Option.some.inj hres)
        exact ⟨task', htask', hz, rfl⟩
      next => cases hres
    next => cases hif
  next => split at h <;> cases h

/-- A zombie keeps the cause of its death until it is reported. -/
theorem ProcSys.Marked.step {s s' : ProcSys} (h : s.Marked) {op : ProcOp}
    {out : ProcOut} (hs : s.step op = some (s', out)) :
    s'.Marked ∧ ∀ pid status died, out = .reaped pid status died →
      ∃ d, died = some d ∧ status = d.exitCode ∧
        ∀ n, d = .signal n → 1 ≤ n ∧ n ≤ nsig := by
  cases op with
  | fork parent child pid =>
    simp only [ProcSys.step] at hs
    split at hs
    next =>
      split at hs
      next =>
        obtain ⟨rfl, rfl⟩ := Prod.mk.inj (Option.some.inj hs)
        refine ⟨h.update child fun task ht => ?_, fun _ _ _ ho => by cases ho⟩
        obtain rfl := Option.some.inj ht
        exact .of_state (by simp)
      next => cases hs
    next => cases hs
  | exit t status =>
    obtain ⟨s₁, hs₁, heq⟩ := Option.map_eq_some_iff.mp hs
    obtain ⟨rfl, rfl⟩ := Prod.mk.inj heq
    exact ⟨h.exitProcess (fun _ hn => by cases hn) hs₁,
      fun _ _ _ ho => by cases ho⟩
  | defaultAction t info =>
    simp only [ProcSys.step] at hs
    split at hs
    next n hn =>
      obtain ⟨s₁, hs₁, heq⟩ := Option.map_eq_some_iff.mp hs
      obtain ⟨rfl, rfl⟩ := Prod.mk.inj heq
      refine ⟨h.exitProcess (fun m hm => ?_) hs₁, fun _ _ _ ho => by cases ho⟩
      obtain rfl := Death.signal.inj hm
      exact TaskSignalInfo.takeSignal_exit hn
    next => cases hs
  | oom t =>
    obtain ⟨s₁, hs₁, heq⟩ := Option.map_eq_some_iff.mp hs
    obtain ⟨rfl, rfl⟩ := Prod.mk.inj heq
    exact ⟨h.exitProcess (fun _ hn => by cases hn) hs₁,
      fun _ _ _ ho => by cases ho⟩
  | stop t =>
    simp only [ProcSys.step] at hs
    split at hs
    next =>
      split at hs
      next =>
        obtain ⟨rfl, rfl⟩ := Prod.mk.inj (Option.some.inj hs)
        exact ⟨h.onTask fun _ _ => .of_state (by simp),
          fun _ _ _ ho => by cases ho⟩
      next => cases hs
    next => cases hs
  | wake t =>
    obtain ⟨rfl, rfl⟩ := Prod.mk.inj (Option.some.inj hs)
    exact ⟨h.onTask fun _ _ => .of_state (by simp),
      fun _ _ _ ho => by cases ho⟩
  | waitpid t pid untraced nohang =>
    simp only [ProcSys.step] at hs
    split at hs
    next => cases hs
    next caller _ =>
      split at hs
      next => cases hs
      next =>
        split at hs
        next =>
          obtain ⟨rfl, rfl⟩ := Prod.mk.inj (Option.some.inj hs)
          exact ⟨h, fun _ _ _ ho => by cases ho⟩
        next slot child status hscan =>
          obtain ⟨rfl, rfl⟩ := Prod.mk.inj (Option.some.inj hs)
          refine ⟨h.update slot (fun _ ht => by cases ht), ?_⟩
          intro pid' status' died' ho
          obtain ⟨-, rfl, rfl⟩ := ProcOut.reaped.inj ho
          obtain ⟨task, htask, hz, rfl⟩ := ProcSys.scan_zombie hscan
          obtain ⟨d, hdied, hcode, hn⟩ := h slot task htask hz
          exact ⟨d, by rw [htask]; exact hdied, hcode, hn⟩
        next =>
          split at hs
          next =>
            obtain ⟨rfl, rfl⟩ := Prod.mk.inj (Option.some.inj hs)
            exact ⟨h, fun _ _ _ ho => by cases ho⟩
          next =>
            obtain ⟨rfl, rfl⟩ := Prod.mk.inj (Option.some.inj hs)
            exact ⟨h.onTask fun _ _ => .of_state (by simp),
              fun _ _ _ ho => by cases ho⟩
        next =>
          obtain ⟨rfl, rfl⟩ := Prod.mk.inj (Option.some.inj hs)
          exact ⟨h, fun _ _ _ ho => by cases ho⟩

-- ======== the result

/-- Which deaths the status word tells. -/
theorem Death.toldBy_exitCode_iff (d : Death)
    (hn : ∀ n, d = .signal n → 1 ≤ n ∧ n ≤ nsig) :
    d.ToldBy d.exitCode ↔ d.Tellable := by
  cases d with
  | exit status =>
    refine iff_of_true ?_ trivial
    have hlow : (status &&& 0xff#32) <<< 8 &&& 0x7f#32 = 0#32 := by
      ext i hi
      interval_cases i <;> simp
    have hcode : ((status &&& 0xff#32) <<< 8) >>> 8 &&& 0xff#32
        = status &&& 0xff#32 := by
      ext i hi
      interval_cases i <;> simp
    simp [ToldBy, exitCode, exitStatusCode, exitStatusSignal, exited, hlow,
      hcode]
  | signal n =>
    obtain ⟨hpos, hle⟩ := hn n rfl
    unfold ToldBy Tellable exitCode
    interval_cases n <;> decide
  | oom =>
    refine iff_of_true ?_ trivial
    unfold ToldBy
    decide

/-- In every run, whatever `waitpid` reports of a dead child comes with
the cause of its death, and tells it exactly if that is an exit, the
out-of-memory kill, or one of the signals 1 and 2. -/
theorem exit_status_told_iff (ops : List ProcOp) (s : ProcSys)
    (outs : List ProcOut)
    (hrun : exec ProcSys.step ProcSys.boot ops = some (s, outs)) :
    ∀ pid status died, .reaped pid status died ∈ outs →
      ∃ d, died = some d ∧ (d.ToldBy status ↔ d.Tellable) := by
  have hboot : ProcSys.Marked ProcSys.boot := by
    intro t task ht
    unfold ProcSys.boot at ht
    by_cases ht0 : t = 0
    · subst ht0
      rw [Function.update_self] at ht
      cases ht
      exact .of_state (by simp)
    · rw [Function.update_of_ne ht0] at ht
      cases ht
  obtain ⟨-, hout⟩ := exec_invariant (I := ProcSys.Marked)
    (fun s op s' o h hs => h.step hs) hboot hrun
  intro pid status died hmem
  obtain ⟨d, hdied, rfl, hn⟩ := hout _ hmem pid status died rfl
  exact ⟨d, hdied, d.toldBy_exitCode_iff hn⟩

/-- A parent that reaps one child after `exit(7)` and one after the
out-of-memory kill. -/
def twoDeaths : List ProcOp :=
  [.fork 0 1 1#32, .fork 1 2 2#32, .fork 1 3 3#32, .exit 2 7#32, .oom 3,
    .waitpid 1 (-1#32) false false, .waitpid 1 2#32 false false]

/-- Both reports tell the cause. -/
theorem exit_status_told_two :
    ((exec ProcSys.step ProcSys.boot twoDeaths).map Prod.snd)
      = some [.silent, .silent, .silent, .silent, .silent,
        .reaped 3#32 11#32 (some .oom),
        .reaped 2#32 0x700#32 (some (.exit 7#32))] ∧
    Death.ToldBy .oom 11#32 ∧ Death.ToldBy (.exit 7#32) 0x700#32 := by
  have houts : ((exec ProcSys.step ProcSys.boot twoDeaths).map Prod.snd)
      = some [.silent, .silent, .silent, .silent, .silent,
        .reaped 3#32 11#32 (some .oom),
        .reaped 2#32 0x700#32 (some (.exit 7#32))] := by
    decide
  obtain ⟨⟨s, outs⟩, hrun, hsnd⟩ := Option.map_eq_some_iff.mp houts
  subst hsnd
  have htold := exit_status_told_iff twoDeaths s _ hrun
  obtain ⟨d, hd, hoom⟩ := htold 3#32 11#32 (some .oom) (by simp)
  obtain ⟨d', hd', hexit⟩ := htold 2#32 0x700#32 (some (.exit 7#32)) (by simp)
  cases hd
  cases hd'
  exact ⟨houts, hoom.mpr trivial, hexit.mpr trivial⟩

def killed : List ProcOp :=
  [.fork 0 1 1#32, .fork 1 2 2#32,
    .defaultAction 2 (TaskSignalInfo.default.raise ⟨8, by decide⟩),
    .waitpid 1 (-1#32) false false]

/-- It is reported as an exit with code 1. -/
theorem exit_status_kill_is_code_one :
    ((exec ProcSys.step ProcSys.boot killed).map Prod.snd)
      = some [.silent, .silent, .silent,
        .reaped 2#32 0x100#32 (some (.signal sigKill))] ∧
    exitStatusCode 0x100#32 = some 1#32 ∧
    exitStatusSignal 0x100#32 = none ∧
    ¬ Death.ToldBy (.signal sigKill) 0x100#32 := by
  refine ⟨by decide, by decide, by decide, ?_⟩
  unfold Death.ToldBy
  decide

end LinuxRs.Task
