/-
Sending signals and asking whether one may (kernel/src/syscall/handler/
process/signal.rs, `sys_kill`).

# Two loops

Signal number 0 asks whether a task matches the pid and may be signalled;
the other numbers deliver. Each has a loop of its own. The probe reports
that nothing matched, and its permission check only leaves the closure
that it stands in; the delivery reports the last refusal, and no match is
a success.

`kill_probe_iff` says when the two answers are the same.
-/
import LinuxRs.Task.Signal
import LinuxRs.Sync.WaitQueue

namespace LinuxRs.Task

open LinuxRs.Lib LinuxRs.Sync

-- ======== the table

/-- What `sys_kill` reads and writes of a task. -/
structure KillTask where
  pid : BitVec 32
  pgrp : BitVec 32
  euid : BitVec 16
  state : TaskState
  signalInfo : TaskSignalInfo

abbrev KillTable := Fin 64 → Option KillTask

inductive KillErrno
  | inval
  | srch
  | perm

/-- The slots that the loops look at: `slot == 0` is passed over. -/
def killSlots : List (Fin 64) :=
  (List.finRange 64).filter fun slot => slot.val ≠ 0

def KillTask.allows (task caller : KillTask) : Bool :=
  caller.euid = 0#16 ∨ task.euid = caller.euid

def KillTask.signalled (task : KillTask) (sig : Fin nsig) : KillTask :=
  { task with
    signalInfo := task.signalInfo.raise sig
    state := if task.state = .interruptible then .running else task.state }

-- ======== the probe

/-- The `match pid` of the probe, which 0 does not reach. -/
def probeMatches (pid : BitVec 32) (task : KillTask) : Bool :=
  if 0 < pid.toInt then task.pid = pid
  else if pid = -1#32 then true
  else task.pgrp = -pid

/-- The loop of the probe, with `found`. The `return` of a task that may
not be signalled ends the closure and so the loop. -/
def probeLoop (tasks : KillTable) (caller : KillTask) (pid : BitVec 32) :
    List (Fin 64) → Bool → Bool
  | [], found => found
  | slot :: rest, found =>
    match tasks slot with
    | none => probeLoop tasks caller pid rest found
    | some task =>
      if probeMatches pid task then
        if task.allows caller then probeLoop tasks caller pid rest true
        else true
      else probeLoop tasks caller pid rest found

def killProbe (tasks : KillTable) (caller : KillTask) (pid : BitVec 32) :
    Except KillErrno Unit :=
  if pid = 0#32 then .ok ()
  else if probeLoop tasks caller pid killSlots false then .ok ()
  else .error .srch

-- ======== the delivery

def deliverMatches (caller : KillTask) (pid : BitVec 32) (task : KillTask) :
    Bool :=
  if pid = 0#32 then task.pgrp = caller.pid
  else if 0 < pid.toInt then task.pid = pid
  else if pid = -1#32 then true
  else task.pgrp = -pid

/-- The loop of the delivery, with `result`. -/
def deliverLoop (caller : KillTask) (pid : BitVec 32) (sig : Fin nsig) :
    List (Fin 64) → Except KillErrno Unit × KillTable →
      Except KillErrno Unit × KillTable
  | [], r => r
  | slot :: rest, (result, tasks) =>
    match tasks slot with
    | none => deliverLoop caller pid sig rest (result, tasks)
    | some task =>
      if deliverMatches caller pid task then
        if pid = 0#32 ∨ task.allows caller then
          deliverLoop caller pid sig rest (result,
            Function.update tasks slot (some (task.signalled sig)))
        else deliverLoop caller pid sig rest (.error .perm, tasks)
      else deliverLoop caller pid sig rest (result, tasks)

/-- `sys_kill` of a caller in the table, with the table it leaves. -/
def sysKill (tasks : KillTable) (caller : KillTask)
    (pid signalNumber : BitVec 32) : Except KillErrno Unit × KillTable :=
  if signalNumber = 0#32 then (killProbe tasks caller pid, tasks)
  else if h : signalNumber.toNat ≠ 0 ∧ signalNumber.toNat ≤ nsig then
    deliverLoop caller pid ⟨signalNumber.toNat - 1, by omega⟩ killSlots
      (.ok (), tasks)
  else (.error .inval, tasks)

-- ======== the answers

section Answers

variable {tasks : KillTable} {caller : KillTask} {pid : BitVec 32}

def probed (tasks : KillTable) (pid : BitVec 32) (slot : Fin 64) : Bool :=
  (tasks slot).elim false (probeMatches pid)

/-- Whether a slot holds a task that matches and may not be signalled. -/
def refused (tasks : KillTable) (caller : KillTask) (pid : BitVec 32)
    (slot : Fin 64) : Bool :=
  (tasks slot).elim false fun task =>
    deliverMatches caller pid task && !(pid = 0#32 || task.allows caller)

/-- The probe finds every task that is meant, allowed or not. -/
theorem probeLoop_eq (l : List (Fin 64)) (found : Bool) :
    probeLoop tasks caller pid l found = (found || l.any (probed tasks pid)) := by
  induction l generalizing found with
  | nil => exact (Bool.or_false found).symm
  | cons slot rest ih =>
    unfold probeLoop
    rw [List.any_cons]
    cases hslot : tasks slot with
    | none =>
      have hprobed : probed tasks pid slot = false := by
        unfold probed
        rw [hslot]
        rfl
      rw [hprobed, Bool.false_or]
      exact ih found
    | some task =>
      have hprobed : probed tasks pid slot = probeMatches pid task := by
        unfold probed
        rw [hslot]
        rfl
      rw [hprobed]
      simp only
      cases hmatch : probeMatches pid task with
      | false =>
        rw [Bool.false_or, if_neg Bool.false_ne_true]
        exact ih found
      | true =>
        rw [Bool.true_or, Bool.or_true, if_pos rfl]
        split
        · rw [ih true, Bool.true_or]
        · rfl

theorem refused_signalled {slot : Fin 64} {task : KillTask}
    (h : tasks slot = some task) (sig : Fin nsig) :
    refused (Function.update tasks slot (some (task.signalled sig))) caller pid
      = refused tasks caller pid := by
  funext i
  unfold refused
  by_cases hi : i = slot
  · subst hi
    rw [Function.update_self, h]
    rfl
  · rw [Function.update_of_ne hi]

/-- The result is a refusal if one target refused. -/
theorem deliverLoop_result (sig : Fin nsig) (l : List (Fin 64))
    (result : Except KillErrno Unit) :
    (deliverLoop caller pid sig l (result, tasks)).1
      = if l.any (refused tasks caller pid) then .error .perm else result := by
  induction l generalizing result tasks with
  | nil => rfl
  | cons slot rest ih =>
    unfold deliverLoop
    rw [List.any_cons]
    cases hslot : tasks slot with
    | none =>
      have hrefused : refused tasks caller pid slot = false := by
        unfold refused
        rw [hslot]
        rfl
      rw [hrefused, Bool.false_or]
      exact ih result
    | some task =>
      have hrefused : refused tasks caller pid slot
          = (deliverMatches caller pid task
            && !(pid = 0#32 || task.allows caller)) := by
        unfold refused
        rw [hslot]
        rfl
      rw [hrefused]
      simp only
      cases hmatch : deliverMatches caller pid task with
      | false =>
        rw [Bool.false_and, Bool.false_or, if_neg Bool.false_ne_true]
        exact ih result
      | true =>
        rw [Bool.true_and, if_pos rfl]
        by_cases hallowed : pid = 0#32 ∨ task.allows caller = true
        · have hor : (decide (pid = 0#32) || task.allows caller) = true := by
            rw [Bool.or_eq_true, decide_eq_true_iff]
            exact hallowed
          rw [if_pos hallowed, hor, ih result, refused_signalled hslot sig]
          rfl
        · have hor : (decide (pid = 0#32) || task.allows caller) = false := by
            rw [Bool.eq_false_iff, ne_eq, Bool.or_eq_true, decide_eq_true_iff]
            exact hallowed
          rw [if_neg hallowed, hor, ih (.error .perm)]
          rw [show (!false || rest.any (refused tasks caller pid)) = true
            from rfl, if_pos rfl]
          split <;> rfl

theorem deliverMatches_eq (hpid : pid ≠ 0#32) (task : KillTask) :
    deliverMatches caller pid task = probeMatches pid task :=
  if_neg hpid

/-- What the pid is for: a task in a slot other than 0 that it matches. -/
structure KillTask.Target (task : KillTask) (tasks : KillTable)
    (pid : BitVec 32) : Prop where
  there : ∃ slot, slot.val ≠ 0 ∧ tasks slot = some task
  matched : probeMatches pid task = true

theorem mem_killSlots {slot : Fin 64} : slot ∈ killSlots ↔ slot.val ≠ 0 := by
  unfold killSlots
  rw [List.mem_filter, decide_eq_true_iff]
  exact and_iff_right (List.mem_finRange slot)

theorem any_probed : killSlots.any (probed tasks pid) = true
      ↔ ∃ task : KillTask, task.Target tasks pid := by
  rw [List.any_eq_true]
  constructor
  · intro h
    obtain ⟨slot, hslot, hprobed⟩ := h
    unfold probed at hprobed
    cases htask : tasks slot with
    | none =>
      rw [htask] at hprobed
      cases hprobed
    | some task =>
      rw [htask] at hprobed
      exact ⟨task, ⟨slot, Iff.mp mem_killSlots hslot, htask⟩, hprobed⟩
  · intro h
    obtain ⟨task, ⟨slot, hslot, htask⟩, hmatch⟩ := h
    refine ⟨slot, Iff.mpr mem_killSlots hslot, ?_⟩
    unfold probed
    rw [htask]
    exact hmatch

theorem any_refused (hpid : pid ≠ 0#32) :
    killSlots.any (refused tasks caller pid) = true
      ↔ ∃ task : KillTask, task.Target tasks pid
        ∧ task.allows caller = false := by
  have hdecide : decide (pid = 0#32) = false := decide_eq_false hpid
  rw [List.any_eq_true]
  constructor
  · intro h
    obtain ⟨slot, hslot, hrefused⟩ := h
    unfold refused at hrefused
    cases htask : tasks slot with
    | none =>
      rw [htask] at hrefused
      cases hrefused
    | some task =>
      rw [htask] at hrefused
      obtain ⟨hmatch, hno⟩ := (Bool.and_eq_true _ _).mp hrefused
      rw [deliverMatches_eq hpid] at hmatch
      rw [hdecide, Bool.false_or] at hno
      exact ⟨task, ⟨⟨slot, Iff.mp mem_killSlots hslot, htask⟩, hmatch⟩,
        (Bool.not_eq_true' _).mp hno⟩
  · intro h
    obtain ⟨task, ⟨⟨slot, hslot, htask⟩, hmatch⟩, hno⟩ := h
    refine ⟨slot, Iff.mpr mem_killSlots hslot, ?_⟩
    unfold refused
    rw [htask]
    show (deliverMatches caller pid task && _) = true
    rw [deliverMatches_eq hpid, hmatch, hdecide, hno]
    rfl

end Answers

-- ======== the result

/-- For every table and caller: the probe answers as the delivery of a
valid signal does, if and only if the pid is 0, or some task matches it
and every one that does may be signalled. -/
theorem kill_probe_iff (tasks : KillTable) (caller : KillTask)
    (pid : BitVec 32) {signalNumber : BitVec 32}
    (hsig : 1 ≤ signalNumber.toNat ∧ signalNumber.toNat ≤ nsig) :
    (sysKill tasks caller pid 0#32).1 = (sysKill tasks caller pid signalNumber).1
      ↔ pid = 0#32 ∨ (∃ task : KillTask, task.Target tasks pid)
          ∧ ∀ task : KillTask, task.Target tasks pid →
            task.allows caller = true := by
  have hne : signalNumber ≠ 0#32 := by
    intro h
    rw [h] at hsig
    exact absurd hsig.1 (by decide)
  have hprobe : (sysKill tasks caller pid 0#32).1
      = killProbe tasks caller pid := rfl
  have hdeliver : (sysKill tasks caller pid signalNumber).1
      = if killSlots.any (refused tasks caller pid) then .error .perm
        else .ok () := by
    unfold sysKill
    rw [if_neg hne, dif_pos ⟨by omega, hsig.2⟩]
    exact deliverLoop_result _ _ _
  rw [hprobe, hdeliver]
  unfold killProbe
  by_cases hpid : pid = 0#32
  · have hnone : killSlots.any (refused tasks caller pid) = false := by
      rw [List.any_eq_false]
      intro slot _ hrefused
      unfold refused at hrefused
      cases htask : tasks slot with
      | none =>
        rw [htask] at hrefused
        cases hrefused
      | some task =>
        rw [htask] at hrefused
        have hno := ((Bool.and_eq_true _ _).mp hrefused).2
        rw [decide_eq_true hpid] at hno
        cases hno
    rw [if_pos hpid, hnone]
    exact iff_of_true rfl (.inl hpid)
  · rw [if_neg hpid, probeLoop_eq, Bool.false_or]
    by_cases hfound : killSlots.any (probed tasks pid) = true
    · rw [if_pos hfound]
      have hsome := Iff.mp any_probed hfound
      by_cases hrefused : killSlots.any (refused tasks caller pid) = true
      · -- found but refused: success against `EPERM`
        rw [if_pos hrefused]
        obtain ⟨task, htarget, hno⟩ := (any_refused hpid).mp hrefused
        refine iff_of_false nofun fun h => ?_
        rcases h with h | ⟨-, hall⟩
        · exact hpid h
        · rw [hall task htarget] at hno
          cases hno
      · rw [if_neg hrefused]
        refine iff_of_true rfl (.inr ⟨hsome, fun task htarget => ?_⟩)
        by_contra hno
        exact hrefused ((any_refused hpid).mpr
          ⟨task, htarget, Bool.eq_false_iff.mpr hno⟩)
    · -- nothing matches: `ESRCH` against success
      rw [if_neg hfound]
      have hnone : ¬ ∃ task : KillTask, task.Target tasks pid :=
        fun h => hfound (Iff.mpr any_probed h)
      have hrefused : ¬ killSlots.any (refused tasks caller pid) = true := by
        intro h
        obtain ⟨task, htarget, -⟩ := (any_refused hpid).mp h
        exact hnone ⟨task, htarget⟩
      rw [if_neg hrefused]
      refine iff_of_false nofun fun h => ?_
      rcases h with h | ⟨hsome, -⟩
      · exact hpid h
      · exact hnone hsome

def plainTask (pid : BitVec 32) (euid : BitVec 16) : KillTask :=
  ⟨pid, pid, euid, .running, .default⟩

def oneTask (task : KillTask) : KillTable := fun slot =>
  if slot.val = 1 then some task else none

/-- A user's own task. -/
theorem kill_probe_own :
    (sysKill (oneTask (plainTask 5#32 7#16)) (plainTask 5#32 7#16) 5#32 0#32).1
      = (sysKill (oneTask (plainTask 5#32 7#16)) (plainTask 5#32 7#16) 5#32
        15#32).1 := by
  apply (kill_probe_iff _ _ _ (by decide)).mpr
  refine .inr ⟨⟨plainTask 5#32 7#16, ⟨⟨1, by decide⟩, by decide, rfl⟩, rfl⟩,
    fun task h => ?_⟩
  obtain ⟨⟨slot, -, hslot⟩, -⟩ := h
  obtain ⟨-, hslot⟩ := Option.ite_none_right_eq_some.mp hslot
  cases hslot
  rfl

/-- Another user's task: the probe succeeds and the signal is refused. A
pid that nobody has: the probe fails and the signal succeeds. -/
theorem kill_probe_differs :
    ((sysKill (oneTask (plainTask 5#32 8#16)) (plainTask 6#32 7#16) 5#32
        0#32).1 = .ok ()
      ∧ (sysKill (oneTask (plainTask 5#32 8#16)) (plainTask 6#32 7#16) 5#32
        15#32).1 = .error .perm)
    ∧ ((sysKill (oneTask (plainTask 5#32 8#16)) (plainTask 6#32 7#16) 9#32
        0#32).1 = .error .srch
      ∧ (sysKill (oneTask (plainTask 5#32 8#16)) (plainTask 6#32 7#16) 9#32
        15#32).1 = .ok ()) :=
  ⟨⟨rfl, rfl⟩, rfl, rfl⟩

end LinuxRs.Task
