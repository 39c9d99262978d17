/-
Stale references in the wait queues (kernel/src/task/wait_queue.rs with
the state changes of kernel/src/task/mod.rs and kernel/src/signal.rs).

# The system

Any number of queues and tasks. A queue's slot and the `handoff_slot` of
a sleeping frame are weak references: they name a task and do not follow
what becomes of it. A signal wakes an interruptible sleeper without
touching either, so a task can leave its queue, and exit or be stopped,
while a slot or another frame still names it. Waking through a reference
checks only that the task object exists (`alive`, until the parent reaps
it) and then stores `Running` over whatever state the task is in.

# The condition

`stale_wake_revives_nobody`: as long as no task exits or stops while a
slot or a frame names it, no operation of the queues ever makes a zombie
or stopped task run. Without that the code does exactly this
(`stale_handoff_revives_zombie`).
-/
import Mathlib.Data.Option.Basic
import LinuxRs.Lib.Run
import LinuxRs.Sync.WaitQueue

namespace LinuxRs.Sync

open LinuxRs.Lib
open Function (update update_self update_of_ne)

universe u v

variable {Q : Type v} {T : Type u} [DecidableEq Q] [DecidableEq T]

-- ======== the system

/-- Where a task stands in a sleep. -/
inductive WakeFrame (Q : Type v) (T : Type u)
  | outside
  | asleep (q : Q) (handoffSlot : Option T)
  | napping (q : Q) (handoffSlot : Option T)
  | exited
  deriving DecidableEq

def WakeFrame.handoff : WakeFrame Q T → Option T
  | .asleep _ h => h
  | .napping _ h => h
  | .outside => none
  | .exited => none

/-- All queues and tasks. `alive` tasks are in the task table; a `born`
one that is not has been reaped, and its object is not used again. -/
structure WakeSys (Q : Type v) (T : Type u) where
  queue : Q → WaitQueue T
  state : T → TaskState
  alive : T → Bool
  born : T → Bool
  frame : T → WakeFrame Q T

def WakeSys.boot (idle : T) : WakeSys Q T where
  queue := fun _ => WaitQueue.new
  state := fun _ => .running
  alive := fun t => t = idle
  born := fun t => t = idle
  frame := fun _ => .outside

def WakeSys.upgrade (s : WakeSys Q T) (h : Option T) : Option T :=
  h.filter s.alive

/-- `t` can be the current task, in code of its own choice. -/
def WakeSys.CanRun (s : WakeSys Q T) (t : T) : Prop :=
  s.frame t = .outside ∧ s.alive t = true ∧ s.state t = .running

instance (s : WakeSys Q T) (t : T) : Decidable (s.CanRun t) :=
  inferInstanceAs (Decidable (_ ∧ _ ∧ _))

/-- What a queue's calls and the rest of the kernel do to tasks. -/
inductive WakeOp (Q : Type v) (T : Type u)
  | fork (child : T)
  | sleep (q : Q) (t : T)
  | sleepInterruptible (q : Q) (t : T)
  | wake (q : Q)
  | resume (t : T)
  | signal (t : T)
  | pause (t : T)
  | stop (t : T)
  | exit (t : T)
  | reap (t : T)

/-- The tail of `sleep`: wake what the frame remembers and return. -/
def WakeSys.comeBack (s : WakeSys Q T) (t : T) (handoffSlot : Option T) :
    WakeSys Q T :=
  { s with
    state := wakeHandoff s.state (s.upgrade handoffSlot)
    frame := update s.frame t .outside }

/-- One step. `pause` stands for every sleep off the queues (`sys_pause`,
`sys_waitpid`); a revived zombie panics in `exit_process` and takes no
step. -/
def WakeSys.step (s : WakeSys Q T) : WakeOp Q T → Option (WakeSys Q T)
  | .fork child =>
    if s.born child then none
    else
      some { s with
        state := update s.state child .running
        alive := update s.alive child true
        born := update s.born child true
        frame := update s.frame child .outside }
  | .sleep q t =>
    if s.CanRun t then
      let (w, handoffSlot, state) := (s.queue q).sleepBegin s.state t
      some { s with
        queue := update s.queue q w
        state := state
        frame := update s.frame t (.asleep q handoffSlot) }
    else none
  | .sleepInterruptible q t =>
    if s.CanRun t then
      let (w, handoffSlot, state) :=
        (s.queue q).sleepInterruptibleBegin s.state t
      some { s with
        queue := update s.queue q w
        state := state
        frame := update s.frame t (.napping q handoffSlot) }
    else none
  | .wake q =>
    let (w, state) := WaitQueue.wake ⟨s.upgrade (s.queue q).slot⟩ s.state
    some { s with queue := update s.queue q w, state := state }
  | .resume t =>
    if s.alive t = true ∧ s.state t = .running then
      match s.frame t with
      | .asleep _ handoffSlot => some (s.comeBack t handoffSlot)
      | .napping q handoffSlot =>
        match (s.queue q).replaced s.alive t with
        | some other => some { s with state := napAgain s.state t other }
        | none =>
          some ({ s with queue := update s.queue q ⟨none⟩
            }.comeBack t handoffSlot)
      | .outside => none
      | .exited => none
    else none
  | .signal t =>
    if s.state t = .interruptible then
      some { s with state := update s.state t .running }
    else some s
  | .pause t =>
    if s.CanRun t then
      some { s with state := update s.state t .interruptible }
    else none
  | .stop t =>
    if s.CanRun t then
      some { s with state := update s.state t .stopped }
    else none
  | .exit t =>
    if s.CanRun t then
      some { s with
        state := update s.state t .zombie
        frame := update s.frame t .exited }
    else none
  | .reap t =>
    if s.alive t = true ∧ s.state t = .zombie then
      some { s with alive := update s.alive t false }
    else none

-- ======== vocabulary

def WakeOp.OfQueue : WakeOp Q T → Prop
  | .sleep .. => True
  | .sleepInterruptible .. => True
  | .wake .. => True
  | .resume .. => True
  | _ => False

namespace WakeSys

/-- A state from which only `waitpid` or a continue signal may lead. -/
def Halted (s : WakeSys Q T) (t : T) : Prop :=
  s.state t = .zombie ∨ s.state t = .stopped

/-- A queue or a sleeper's frame still names the task. -/
def Referred (s : WakeSys Q T) (t : T) : Prop :=
  (∃ q, (s.queue q).slot = some t) ∨ ∃ u, (s.frame u).handoff = some t

/-- An operation of a queue makes no halted task run. -/
def KeepsHalted (s : WakeSys Q T) (op : WakeOp Q T) : Prop :=
  op.OfQueue → ∀ s', s.step op = some s' →
    ∀ t, s.Halted t → s'.state t ≠ .running

/-- A task that ends or stops is named nowhere. -/
def Unreferred (s : WakeSys Q T) (op : WakeOp Q T) : Prop :=
  ∀ t, op = .exit t ∨ op = .stop t → ¬ s.Referred t

def Clean (s : WakeSys Q T) : Prop :=
  ∀ t, s.Halted t → ¬ s.Referred t

/-- What an operation does to the states and the references. -/
structure Effect (s : WakeSys Q T) (op : WakeOp Q T) (s' : WakeSys Q T) :
    Prop where
  /-- A queue operation revives through references only. -/
  revives : op.OfQueue → ∀ t, s'.state t = .running → s.Halted t → s.Referred t
  /-- Tasks halt by `exit` and by a stop signal. -/
  halts : ∀ t, s'.Halted t → s.Halted t ∨ op = .exit t ∨ op = .stop t
  /-- A task that is named anew is asleep. -/
  names : ∀ t, s'.Referred t → s'.Halted t → s.Referred t

end WakeSys

-- ======== pieces of a step

omit [DecidableEq Q] in
theorem wake_upgrade_cases (s : WakeSys Q T) (h : Option T) (t : T) :
    wakeHandoff s.state (s.upgrade h) t = s.state t ∨
      (h = some t ∧ wakeHandoff s.state (s.upgrade h) t = .running) := by
  by_cases hup : s.upgrade h = some t
  · right
    refine ⟨(Option.filter_eq_some_iff.mp hup).1, ?_⟩
    rw [hup]
    exact wakeHandoff_target ..
  · left
    exact wakeHandoff_of_ne hup

omit [DecidableEq T] in
theorem WakeSys.Referred.of_slot_none {s : WakeSys Q T} {q : Q}
    {state : T → TaskState} {t : T} (h : WakeSys.Referred
      { s with queue := update s.queue q ⟨none⟩, state := state } t) :
    s.Referred t := by
  rcases h with ⟨q', hq⟩ | hu
  · by_cases hqq : q' = q
    · subst hqq
      simp only [update_self] at hq
      cases hq
    · left
      refine ⟨q', ?_⟩
      simpa only [update_of_ne hqq] using hq
  · exact .inr hu

omit [DecidableEq Q] in
theorem WakeSys.Referred.of_frame {s : WakeSys Q T} {t u : T}
    {state : T → TaskState} {alive born : T → Bool}
    {f : WakeFrame Q T} (hf : f.handoff = none) (h : WakeSys.Referred
      ⟨s.queue, state, alive, born, update s.frame t f⟩ u) :
    s.Referred u := by
  rcases h with hq | ⟨v, hv⟩
  · exact .inl hq
  · by_cases hvt : v = t
    · subst hvt
      simp only [update_self, hf] at hv
      cases hv
    · right
      refine ⟨v, ?_⟩
      simpa only [update_of_ne hvt] using hv

theorem WakeSys.Referred.of_sleep {s : WakeSys Q T} {q : Q} {t u : T}
    {state : T → TaskState} {f : WakeFrame Q T}
    (hf : f.handoff = (s.queue q).slot) (h : WakeSys.Referred { s with
      queue := update s.queue q ⟨some t⟩
      state := state
      frame := update s.frame t f } u) :
    u = t ∨ s.Referred u := by
  rcases h with ⟨q', hq⟩ | ⟨v, hv⟩
  · by_cases hqq : q' = q
    · subst hqq
      simp only [update_self, Option.some.injEq] at hq
      exact .inl hq.symm
    · refine .inr (.inl ⟨q', ?_⟩)
      simpa only [update_of_ne hqq] using hq
  · by_cases hvt : v = t
    · subst hvt
      simp only [update_self, hf] at hv
      exact .inr (.inl ⟨q, hv⟩)
    · refine .inr (.inr ⟨v, ?_⟩)
      simpa only [update_of_ne hvt] using hv

-- ======== one step

/-- Going to sleep remembers the head of the queue in the frame. -/
theorem WakeSys.Effect.sleep {s : WakeSys Q T} {op : WakeOp Q T} {q : Q}
    {t : T} {st : TaskState}
    {f : WakeFrame Q T} (hst : st = .interruptible ∨ st = .uninterruptible)
    (hf : f.handoff = (s.queue q).slot) : s.Effect op { s with
      queue := update s.queue q ⟨some t⟩
      state := update s.state t st
      frame := update s.frame t f } := by
  have hself : ∀ x, ¬ (st = x ∧ (x = .zombie ∨ x = .stopped ∨ x = .running)) := by
    intro x h
    obtain ⟨rfl, hx⟩ := h
    rcases hst with rfl | rfl <;> simp at hx
  constructor
  · intro _ u hu hh
    by_cases hut : u = t
    · subst hut
      simp only [update_self] at hu
      exact absurd ⟨hu, .inr (.inr rfl)⟩ (hself .running)
    · simp only [update_of_ne hut] at hu
      rcases hh with hz | hs
      · rw [hu] at hz
        cases hz
      · rw [hu] at hs
        cases hs
  · intro u hu
    by_cases hut : u = t
    · subst hut
      unfold Halted at hu
      simp only [update_self] at hu
      rcases hu with hz | hs
      · exact absurd ⟨hz, .inl rfl⟩ (hself .zombie)
      · exact absurd ⟨hs, .inr (.inl rfl)⟩ (hself .stopped)
    · left
      simpa only [Halted, update_of_ne hut] using hu
  · intro u hu hh
    rcases Referred.of_sleep hf hu with rfl | href
    · unfold Halted at hh
      simp only [update_self] at hh
      rcases hh with hz | hs
      · exact absurd ⟨hz, .inl rfl⟩ (hself .zombie)
      · exact absurd ⟨hs, .inr (.inl rfl)⟩ (hself .stopped)
    · exact href

omit [DecidableEq Q] in
/-- A wake-up reaches only tasks that the queue or a frame refers to. -/
theorem WakeSys.Effect.wake {s : WakeSys Q T} {op : WakeOp Q T}
    {h : Option T} {queue : Q → WaitQueue T} {frame : T → WakeFrame Q T}
    (href : ∀ t, h = some t → s.Referred t) (hsub : ∀ t, WakeSys.Referred
      ⟨queue, wakeHandoff s.state (s.upgrade h), s.alive, s.born, frame⟩ t →
      s.Referred t) :
    s.Effect op
      ⟨queue, wakeHandoff s.state (s.upgrade h), s.alive, s.born, frame⟩ := by
  constructor
  · intro _ t hrun hh
    rcases wake_upgrade_cases s h t with heq | ⟨hht, -⟩
    · have hst : s.state t = .running := heq.symm.trans hrun
      rcases hh with hz | hs
      · rw [hst] at hz
        cases hz
      · rw [hst] at hs
        cases hs
    · exact href t hht
  · intro t hh
    left
    unfold Halted at hh ⊢
    rcases wake_upgrade_cases s h t with heq | ⟨-, hrun⟩
    · simpa only [heq] using hh
    · simp only [hrun] at hh
      rcases hh with hz | hs
      · cases hz
      · cases hs
  · intro t ht _
    exact hsub t ht

omit [DecidableEq Q] in
theorem WakeSys.Effect.own {s : WakeSys Q T} {op : WakeOp Q T} {t : T}
    {st : TaskState} {alive born : T → Bool} {frame : T → WakeFrame Q T}
    (hop : ¬ op.OfQueue)
    (hst : st = .zombie ∨ st = .stopped → op = .exit t ∨ op = .stop t)
    (hsub : ∀ u, WakeSys.Referred
      ⟨s.queue, update s.state t st, alive, born, frame⟩ u → s.Referred u) :
    s.Effect op ⟨s.queue, update s.state t st, alive, born, frame⟩ := by
  constructor
  · intro hq
    exact absurd hq hop
  · intro u hh
    unfold Halted at hh ⊢
    by_cases hut : u = t
    · subst hut
      simp only [update_self] at hh
      exact .inr (hst hh)
    · left
      simpa only [update_of_ne hut] using hh
  · intro u hu _
    exact hsub u hu

omit [DecidableEq Q] [DecidableEq T] in
theorem WakeSys.Effect.quiet {s s' : WakeSys Q T} {op : WakeOp Q T}
    (hop : ¬ op.OfQueue) (hstate : s'.state = s.state)
    (hqueue : s'.queue = s.queue) (hframe : s'.frame = s.frame) :
    s.Effect op s' := by
  constructor
  · intro hq
    exact absurd hq hop
  · intro t hh
    left
    unfold Halted at hh ⊢
    rwa [hstate] at hh
  · intro t ht _
    unfold Referred at ht ⊢
    rwa [hqueue, hframe] at ht

theorem WakeSys.Effect.resume {s s' : WakeSys Q T} {t : T}
    (h : s.step (.resume t) = some s') : s.Effect (.resume t) s' := by
  simp only [WakeSys.step] at h
  split at h
  next =>
    split at h
    next q handoff hf =>
      cases h
      apply Effect.wake
      · intro u hu
        refine .inr ⟨t, ?_⟩
        rw [hf]
        exact hu
      · intro u hu
        exact hu.of_frame rfl
    next q handoff hf =>
      split at h
      next other hrep =>
        cases h
        obtain ⟨hslot, -, hne⟩ := WaitQueue.replaced_eq_some.mp hrep
        constructor
        · intro _ u hu hh
          by_cases huo : u = other
          · exact .inl ⟨q, huo ▸ hslot⟩
          · by_cases hut : u = t
            · subst hut
              simp only [napAgain, update_of_ne hne.symm, update_self] at hu
              cases hu
            · simp only [napAgain, update_of_ne huo, update_of_ne hut] at hu
              rcases hh with hz | hs
              · rw [hu] at hz
                cases hz
              · rw [hu] at hs
                cases hs
        · intro u hh
          left
          unfold Halted at hh ⊢
          by_cases huo : u = other
          · subst huo
            simp only [napAgain, update_self] at hh
            rcases hh with hz | hs
            · cases hz
            · cases hs
          · by_cases hut : u = t
            · subst hut
              simp only [napAgain, update_of_ne hne.symm, update_self] at hh
              rcases hh with hz | hs
              · cases hz
              · cases hs
            · simpa only [napAgain, update_of_ne huo,
                update_of_ne hut] using hh
        · intro u hu _
          exact hu
      next =>
        cases h
        apply Effect.wake
        · intro u hu
          refine .inr ⟨t, ?_⟩
          rw [hf]
          exact hu
        · intro u hu
          exact (Referred.of_frame (s := { s with
            queue := update s.queue q ⟨none⟩ }) rfl hu).of_slot_none
    next => cases h
    next => cases h
  next => cases h

/-- Whatever a step wakes was referred to before it. -/
theorem WakeSys.Effect.step {s s' : WakeSys Q T} {op : WakeOp Q T}
    (h : s.step op = some s') : s.Effect op s' := by
  cases op with
  | fork child =>
    simp only [WakeSys.step] at h
    split at h
    next => cases h
    next =>
      cases h
      apply Effect.own id
      · intro hst
        rcases hst with hst | hst <;> cases hst
      · exact fun u hu => hu.of_frame rfl
  | sleep q t =>
    simp only [WakeSys.step] at h
    split at h
    next =>
      cases h
      exact Effect.sleep (.inr rfl) rfl
    next => cases h
  | sleepInterruptible q t =>
    simp only [WakeSys.step] at h
    split at h
    next =>
      cases h
      exact Effect.sleep (.inl rfl) rfl
    next => cases h
  | wake q =>
    cases h
    apply Effect.wake
    · exact fun t ht => .inl ⟨q, ht⟩
    · exact fun t ht => ht.of_slot_none
  | resume t => exact Effect.resume h
  | signal t =>
    simp only [WakeSys.step] at h
    split at h
    next =>
      cases h
      apply Effect.own id
      · intro hst
        rcases hst with hst | hst <;> cases hst
      · exact fun u hu => hu
    next =>
      cases h
      exact Effect.quiet id rfl rfl rfl
  | pause t =>
    simp only [WakeSys.step] at h
    split at h
    next =>
      cases h
      apply Effect.own id
      · intro hst
        rcases hst with hst | hst <;> cases hst
      · exact fun u hu => hu
    next => cases h
  | stop t =>
    simp only [WakeSys.step] at h
    split at h
    next =>
      cases h
      exact Effect.own id (fun _ => .inr rfl) fun u hu => hu
    next => cases h
  | exit t =>
    simp only [WakeSys.step] at h
    split at h
    next =>
      cases h
      exact Effect.own id (fun _ => .inl rfl) fun u hu => hu.of_frame rfl
    next => cases h
  | reap t =>
    simp only [WakeSys.step] at h
    split at h
    next =>
      cases h
      exact Effect.quiet id rfl rfl rfl
    next => cases h

-- ======== the result

theorem WakeSys.Clean.step {s s' : WakeSys Q T} {op : WakeOp Q T}
    (hs : s.Clean) (hg : s.Unreferred op) (h : s.step op = some s') :
    s'.Clean := by
  have heff := Effect.step h
  intro t hh href
  have href' := heff.names t href hh
  rcases heff.halts t hh with hold | hnow
  · exact hs t hold href'
  · exact hg t hnow href'

/-- While no task exits or stops with a slot or a frame still naming it,
no queue operation makes a zombie or stopped task run. -/
theorem stale_wake_revives_nobody (idle : T) (ops : List (WakeOp Q T))
    (hg : Guarded WakeSys.step WakeSys.Unreferred (WakeSys.boot idle) ops) :
    Guarded WakeSys.step WakeSys.KeepsHalted
      (WakeSys.boot (Q := Q) idle) ops := by
  refine Guarded.weaken (I := WakeSys.Clean) ?_ ?_ ?_ hg
  · intro s op s' hs hgs h
    exact hs.step hgs h
  · intro s op hs _ hop s' h t hh hrun
    exact hs t hh ((WakeSys.Effect.step h).revives hop t hrun hh)
  · intro t hh _
    rcases hh with hz | hst
    · cases hz
    · cases hst

/-- A reader is interrupted on the queue of a terminal, and exits once
nothing names it. -/
def interruptAndExit : List (WakeOp Unit (Fin 5)) :=
  [.fork 1, .fork 2, .sleepInterruptible () 1, .sleepInterruptible () 2,
    .signal 1, .resume 1, .resume 2, .resume 1, .exit 1, .wake ()]

/-- That run revives nobody. -/
theorem stale_wake_revives_nobody_tty :
    Guarded WakeSys.step WakeSys.Unreferred (WakeSys.boot 0)
      interruptAndExit ∧
    Guarded WakeSys.step WakeSys.KeepsHalted (WakeSys.boot 0)
      interruptAndExit := by
  have hg : Guarded WakeSys.step WakeSys.Unreferred (WakeSys.boot 0)
      interruptAndExit := by
    refine ⟨?_, ?_, ?_, ?_, ?_, ?_, ?_, ?_, ?_, ?_, trivial⟩
    case refine_9 =>
      intro t _ href
      rcases href with ⟨q, hq⟩ | ⟨u, hu⟩
      · cases hq
      · match u, hu with
        | 0, hu => cases hu
        | 1, hu => cases hu
        | 2, hu => cases hu
    all_goals
      intro t ht
      rcases ht with ht | ht <;> cases ht
  exact ⟨hg, stale_wake_revives_nobody 0 interruptAndExit hg⟩

/-- `wake` takes the second sleeper out of the slot; the first is
interrupted, runs before it and exits; the second then hands off to the
zombie. -/
theorem stale_handoff_revives_zombie :
    ¬ Guarded WakeSys.step WakeSys.KeepsHalted (WakeSys.boot (0 : Fin 5))
      [.fork 1, .fork 2, .sleepInterruptible () 1, .sleepInterruptible () 2,
        .wake (), .signal 1, .resume 1, .exit 1, .resume 2] := by
  intro hg
  obtain ⟨-, -, -, -, -, -, -, -, hlast, -⟩ := hg
  exact hlast trivial _ rfl 1 (.inl rfl) rfl

end LinuxRs.Sync
