/-
`waitpid` (kernel/src/syscall/handler/process/waitpid.rs), call by call:
the pass over the table, what it answers, and the sleep in between.

# The system

A call is a loop of passes. A pass runs inside `TASK_MANAGER.exclusive`
and is one step; the sleep and what follows it is another. Everything
that other code does to tasks that are there (exits, stops, wakes,
signals, times) may happen between two steps, so `elsewhere` is any such
change. `serial` counts the tasks that a slot has had and `reaped` the
ones that were handed out.

# The law

`Law` says what a pass owes its caller. A pass in which all matching
children are stopped, with nobody asking for stopped ones, answers that
there is no child; `waitpid_law_iff` says that this is the only way to
break the law.
-/
import LinuxRs.Task.Exit

namespace LinuxRs.Task

open Function (update update_self update_of_ne)

open LinuxRs.Lib
open LinuxRs.Sync (TaskState)

-- ======== the system

def wnohang : BitVec 32 := 1#32

def wuntraced : BitVec 32 := 2#32

def untraced (options : BitVec 32) : Bool := options &&& wuntraced ≠ 0#32

def nohang (options : BitVec 32) : Bool := options &&& wnohang ≠ 0#32

/-- `TaskAcctInfo`, as far as `waitpid` uses it. -/
structure WaitAcct where
  utime : BitVec 32
  stime : BitVec 32
  cutime : BitVec 32
  cstime : BitVec 32

/-- Where a task stands: outside of `waitpid`, at the head of its loop or
asleep in it. -/
inductive WaitFrame
  | outside
  | looping (pid options : BitVec 32)
  | asleep (pid options : BitVec 32)
  deriving DecidableEq

/-- The task table with who waits in it. -/
structure WaitSys where
  procs : ProcSys
  acct : Fin 64 → WaitAcct
  signal : Fin 64 → BitVec 32
  frame : Fin 64 → WaitFrame
  serial : Fin 64 → Nat
  reaped : List (Fin 64 × Nat)

/-- What a pass answers: a child and its status, 0, `ECHILD`, or the
sleep. -/
inductive WaitOut
  | reported (pid status : BitVec 32)
  | zero
  | echild
  | slept
  deriving DecidableEq

namespace WaitSys

/-- Any table, with nobody in `waitpid` yet. -/
def start (procs : ProcSys) (acct : Fin 64 → WaitAcct)
    (signal : Fin 64 → BitVec 32) : WaitSys where
  procs := procs
  acct := acct
  signal := signal
  frame := fun _ => .outside
  serial := fun _ => 0
  reaped := []

/-- The times of a reaped child go to its parent, and its slot is free. -/
def reap (s : WaitSys) (t slot : Fin 64) : WaitSys :=
  let folded : WaitAcct := { s.acct t with
    cutime := (s.acct t).cutime + (s.acct slot).utime
    cstime := (s.acct t).cstime + (s.acct slot).stime }
  { s with
    procs := update s.procs slot none
    acct := update s.acct t folded
    reaped := (slot, s.serial slot) :: s.reaped }

/-- The call of `t` goes on as `frame` says. -/
def goOn (s : WaitSys) (t : Fin 64) (frame : WaitFrame) : WaitSys :=
  { s with frame := update s.frame t frame }

def turn (s : WaitSys) (t : Fin 64) (caller : ProcTask)
    (pid options : BitVec 32) : WaitSys × WaitOut :=
  match s.procs.scan t caller pid (untraced options) with
  | .stopped child status => (s.goOn t .outside, .reported child status)
  | .zombie slot child status =>
    ((s.reap t slot).goOn t .outside, .reported child status)
  | .needWait =>
    if nohang options then (s.goOn t .outside, .zero)
    else ({ s with procs := s.procs.onTask t fun task =>
      { task with state := .interruptible } }.goOn t (.asleep pid options),
      .slept)
  | .noChild => (s.goOn t .outside, .echild)

/-- A call of waitpid, its turns, and what other tasks do. -/
inductive Act
  | call (t : Fin 64) (pid options : BitVec 32)
  | turn (t : Fin 64)
  | resume (t : Fin 64)
  | fork (child : Fin 64) (task : ProcTask)
  | elsewhere (f : Fin 64 → ProcTask → ProcTask) (acct : Fin 64 → WaitAcct)
      (signal : Fin 64 → BitVec 32)

/-- One step. A sleeper that is scheduled again clears `SIGCHLD` and goes
on, or returns `EINTR` if another signal is pending. -/
def step (s : WaitSys) : Act → Option WaitSys
  | .call t pid options =>
    if s.frame t = .outside ∧ (s.procs t).isSome then
      some (s.goOn t (.looping pid options))
    else none
  | .turn t =>
    match s.procs t, s.frame t with
    | some caller, .looping pid options =>
      some (s.turn t caller pid options).1
    | _, _ => none
  | .resume t =>
    match s.procs t, s.frame t with
    | some task, .asleep pid options =>
      if task.state = .running then
        let pending := s.signal t &&& ~~~bit (sigChld - 1)
        let s := { s with signal := update s.signal t pending }
        if pending ≠ 0#32 then some (s.goOn t .outside)
        else some (s.goOn t (.looping pid options))
      else none
    | _, _ => none
  | .fork child task =>
    if s.procs child = none then
      some { s.goOn child .outside with
        procs := update s.procs child (some task)
        serial := update s.serial child (s.serial child + 1) }
    else none
  | .elsewhere f acct signal =>
    some { s with
      procs := fun slot => (s.procs slot).map (f slot)
      acct := acct
      signal := signal }

-- ======== the pass

/-- What the scan has found among the children. -/
inductive Found (cs : List (Fin 64 × ProcTask)) (u : Bool) : ScanResult → Prop
  | stopped (c : Fin 64 × ProcTask) (hc : c ∈ cs) (hstate : c.2.state = .stopped)
      (hu : u = true) : Found cs u (.stopped c.2.pid 0x7f#32)
  | zombie (c : Fin 64 × ProcTask) (hc : c ∈ cs)
      (hstate : c.2.state = .zombie) :
      Found cs u (.zombie c.1 c.2.pid c.2.exitCode)
  | needWait (hquiet : ∀ c ∈ cs, c.2.state ≠ .zombie
        ∧ (c.2.state = .stopped → u = false))
      (halive : ∃ c ∈ cs, c.2.state ≠ .stopped ∧ c.2.state ≠ .zombie) :
      Found cs u .needWait
  | noChild (hall : ∀ c ∈ cs, c.2.state = .stopped ∧ u = false) :
      Found cs u .noChild

/-- The scan tells the first child to be reported, or why there is none. -/
theorem scan_found (procs : ProcSys) (t : Fin 64) (caller : ProcTask)
    (pid : BitVec 32) (u : Bool) :
    Found (procs.children t caller pid) u (procs.scan t caller pid u) := by
  unfold ProcSys.scan
  generalize procs.children t caller pid = cs
  dsimp only
  split
  next result hfind =>
    obtain ⟨c, hc, hreport⟩ := List.exists_of_findSome?_eq_some hfind
    obtain ⟨slot, task⟩ := c
    split at hreport
    next hstate =>
      obtain ⟨hu, hresult⟩ := Option.ite_none_right_eq_some.mp hreport
      cases hresult
      exact .stopped (slot, task) hc hstate hu
    next hstate =>
      cases hreport
      exact .zombie (slot, task) hc hstate
    next => cases hreport
  next hfind =>
    have hquiet : ∀ c ∈ cs, c.2.state ≠ .zombie
        ∧ (c.2.state = .stopped → u = false) := by
      intro c hc
      have hno := List.findSome?_eq_none_iff.mp hfind c hc
      obtain ⟨slot, task⟩ := c
      cases hstate : task.state with
      | stopped =>
        rw [hstate] at hno
        cases u with
        | true => cases hno
        | false => exact ⟨nofun, fun _ => rfl⟩
      | zombie =>
        rw [hstate] at hno
        cases hno
      | running => exact ⟨nofun, nofun⟩
      | interruptible => exact ⟨nofun, nofun⟩
      | uninterruptible => exact ⟨nofun, nofun⟩
    split
    next hany =>
      obtain ⟨c, hc, halive⟩ := List.any_eq_true.mp hany
      exact .needWait hquiet ⟨c, hc, of_decide_eq_true halive⟩
    next hany =>
      apply Found.noChild
      intro c hc
      have hstopped : c.2.state = .stopped := by
        by_contra hne
        exact hany (List.any_eq_true.mpr
          ⟨c, hc, decide_eq_true ⟨hne, (hquiet c hc).1⟩⟩)
      exact ⟨hstopped, (hquiet c hc).2 hstopped⟩

-- ======== the books

/-- What was reaped stays so: every entry is about a task that a slot had
before, or about the last one of a slot that is empty. -/
structure Books (s : WaitSys) : Prop where
  nodup : s.reaped.Nodup
  past : ∀ e ∈ s.reaped, e.2 < s.serial e.1
    ∨ e.2 = s.serial e.1 ∧ s.procs e.1 = none

theorem Books.congr {s s' : WaitSys} (h : s.Books)
    (hprocs : ∀ slot, s.procs slot = none → s'.procs slot = none)
    (hserial : s'.serial = s.serial) (hreaped : s'.reaped = s.reaped) :
    s'.Books := by
  refine ⟨hreaped ▸ h.nodup, fun e he => ?_⟩
  rw [hreaped] at he
  rw [hserial]
  rcases h.past e he with hlt | ⟨heq, hnone⟩
  · exact .inl hlt
  · exact .inr ⟨heq, hprocs e.1 hnone⟩

theorem Books.reap {s : WaitSys} (h : s.Books) (t : Fin 64) {slot : Fin 64}
    {task : ProcTask} (hslot : s.procs slot = some task) :
    (s.reap t slot).Books := by
  refine ⟨List.nodup_cons.mpr ⟨fun hmem => ?_, h.nodup⟩, fun e he => ?_⟩
  · rcases h.past _ hmem with hlt | ⟨-, hnone⟩
    · exact Nat.lt_irrefl _ hlt
    · rw [hslot] at hnone
      cases hnone
  · rcases List.mem_cons.mp he with rfl | he
    · exact .inr ⟨rfl, update_self ..⟩
    · rcases h.past e he with hlt | ⟨heq, hnone⟩
      · exact .inl hlt
      · refine .inr ⟨heq, ?_⟩
        show update s.procs slot none e.1 = none
        by_cases hsame : e.1 = slot
        · rw [hsame, update_self]
        · rw [update_of_ne hsame]
          exact hnone

theorem mem_children {procs : ProcSys} {t : Fin 64} {caller : ProcTask}
    {pid : BitVec 32} {c : Fin 64 × ProcTask}
    (h : c ∈ procs.children t caller pid) : procs c.1 = some c.2 := by
  obtain ⟨slot, -, hbind⟩ := List.mem_filterMap.mp h
  obtain ⟨task, htask, hif⟩ := Option.bind_eq_some_iff.mp hbind
  obtain ⟨-, hif⟩ := Option.ite_none_right_eq_some.mp hif
  cases hif
  exact htask

theorem onTask_none {procs : ProcSys} {t : Fin 64} {f : ProcTask → ProcTask}
    {slot : Fin 64} (h : procs slot = none) : procs.onTask t f slot = none := by
  unfold ProcSys.onTask
  by_cases hslot : slot = t
  · subst hslot
    rw [update_self, h]
    rfl
  · rw [update_of_ne hslot]
    exact h

theorem Books.turn {s : WaitSys} (h : s.Books) (t : Fin 64) (caller : ProcTask)
    (pid options : BitVec 32) : (s.turn t caller pid options).1.Books := by
  have hfound := scan_found s.procs t caller pid (untraced options)
  unfold WaitSys.turn
  generalize s.procs.scan t caller pid (untraced options) = result
    at hfound ⊢
  cases hfound with
  | stopped c hc hstate hu => exact h.congr (fun _ h => h) rfl rfl
  | zombie c hc hstate =>
    exact (h.reap t (mem_children hc)).congr (fun _ h => h) rfl rfl
  | needWait hquiet halive =>
    dsimp only
    split
    · exact h.congr (fun _ h => h) rfl rfl
    · exact h.congr (fun _ h => onTask_none h) rfl rfl
  | noChild hall => exact h.congr (fun _ h => h) rfl rfl

/-- Every death is booked once: as a zombie, or as reaped. -/
theorem Books.step {s s' : WaitSys} (h : s.Books) {a : Act}
    (hstep : s.step a = some s') : s'.Books := by
  cases a with
  | call t pid options =>
    obtain ⟨-, hstep⟩ := Option.ite_none_right_eq_some.mp hstep
    cases hstep
    exact h.congr (fun _ h => h) rfl rfl
  | turn t =>
    simp only [WaitSys.step] at hstep
    split at hstep
    next caller pid options hcaller hframe =>
      cases hstep
      exact h.turn t caller pid options
    next => cases hstep
  | resume t =>
    simp only [WaitSys.step] at hstep
    split at hstep
    next task pid options htask hframe =>
      obtain ⟨-, hstep⟩ := Option.ite_none_right_eq_some.mp hstep
      split at hstep
      · cases hstep
        exact h.congr (fun _ h => h) rfl rfl
      · cases hstep
        exact h.congr (fun _ h => h) rfl rfl
    next => cases hstep
  | fork child task =>
    obtain ⟨hfree, hstep⟩ := Option.ite_none_right_eq_some.mp hstep
    cases hstep
    refine ⟨h.nodup, fun e he => ?_⟩
    show e.2 < update s.serial child (s.serial child + 1) e.1
      ∨ e.2 = update s.serial child (s.serial child + 1) e.1
        ∧ update s.procs child (some task) e.1 = none
    by_cases hchild : e.1 = child
    · subst hchild
      rw [update_self]
      rcases h.past e he with hlt | ⟨heq, -⟩
      · exact .inl (by omega)
      · exact .inl (by omega)
    · rw [update_of_ne hchild, update_of_ne hchild]
      exact h.past e he
  | elsewhere f acct signal =>
    cases hstep
    exact h.congr (fun slot hnone => congrArg (Option.map (f slot)) hnone) rfl rfl

-- ======== the law

/-- What a pass of `waitpid` owes its caller. -/
structure Law (s : WaitSys) (t : Fin 64) (caller : ProcTask)
    (pid options : BitVec 32) : Prop where
  /-- `ECHILD` only without a matching child. -/
  echild : (s.turn t caller pid options).2 = .echild →
    s.procs.children t caller pid = []
  /-- With nothing to report, a live child makes the call sleep, or return
  0 if it must not. -/
  waits : (∃ c ∈ s.procs.children t caller pid, c.2.state ≠ .zombie) →
    (∀ c ∈ s.procs.children t caller pid, c.2.state ≠ .zombie
      ∧ (c.2.state = .stopped → untraced options = false)) →
    (s.turn t caller pid options).2 = if nohang options then .zero else .slept
  /-- A zombie is reaped: its status is handed out and its slot freed. -/
  reaps : (∃ c ∈ s.procs.children t caller pid, c.2.state = .zombie) →
    (∀ c ∈ s.procs.children t caller pid,
      c.2.state = .stopped → untraced options = false) →
    ∃ c ∈ s.procs.children t caller pid, c.2.state = .zombie
      ∧ s.turn t caller pid options
        = ((s.reap t c.1).goOn t .outside, .reported c.2.pid c.2.exitCode)
  /-- No task is reaped twice. -/
  once : (s.turn t caller pid options).1.reaped.Nodup

/-- The way to break the law: there are matching children, all of them
stopped, and nobody asks for stopped ones. -/
def Overlooks (s : WaitSys) (t : Fin 64) (caller : ProcTask)
    (pid options : BitVec 32) : Prop :=
  s.procs.children t caller pid ≠ [] ∧ untraced options = false
    ∧ ∀ c ∈ s.procs.children t caller pid, c.2.state = .stopped

/-- In every run, from every table: a pass keeps the law if and only if it
does not overlook stopped children. -/
theorem waitpid_law_iff {procs : ProcSys} {acct : Fin 64 → WaitAcct}
    {signal : Fin 64 → BitVec 32} {s : WaitSys}
    (h : Reachable WaitSys.step (WaitSys.start procs acct signal) s)
    (t : Fin 64) (caller : ProcTask) (pid options : BitVec 32) :
    s.Law t caller pid options ↔ ¬ s.Overlooks t caller pid options := by
  have hbooks : s.Books := by
    refine h.invariant ⟨List.nodup_nil, nofun⟩ ?_
    exact fun _ _ _ hs hstep => hs.step hstep
  have honce := (hbooks.turn t caller pid options).nodup
  have hfound := scan_found s.procs t caller pid (untraced options)
  constructor
  · intro hlaw hover
    obtain ⟨hsome, hu, hall⟩ := hover
    apply hsome
    apply hlaw.echild
    unfold WaitSys.turn
    rw [hu] at hfound ⊢
    generalize s.procs.scan t caller pid false = result at hfound ⊢
    cases hfound with
    | stopped c hc hstate hno => cases hno
    | zombie c hc hstate =>
      rw [hall c hc] at hstate
      cases hstate
    | needWait hquiet halive =>
      obtain ⟨c, hc, hrun, -⟩ := halive
      exact absurd (hall c hc) hrun
    | noChild hstopped => rfl
  · intro hover
    generalize hscan : s.procs.scan t caller pid (untraced options) = result
      at hfound
    cases hfound with
    | stopped c hc hstate hu =>
      have hturn : s.turn t caller pid options
          = (s.goOn t .outside, .reported c.2.pid 0x7f#32) := by
        unfold WaitSys.turn
        rw [hscan]
      refine ⟨fun hno => ?_, fun _ hquiet => ?_, fun _ hquiet => ?_, honce⟩
      · rw [hturn] at hno
        cases hno
      · rw [(hquiet c hc).2 hstate] at hu
        cases hu
      · rw [hquiet c hc hstate] at hu
        cases hu
    | zombie c hc hstate =>
      have hturn : s.turn t caller pid options = ((s.reap t c.1).goOn t
          .outside, .reported c.2.pid c.2.exitCode) := by
        unfold WaitSys.turn
        rw [hscan]
      refine ⟨fun hno => ?_, fun _ hquiet => ?_, fun _ _ => ?_, honce⟩
      · rw [hturn] at hno
        cases hno
      · exact absurd hstate (hquiet c hc).1
      · exact ⟨c, hc, hstate, hturn⟩
    | needWait hquiet halive =>
      have hout : (s.turn t caller pid options).2
          = if nohang options then .zero else .slept := by
        unfold WaitSys.turn
        rw [hscan]
        dsimp only
        split <;> rfl
      refine ⟨fun hno => ?_, fun _ _ => hout, fun hzombie _ => ?_, honce⟩
      · rw [hout] at hno
        split at hno
        · cases hno
        · cases hno
      · obtain ⟨c, hc, hstate⟩ := hzombie
        exact absurd hstate (hquiet c hc).1
    | noChild hall =>
      -- no child at all, as stopped ones are not overlooked
      have hempty : s.procs.children t caller pid = [] := by
        by_contra hsome
        obtain ⟨c, hc⟩ := List.exists_mem_of_ne_nil _ hsome
        exact hover ⟨hsome, (hall c hc).2, fun c hc => (hall c hc).1⟩
      refine ⟨fun _ => hempty, fun hlive _ => ?_, fun hzombie _ => ?_, honce⟩
      · obtain ⟨c, hc, -⟩ := hlive
        rw [hempty] at hc
        cases hc
      · obtain ⟨c, hc, -⟩ := hzombie
        rw [hempty] at hc
        cases hc

def family (state : TaskState) : ProcSys := fun slot =>
  if slot.val = 1 then some ⟨5#32, 1#32, 5#32, .running, 0#32, none⟩
  else if slot.val = 2 then some ⟨6#32, 5#32, 5#32, state, 0x100#32, none⟩
  else none

def familySys (state : TaskState) : WaitSys :=
  start (family state) (fun _ => ⟨0#32, 0#32, 0#32, 0#32⟩) fun _ => 0#32

/-- The pass over a zombie child keeps the law. -/
theorem waitpid_law_zombie : (familySys .zombie).Law ⟨1, by decide⟩
      ⟨5#32, 1#32, 5#32, .running, 0#32, none⟩ (-1#32) 0#32 := by
  apply (waitpid_law_iff .refl _ _ _ _).mpr
  intro h
  have hstate := h.2.2 (⟨2, by decide⟩,
    ⟨6#32, 5#32, 5#32, .zombie, 0x100#32, none⟩) (by decide)
  cases hstate

/-- A stopped child that nobody asks for: `ECHILD`, though it is there. -/
theorem waitpid_stopped_echild : ((familySys .stopped).turn ⟨1, by decide⟩
        ⟨5#32, 1#32, 5#32, .running, 0#32, none⟩ (-1#32) 0#32).2 = .echild
      ∧ ∃ c, c ∈ (familySys .stopped).procs.children ⟨1, by decide⟩
          ⟨5#32, 1#32, 5#32, .running, 0#32, none⟩ (-1#32)
        ∧ c.2.pid = 6#32 := by
  refine ⟨by decide, (⟨2, by decide⟩,
    ⟨6#32, 5#32, 5#32, .stopped, 0x100#32, none⟩), by decide, rfl⟩

end WaitSys

end LinuxRs.Task
