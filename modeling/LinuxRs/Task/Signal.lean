/-
Signals (kernel/src/signal.rs, syscall/handler/process/signal.rs): the
masks and handlers of every task, and the delivery of one pending signal
on the way back to user mode.

# Who changes the blocked mask

`ssetmask` stores the user's mask without the `SIGKILL` bit. `fork`
copies the parent's mask. Delivery adds the `sa_mask` of the handler,
which `sigaction` takes from the user as it is: this is the one source
that nobody filters, and `Unfiltered` names the deliveries it reaches.
-/
import LinuxRs.Lib.Run
import Mathlib.Data.List.FinRange
import Mathlib.Logic.Function.Basic

namespace LinuxRs.Task

open LinuxRs.Lib
open Function (update update_self update_of_ne)

universe u

-- ======== one task

abbrev nsig : Nat := 32

def sigKill : Nat := 9

def sigChld : Nat := 17

def sigStop : Nat := 19

def sigTstp : Nat := 20

def sigDefault : BitVec 32 := 0#32

def sigIgnore : BitVec 32 := 1#32

def noMask : BitVec 32 := 0x40000000#32

def oneShot : BitVec 32 := 0x80000000#32

structure SigAction where
  saHandler : BitVec 32
  saMask : BitVec 32
  saFlags : BitVec 32
  saRestorer : BitVec 32

/-- `TaskSignalInfo`, without the alarm time. -/
structure TaskSignalInfo where
  signal : BitVec 32
  blocked : BitVec 32
  sigaction : Fin nsig → SigAction

def TaskSignalInfo.default : TaskSignalInfo :=
  ⟨0#32, 0#32, fun _ => ⟨0#32, 0#32, 0#32, 0#32⟩⟩

def bit (i : Nat) : BitVec 32 := 1#32 <<< i

def TaskSignalInfo.raise (info : TaskSignalInfo) (i : Fin nsig) :
    TaskSignalInfo :=
  { info with signal := info.signal ||| bit i.val }

def TaskSignalInfo.clear (info : TaskSignalInfo) (i : Fin nsig) :
    TaskSignalInfo :=
  { info with signal := info.signal &&& ~~~bit i.val }

def TaskSignalInfo.setAction (info : TaskSignalInfo) (i : Fin nsig)
    (sa : SigAction) : TaskSignalInfo :=
  { info with sigaction := update info.sigaction i sa }

structure DeliverAction where
  handler : BitVec 32
  restorer : BitVec 32
  signalNumber : Nat
  blocked : BitVec 32
  saFlags : BitVec 32
  saMask : BitVec 32

inductive PendingSignalAction
  | none
  | deliver (action : DeliverAction)
  | stop
  | exit (signalNumber : Nat)

def TaskSignalInfo.pending (info : TaskSignalInfo) : Option (Fin nsig) :=
  (List.finRange nsig).find? fun i =>
    (info.signal &&& ~~~info.blocked).getLsbD i.val

/-- The first half of `handle_pending_signal`: take one signal and decide
what happens. -/
def TaskSignalInfo.takeSignal (info : TaskSignalInfo) :
    TaskSignalInfo × PendingSignalAction :=
  match info.pending with
  | Option.none => (info, .none)
  | some i =>
    let info := info.clear i
    let sa := info.sigaction i
    let signalNumber := i.val + 1
    if sa.saHandler = sigIgnore then (info, .none)
    else if sa.saHandler = sigDefault then
      if signalNumber = sigChld then (info, .none)
      else if signalNumber = sigStop ∨ signalNumber = sigTstp then
        (info, .stop)
      else (info, .exit signalNumber)
    else
      let act : DeliverAction := ⟨sa.saHandler, sa.saRestorer, signalNumber,
        info.blocked, sa.saFlags, sa.saMask⟩
      if sa.saFlags &&& oneShot ≠ 0#32 then
        (info.setAction i { sa with saHandler := 0#32 }, .deliver act)
      else (info, .deliver act)

/-- `handle_pending_signal` on a return to user mode. `pushed` says that
`deliver_signal` comes back: writing the frame may kill the task. -/
def TaskSignalInfo.handlePending (info : TaskSignalInfo) (pushed : Bool) :
    TaskSignalInfo :=
  match info.takeSignal with
  | (info, .deliver act) =>
    if pushed then { info with blocked := info.blocked ||| act.saMask }
    else info
  | (info, _) => info

/-- The checked signal number of `signal` and `sigaction`, as an index. -/
def signalIndex (signalNumber : BitVec 32) : Option (Fin nsig) :=
  if h : 1 ≤ signalNumber.toNat ∧ signalNumber.toNat ≤ nsig ∧
      signalNumber.toNat ≠ sigKill then
    some ⟨signalNumber.toNat - 1, by omega⟩
  else Option.none

/-- `sys_signal`; a refused number changes nothing. -/
def TaskSignalInfo.sysSignal (info : TaskSignalInfo)
    (signalNumber handler restorer : BitVec 32) : TaskSignalInfo :=
  match signalIndex signalNumber with
  | Option.none => info
  | some i => info.setAction i ⟨handler, 0#32, oneShot ||| noMask, restorer⟩

/-- `sys_sigaction`; `action` is what the user's pointer holds, if it is
not null. -/
def TaskSignalInfo.sysSigaction (info : TaskSignalInfo)
    (signalNumber : BitVec 32) (action : Option SigAction) :
    TaskSignalInfo :=
  match signalIndex signalNumber with
  | Option.none => info
  | some i =>
    let current := action.getD (info.sigaction i)
    let mask :=
      if current.saFlags &&& noMask = 0#32 then current.saMask ||| bit i.val
      else 0#32
    info.setAction i { current with saMask := mask }

def TaskSignalInfo.sysSsetmask (info : TaskSignalInfo)
    (newmask : BitVec 32) : TaskSignalInfo :=
  { info with blocked := newmask &&& ~~~bit (sigKill - 1) }

def TaskSignalInfo.forked (info : TaskSignalInfo) : TaskSignalInfo :=
  { info with signal := 0#32 }

/-- `sys_execve` resets the handlers, and nothing but the handlers. -/
def TaskSignalInfo.execve (info : TaskSignalInfo) : TaskSignalInfo :=
  { info with sigaction := fun i =>
      { info.sigaction i with saHandler := 0#32 } }

-- ======== the system

variable {T : Type u} [DecidableEq T]

abbrev SigSys (T : Type u) := T → Option TaskSignalInfo

def SigSys.boot (idle : T) : SigSys T :=
  update (fun _ => Option.none) idle (some .default)

/-- What happens to a task's signals. -/
inductive SigOp (T : Type u)
  | signal (t : T) (signalNumber handler restorer : BitVec 32)
  | sigaction (t : T) (signalNumber : BitVec 32) (action : Option SigAction)
  | ssetmask (t : T) (newmask : BitVec 32)
  | fork (parent child : T)
  | execve (t : T)
  | raise (t : T) (i : Fin nsig)
  | handlePending (t : T) (pushed : Bool)
  | reap (t : T)

def SigSys.onTask (s : SigSys T) (t : T)
    (f : TaskSignalInfo → TaskSignalInfo) : Option (SigSys T) :=
  (s t).map fun info => update s t (some (f info))

def SigSys.step (s : SigSys T) : SigOp T → Option (SigSys T)
  | .signal t n handler restorer =>
    s.onTask t (·.sysSignal n handler restorer)
  | .sigaction t n action => s.onTask t (·.sysSigaction n action)
  | .ssetmask t newmask => s.onTask t (·.sysSsetmask newmask)
  | .fork parent child =>
    match s parent, s child with
    | some info, Option.none => some (update s child (some info.forked))
    | _, _ => Option.none
  | .execve t => s.onTask t (·.execve)
  | .raise t i => s.onTask t (·.raise i)
  | .handlePending t pushed => s.onTask t (·.handlePending pushed)
  | .reap t => some (update s t Option.none)

-- ======== the law

/-- The blocked mask leaves `SIGKILL` alone. -/
def TaskSignalInfo.Killable (info : TaskSignalInfo) : Prop :=
  info.blocked.getLsbD (sigKill - 1) = false

def SigSys.Killable (s : SigSys T) : Prop :=
  ∀ t info, s t = some info → info.Killable

/-- The signal that would be delivered next has a handler whose mask holds
`SIGKILL`. -/
def TaskSignalInfo.Unfiltered (info : TaskSignalInfo) : Prop :=
  ∃ act, info.takeSignal.2 = .deliver act ∧
    act.saMask.getLsbD (sigKill - 1) = true

/-- The step delivers a signal to a handler whose mask holds `SIGKILL`. -/
def SigSys.Unfiltered (s : SigSys T) (op : SigOp T) : Prop :=
  ∃ t info, op = .handlePending t true ∧ s t = some info ∧ info.Unfiltered

theorem TaskSignalInfo.takeSignal_blocked (info : TaskSignalInfo) :
    info.takeSignal.1.blocked = info.blocked := by
  unfold takeSignal
  cases info.pending with
  | none => rfl
  | some i =>
    dsimp only
    split
    · rfl
    · split
      · split
        · rfl
        · split <;> rfl
      · split <;> rfl

theorem TaskSignalInfo.handlePending_killable_iff {info : TaskSignalInfo}
    (h : info.Killable) (pushed : Bool) : (info.handlePending pushed).Killable
      ↔ ¬ (pushed = true ∧ info.Unfiltered) := by
  have hb := info.takeSignal_blocked
  unfold handlePending Unfiltered
  generalize info.takeSignal = r at hb
  obtain ⟨info', action⟩ := r
  dsimp only at hb
  unfold Killable at h ⊢
  cases action with
  | none => simp [hb, h]
  | stop => simp [hb, h]
  | exit n => simp [hb, h]
  | deliver act =>
    cases pushed with
    | false => simp [hb, h]
    | true => simp [hb, h]

theorem TaskSignalInfo.sysSsetmask_killable (info : TaskSignalInfo)
    (newmask : BitVec 32) : (info.sysSsetmask newmask).Killable := by
  simp [Killable, sysSsetmask, bit, sigKill]

theorem TaskSignalInfo.sysSignal_blocked (info : TaskSignalInfo)
    (n handler restorer : BitVec 32) :
    (info.sysSignal n handler restorer).blocked = info.blocked := by
  unfold sysSignal
  cases signalIndex n <;> rfl

theorem TaskSignalInfo.sysSigaction_blocked (info : TaskSignalInfo)
    (n : BitVec 32) (action : Option SigAction) :
    (info.sysSigaction n action).blocked = info.blocked := by
  unfold sysSigaction
  cases signalIndex n <;> rfl

theorem SigSys.onTask_killable_iff {s s' : SigSys T} (h : s.Killable) {t : T}
    {f : TaskSignalInfo → TaskSignalInfo} (hs : s.onTask t f = some s') :
    s'.Killable ↔ ∀ info, s t = some info → (f info).Killable := by
  obtain ⟨info, hinfo, rfl⟩ := Option.map_eq_some_iff.mp hs
  constructor
  · intro hk i hi
    rw [hinfo] at hi
    cases hi
    exact hk t _ (update_self ..)
  · intro hf u i hu
    by_cases hut : u = t
    · subst hut
      rw [update_self] at hu
      cases hu
      exact hf info hinfo
    · rw [update_of_ne hut] at hu
      exact h u i hu

theorem SigSys.onTask_killable_of_blocked {s s' : SigSys T} (h : s.Killable)
    {t : T} {f : TaskSignalInfo → TaskSignalInfo} (hs : s.onTask t f = some s')
    (hf : ∀ info, (f info).blocked = info.blocked) : s'.Killable := by
  apply (SigSys.onTask_killable_iff h hs).mpr
  intro info hinfo
  show (f info).blocked.getLsbD _ = false
  rw [hf]
  exact h t info hinfo

/-- A task can be killed after a step unless the step blocks what cannot be
blocked. -/
theorem SigSys.step_killable_iff {s s' : SigSys T} (h : s.Killable)
    {op : SigOp T} (hs : s.step op = some s') :
    s'.Killable ↔ ¬ s.Unfiltered op := by
  have hno : (∀ t, op ≠ .handlePending t true) → ¬ s.Unfiltered op := by
    intro hop hun
    obtain ⟨t, -, heq, -⟩ := hun
    exact hop t heq
  cases op with
  | signal t n handler restorer =>
    refine iff_of_true ?_ (hno nofun)
    exact onTask_killable_of_blocked h hs fun info =>
      info.sysSignal_blocked n handler restorer
  | sigaction t n action =>
    refine iff_of_true ?_ (hno nofun)
    exact onTask_killable_of_blocked h hs fun info =>
      info.sysSigaction_blocked n action
  | ssetmask t newmask =>
    refine iff_of_true ?_ (hno nofun)
    apply (SigSys.onTask_killable_iff h hs).mpr
    exact fun info _ => info.sysSsetmask_killable newmask
  | execve t =>
    refine iff_of_true ?_ (hno nofun)
    exact onTask_killable_of_blocked h hs fun _ => rfl
  | raise t i =>
    refine iff_of_true ?_ (hno nofun)
    exact onTask_killable_of_blocked h hs fun _ => rfl
  | reap t =>
    refine iff_of_true ?_ (hno nofun)
    cases hs
    intro u info hu
    by_cases hut : u = t
    · subst hut
      rw [update_self] at hu
      cases hu
    · rw [update_of_ne hut] at hu
      exact h u info hu
  | fork parent child =>
    refine iff_of_true ?_ (hno nofun)
    simp only [SigSys.step] at hs
    split at hs
    next info hp hc =>
      cases hs
      intro u i hu
      by_cases huc : u = child
      · subst huc
        rw [update_self] at hu
        cases hu
        exact h parent info hp
      · rw [update_of_ne huc] at hu
        exact h u i hu
    next => cases hs
  | handlePending t pushed =>
    rw [SigSys.onTask_killable_iff h hs]
    obtain ⟨info, hinfo, -⟩ := Option.map_eq_some_iff.mp hs
    have hiff := TaskSignalInfo.handlePending_killable_iff (h t info hinfo)
      pushed
    constructor
    · intro hf hun
      obtain ⟨u, i, heq, hi, hbad⟩ := hun
      obtain ⟨rfl, rfl⟩ := SigOp.handlePending.inj heq
      rw [hinfo] at hi
      cases hi
      exact hiff.mp (hf info hinfo) ⟨rfl, hbad⟩
    · intro hun i hi
      rw [hinfo] at hi
      cases hi
      apply hiff.mpr
      intro hbad
      obtain ⟨rfl, hbad⟩ := hbad
      exact hun ⟨t, info, rfl, hinfo, hbad⟩

-- ======== the result

/-- In a run from boot no task ever blocks `SIGKILL`, exactly if no step
delivers a signal to a handler whose `sa_mask` holds its bit. -/
theorem sigkill_unblocked_iff (idle : T) (ops : List (SigOp T)) :
    (∀ s ∈ visited SigSys.step (SigSys.boot idle) ops, s.Killable) ↔
      Guarded SigSys.step (fun s op => ¬ s.Unfiltered op)
        (SigSys.boot idle) ops := by
  apply visited_iff_guarded (I := SigSys.Killable)
  · exact fun s h => h
  · exact fun s op s' h hg hs => (SigSys.step_killable_iff h hs).mpr hg
  · exact fun s op s' h hg hs hk => hg ((SigSys.step_killable_iff h hs).mp hk)
  · intro t info ht
    unfold SigSys.boot at ht
    by_cases hti : t = idle
    · subst hti
      rw [update_self] at ht
      cases ht
      rfl
    · rw [update_of_ne hti] at ht
      cases ht

/-- A task asks that `SIGHUP` be handled with all signals blocked, and
gets one. -/
def blockAll : List (SigOp Bool) :=
  [.sigaction false 1#32 (some ⟨0x1000#32, 0xffffffff#32, 0#32, 0x2000#32⟩),
    .raise false 0, .handlePending false true]

/-- It then blocks `SIGKILL`. -/
theorem sigkill_blocked_by_handler_mask :
    (run SigSys.step (SigSys.boot false) blockAll).bind
      (fun s => (s false).map (·.blocked.getLsbD (sigKill - 1)))
      = some true := by
  decide

end LinuxRs.Task
