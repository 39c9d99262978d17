/-
Lazy FPU switching (kernel/src/fpu.rs) under hardware task switches that
set `CR0.TS`, on a machine with an FPU.

# Two levels

`FpuSys` is the code: one register file, the `TS` bit, the owner, and the
image and the `used` flag of each task. `FpuSpec` is what it is for: one
register state for each task. An FP instruction is a function on the
register file, and what it finds there is what its task observes.

# The gap

`reset_for_exec` gives up the ownership and forgets the image, but leaves
`TS` as it is. The owner runs with `TS` clear, so until the next task
switch its FP instructions run on the registers of the old program and
nobody owns what they leave behind. `Stale` names these instructions.
-/
import LinuxRs.Lib.Exec
import Mathlib.Logic.Function.Basic

namespace LinuxRs.Task

open LinuxRs.Lib
open Function (update update_self update_of_ne)

variable {T R : Type} [DecidableEq T]

-- ======== the code

/-- The processor and the FPU fields of the tasks. `started` says that a
task was switched to before, and so resumes inside `schedule`. -/
structure FpuSys (T R : Type) where
  current : T
  ts : Bool
  owner : Option T
  hw : R
  regs : T → R
  used : T → Bool
  alive : T → Bool
  started : T → Bool

/-- After `fpu::init`, with the idle task running. -/
def FpuSys.boot (idle : T) (hw image : R) : FpuSys T R where
  current := idle
  ts := true
  owner := none
  hw := hw
  regs := fun _ => image
  used := fun _ => false
  alive := fun t => t = idle
  started := fun t => t = idle

namespace FpuSys

/-- The end of `switch_in`, for a task that is not the owner: load its
image or initialise the FPU. -/
def load (s : FpuSys T R) (fninit : R) : FpuSys T R :=
  if s.used s.current then
    { s with owner := some s.current, hw := s.regs s.current }
  else
    { s with
      owner := some s.current
      hw := fninit
      used := update s.used s.current true }

def switchIn (s : FpuSys T R) (fninit : R) : FpuSys T R :=
  let s := { s with ts := false }
  if s.owner = some s.current then s
  else
    match s.owner with
    | some prev =>
      { s with regs := update s.regs prev s.hw }.load fninit
    | none => s.load fninit

def onResume (s : FpuSys T R) : FpuSys T R :=
  if s.owner = some s.current then { s with ts := false } else s

/-- A task switch: the processor sets `TS`, and a task that runs again
comes out of `schedule`. -/
def switchTo (s : FpuSys T R) (t : T) : FpuSys T R :=
  let s' := { s with
    current := t
    ts := true
    started := update s.started t true }
  if s.started t then s'.onResume else s'

/-- `snapshot_current`: the owner's registers are flushed and reloaded. -/
def snapshotCurrent (s : FpuSys T R) : FpuSys T R :=
  if s.owner = some s.current then
    { s with
      ts := false
      regs := update s.regs s.current s.hw }
  else s

def abandon (s : FpuSys T R) : FpuSys T R :=
  if s.owner = some s.current then { s with owner := none } else s

def resetForExec (s : FpuSys T R) : FpuSys T R :=
  { s.abandon with used := update s.used s.current false }

def fork (s : FpuSys T R) (child : T) : FpuSys T R :=
  let s := s.snapshotCurrent
  { s with
    regs := update s.regs child (s.regs s.current)
    used := update s.used child (s.used s.current)
    alive := update s.alive child true
    started := update s.started child false }

end FpuSys

-- ======== the steps

/-- Arithmetic, switches and the life of tasks. -/
inductive FpuOp (T R : Type)
  | fp (f : R → R)
  | switch (t : T)
  | fork (child : T)
  | exec
  | exit (next : T)

/-- One step; an FP instruction answers with the state it found. With
`TS` set it faults first and runs again after the handler. -/
def FpuSys.step (fninit : R) (s : FpuSys T R) :
    FpuOp T R → Option (FpuSys T R × Option R)
  | .fp f =>
    let s := if s.ts then s.switchIn fninit else s
    some ({ s with hw := f s.hw }, some s.hw)
  | .switch t => if s.alive t ∧ t ≠ s.current then some (s.switchTo t, none)
      else none
  | .fork child => if s.alive child then none else some (s.fork child, none)
  | .exec => some (s.resetForExec, none)
  | .exit next =>
    if s.alive next ∧ next ≠ s.current then
      some ({ s.abandon with
        alive := update s.alive s.current false }.switchTo next, none)
    else none

-- ======== what it is for

/-- Every task with floating-point registers of its own. -/
structure FpuSpec (T R : Type) where
  current : T
  regs : T → R
  alive : T → Bool

def FpuSpec.boot (idle : T) (fninit : R) : FpuSpec T R where
  current := idle
  regs := fun _ => fninit
  alive := fun t => t = idle

/-- One step: a child starts with its parent's state, a new program with
the initial one. -/
def FpuSpec.step (fninit : R) (s : FpuSpec T R) :
    FpuOp T R → Option (FpuSpec T R × Option R)
  | .fp f =>
    let r := s.regs s.current
    some ({ s with regs := update s.regs s.current (f r) }, some r)
  | .switch t =>
    if s.alive t ∧ t ≠ s.current then some ({ s with current := t }, none)
    else none
  | .fork child =>
    if s.alive child then none
    else
      some ({ s with
        regs := update s.regs child (s.regs s.current)
        alive := update s.alive child true }, none)
  | .exec =>
    some ({ s with regs := update s.regs s.current fninit }, none)
  | .exit next =>
    if s.alive next ∧ next ≠ s.current then
      some ({ s with
        current := next
        alive := update s.alive s.current false }, none)
    else none

-- ======== the relation

def FpuSys.saved (s : FpuSys T R) (fninit : R) (t : T) : R :=
  if s.used t then s.regs t else fninit

/-- Where each task's state lives: in the registers for the owner, in its
image for everybody else. With `TS` clear the running task is the owner,
or nobody is. -/
structure FpuSim (fninit : R) (a : FpuSpec T R) (s : FpuSys T R) : Prop where
  current : a.current = s.current
  alive : a.alive = s.alive
  live : s.alive s.current = true
  running : s.started s.current = true
  owned : ∀ t, s.owner = some t → s.hw = a.regs t ∧ s.used t = true ∧
    s.started t = true ∧ s.alive t = true
  image : ∀ t, s.alive t = true → s.owner ≠ some t →
    s.saved fninit t = a.regs t
  clear : s.ts = false → s.owner = some s.current ∨ s.owner = none

/-- An FP instruction with `TS` clear and no owner. -/
def FpuSys.Stale (s : FpuSys T R) (op : FpuOp T R) : Prop :=
  (∃ f, op = .fp f) ∧ s.ts = false ∧ s.owner ≠ some s.current

/-- Loading gives the task the registers it had. -/
theorem FpuSim.load {fninit : R} {a : FpuSpec T R} {s : FpuSys T R}
    (hcur : a.current = s.current) (halive : a.alive = s.alive)
    (hlive : s.alive s.current = true) (hrun : s.started s.current = true)
    (hall : ∀ t, s.alive t = true → s.saved fninit t = a.regs t) :
    FpuSim fninit a (s.load fninit) ∧
      (s.load fninit).owner = some (s.load fninit).current := by
  have hown := hall s.current hlive
  unfold FpuSys.saved at hown hall
  unfold FpuSys.load
  split
  next hu =>
    rw [if_pos hu] at hown
    refine ⟨⟨hcur, halive, hlive, hrun, ?_, ?_, fun _ => .inl rfl⟩, rfl⟩
    · intro t ht
      cases ht
      exact ⟨hown, hu, hrun, hlive⟩
    · intro t ht _
      exact hall t ht
  next hu =>
    rw [if_neg hu] at hown
    refine ⟨⟨hcur, halive, hlive, hrun, ?_, ?_, fun _ => .inl rfl⟩, rfl⟩
    · intro t ht
      cases ht
      exact ⟨hown, update_self .., hrun, hlive⟩
    · intro t ht hne
      have htc : t ≠ s.current := fun heq => hne (by rw [heq])
      show (if update s.used s.current true t then s.regs t
        else fninit) = a.regs t
      rw [update_of_ne htc]
      exact hall t ht

/-- The task that comes in gets its registers when it uses them. -/
theorem FpuSim.switchIn {fninit : R} {a : FpuSpec T R} {s : FpuSys T R}
    (h : FpuSim fninit a s) : FpuSim fninit a (s.switchIn fninit) ∧
      (s.switchIn fninit).owner = some (s.switchIn fninit).current := by
  obtain ⟨hcur, halive, hlive, hrun, howned, himage, hclear⟩ := h
  unfold FpuSys.switchIn
  dsimp only
  split
  next hown =>
    exact ⟨⟨hcur, halive, hlive, hrun, howned, himage, fun _ => .inl hown⟩,
      hown⟩
  next hown =>
    split
    next prev hprev =>
      obtain ⟨hhw, hused, -, -⟩ := howned prev hprev
      refine FpuSim.load ?_ ?_ ?_ ?_ fun t ht => ?_
      · exact hcur
      · exact halive
      · exact hlive
      · exact hrun
      -- The previous owner's image is fresh now, the others were.
      show (if s.used t then update s.regs prev s.hw t else fninit) = a.regs t
      by_cases htp : t = prev
      · subst htp
        rw [if_pos hused, update_self]
        exact hhw
      · rw [update_of_ne htp]
        exact himage t ht (fun heq => htp (by
          rw [hprev] at heq
          exact (Option.some.inj heq).symm))
    next hnone =>
      refine FpuSim.load ?_ ?_ ?_ ?_ fun t ht => ?_
      · exact hcur
      · exact halive
      · exact hlive
      · exact hrun
      · exact himage t ht (by rw [hnone]; exact nofun)

theorem FpuSim.instruction {fninit : R} {a : FpuSpec T R} {s : FpuSys T R}
    (h : FpuSim fninit a s) (hown : s.owner = some s.current) (f : R → R) :
    s.hw = a.regs a.current ∧ FpuSim fninit ⟨a.current,
          update a.regs a.current (f (a.regs a.current)), a.alive⟩
        { s with hw := f s.hw } := by
  obtain ⟨hcur, halive, hlive, hrun, howned, himage, hclear⟩ := h
  obtain ⟨hhw, hused, hstarted, -⟩ := howned s.current hown
  rw [hcur]
  refine ⟨hhw, rfl, halive, hlive, hrun, ?_, ?_, hclear⟩
  · intro t ht
    dsimp only at ht ⊢
    rw [hown] at ht
    cases ht
    rw [update_self, hhw]
    exact ⟨rfl, hused, hstarted, hlive⟩
  · intro t ht hne
    dsimp only at hne ⊢
    have htc : t ≠ s.current := fun heq => hne (by rw [heq]; exact hown)
    rw [update_of_ne htc]
    exact himage t ht hne

/-- The task that goes out leaves its registers in the unit or in memory. -/
theorem FpuSim.switchTo {fninit : R} {a : FpuSpec T R} {s : FpuSys T R} {t : T}
    (halive : a.alive = s.alive) (ht : s.alive t = true)
    (howned : ∀ t, s.owner = some t → s.hw = a.regs t ∧ s.used t = true ∧
      s.started t = true ∧ s.alive t = true)
    (himage : ∀ t, s.alive t = true → s.owner ≠ some t →
      s.saved fninit t = a.regs t) :
    FpuSim fninit { a with current := t } (s.switchTo t) := by
  have howned' : ∀ u, s.owner = some u → s.hw = a.regs u ∧ s.used u = true ∧
      update s.started t true u = true ∧ s.alive u = true := by
    intro u hu
    obtain ⟨hhw, hused, hst, hal⟩ := howned u hu
    refine ⟨hhw, hused, ?_, hal⟩
    by_cases hut : u = t
    · rw [hut, update_self]
    · rw [update_of_ne hut]
      exact hst
  unfold FpuSys.switchTo FpuSys.onResume
  dsimp only
  split
  next =>
    split
    next hown =>
      exact ⟨rfl, halive, ht, update_self .., howned', himage,
        fun _ => .inl hown⟩
    next =>
      exact ⟨rfl, halive, ht, update_self .., howned', himage, nofun⟩
  next =>
    exact ⟨rfl, halive, ht, update_self .., howned', himage, nofun⟩

@[simp] theorem FpuSys.abandon_current (s : FpuSys T R) :
    s.abandon.current = s.current := by
  unfold FpuSys.abandon
  split <;> rfl

@[simp] theorem FpuSys.abandon_alive (s : FpuSys T R) :
    s.abandon.alive = s.alive := by
  unfold FpuSys.abandon
  split <;> rfl

@[simp] theorem FpuSys.abandon_started (s : FpuSys T R) :
    s.abandon.started = s.started := by
  unfold FpuSys.abandon
  split <;> rfl

@[simp] theorem FpuSys.abandon_used (s : FpuSys T R) :
    s.abandon.used = s.used := by
  unfold FpuSys.abandon
  split <;> rfl

@[simp] theorem FpuSys.abandon_regs (s : FpuSys T R) :
    s.abandon.regs = s.regs := by
  unfold FpuSys.abandon
  split <;> rfl

@[simp] theorem FpuSys.abandon_hw (s : FpuSys T R) : s.abandon.hw = s.hw := by
  unfold FpuSys.abandon
  split <;> rfl

@[simp] theorem FpuSys.abandon_ts (s : FpuSys T R) : s.abandon.ts = s.ts := by
  unfold FpuSys.abandon
  split <;> rfl

theorem FpuSys.owner_of_abandon {s : FpuSys T R} {t : T}
    (h : s.abandon.owner ≠ some t) (ht : t ≠ s.current) :
    s.owner ≠ some t := by
  unfold FpuSys.abandon at h
  split at h
  next hown =>
    rw [hown]
    exact fun heq => ht (Option.some.inj heq).symm
  next => exact h

theorem FpuSys.abandon_owner {s : FpuSys T R} {t : T}
    (h : s.abandon.owner = some t) : s.owner = some t ∧ t ≠ s.current := by
  unfold FpuSys.abandon at h
  split at h
  next => cases h
  next hne =>
    refine ⟨h, fun heq => hne ?_⟩
    rw [h, heq]

theorem FpuSim.snapshotCurrent {fninit : R} {a : FpuSpec T R} {s : FpuSys T R}
    (h : FpuSim fninit a s) : FpuSim fninit a s.snapshotCurrent ∧
      s.snapshotCurrent.saved fninit s.snapshotCurrent.current
        = a.regs a.current := by
  obtain ⟨hcur, halive, hlive, hrun, howned, himage, hclear⟩ := h
  unfold FpuSys.snapshotCurrent
  split
  next hown =>
    obtain ⟨hhw, hused, -, -⟩ := howned s.current hown
    refine ⟨⟨hcur, halive, hlive, hrun, howned, ?_, fun _ => .inl hown⟩, ?_⟩
    · intro t ht hne
      have htc : t ≠ s.current := fun heq => hne (by rw [heq]; exact hown)
      show (if s.used t then update s.regs s.current s.hw t
        else fninit) = a.regs t
      rw [update_of_ne htc]
      exact himage t ht hne
    · show (if s.used s.current then
        update s.regs s.current s.hw s.current else fninit) = _
      rw [if_pos hused, update_self, hhw, hcur]
  next hown =>
    refine ⟨⟨hcur, halive, hlive, hrun, howned, himage, hclear⟩, ?_⟩
    rw [himage s.current hlive hown, hcur]

/-- A child starts with the registers of its parent. -/
theorem FpuSim.born {fninit : R} {a : FpuSpec T R} {s : FpuSys T R} {child : T}
    (h : FpuSim fninit a s)
    (hsaved : s.saved fninit s.current = a.regs a.current)
    (hdead : s.alive child = false) : FpuSim fninit { a with
        regs := update a.regs child (a.regs a.current)
        alive := update a.alive child true }
      { s with
        regs := update s.regs child (s.regs s.current)
        used := update s.used child (s.used s.current)
        alive := update s.alive child true
        started := update s.started child false } := by
  obtain ⟨hcur, halive, hlive, hrun, howned, himage, hclear⟩ := h
  have hne : ∀ t, s.alive t = true → t ≠ child := fun t ht heq => by
    rw [heq, hdead] at ht
    cases ht
  constructor
  case current => exact hcur
  case alive =>
    rw [halive]
  case live =>
    dsimp only
    rw [update_of_ne (hne _ hlive)]
    exact hlive
  case running =>
    dsimp only
    rw [update_of_ne (hne _ hlive)]
    exact hrun
  case owned =>
    intro t ht
    obtain ⟨hhw, hused, hst, hal⟩ := howned t ht
    dsimp only
    rw [update_of_ne (hne t hal), update_of_ne (hne t hal),
      update_of_ne (hne t hal), update_of_ne (hne t hal)]
    exact ⟨hhw, hused, hst, hal⟩
  case image =>
    intro t ht hno
    dsimp only at ht hno
    show (if update s.used child (s.used s.current) t
      then update s.regs child (s.regs s.current) t else fninit)
      = update a.regs child (a.regs a.current) t
    by_cases htc : t = child
    · subst htc
      rw [update_self, update_self, update_self]
      exact hsaved
    · rw [update_of_ne htc] at ht ⊢
      rw [update_of_ne htc, update_of_ne htc]
      exact himage t ht hno
  case clear => exact hclear

/-- Each operation does on the lazy unit what it does with registers of one's
own. -/
theorem FpuSim.step {fninit : R} {a : FpuSpec T R} {s : FpuSys T R}
    (h : FpuSim fninit a s) (op : FpuOp T R) (hg : ¬ s.Stale op) :
    Agree (FpuSim fninit) (a.step fninit op) (s.step fninit op) := by
  obtain ⟨acurrent, aregs, aalive⟩ := a
  obtain rfl : acurrent = s.current := h.current
  obtain rfl : aalive = s.alive := h.alive
  have hsim := h
  obtain ⟨-, -, hlive, hrun, howned, himage, hclear⟩ := h
  cases op with
  | fp f =>
    have hready : FpuSim fninit ⟨s.current, aregs, s.alive⟩
          (if s.ts then s.switchIn fninit else s) ∧
        (if s.ts then s.switchIn fninit else s).owner
          = some (if s.ts then s.switchIn fninit else s).current := by
      cases hts : s.ts with
      | true => exact hsim.switchIn
      | false =>
        refine ⟨hsim, ?_⟩
        by_contra hne
        exact hg ⟨⟨f, rfl⟩, hts, hne⟩
    obtain ⟨hobs, hnext⟩ := hready.1.instruction hready.2 f
    simp only [FpuSpec.step, FpuSys.step]
    rw [hobs] at hnext ⊢
    exact .ok _ hnext
  | switch t =>
    simp only [FpuSpec.step, FpuSys.step]
    split
    next hok => exact .ok _ (FpuSim.switchTo rfl hok.1 howned himage)
    next => exact .fail
  | fork child =>
    simp only [FpuSpec.step, FpuSys.step]
    split
    next => exact .fail
    next hdead =>
      obtain ⟨hsnap, hsaved⟩ := hsim.snapshotCurrent
      refine .ok _ (hsnap.born hsaved ?_)
      rw [← hsnap.alive]
      simpa using hdead
  | exec =>
    refine .ok _ ⟨?_, ?_, ?_, ?_, ?_, ?_, ?_⟩
    · simp [FpuSys.resetForExec]
    · simp [FpuSys.resetForExec]
    · simpa [FpuSys.resetForExec] using hlive
    · simpa [FpuSys.resetForExec] using hrun
    · intro t ht
      obtain ⟨hown, hne⟩ := FpuSys.abandon_owner ht
      obtain ⟨hhw, hused, hst, hal⟩ := howned t hown
      simpa [FpuSys.resetForExec, update_of_ne hne]
        using ⟨hhw, hused, hst, hal⟩
    · intro t ht hne
      simp only [FpuSys.resetForExec, FpuSys.abandon_alive] at ht hne
      simp only [FpuSys.saved, FpuSys.resetForExec, FpuSys.abandon_regs]
      by_cases htc : t = s.current
      · subst htc
        rw [update_self, update_self, if_neg (by decide)]
      · rw [update_of_ne htc, update_of_ne htc]
        exact himage t ht (FpuSys.owner_of_abandon hne htc)
    · intro hts
      right
      simp only [FpuSys.resetForExec, FpuSys.abandon_ts] at hts ⊢
      unfold FpuSys.abandon
      rcases hclear hts with hown | hnone
      · rw [if_pos hown]
      · split
        next => rfl
        next => exact hnone
  | exit next =>
    simp only [FpuSpec.step, FpuSys.step]
    split
    next hok =>
      refine .ok _ (FpuSim.switchTo
        (a := ⟨s.current, aregs, update s.alive s.current false⟩) ?_ ?_ ?_ ?_)
      · rfl
      · show update s.alive s.current false next = true
        rw [update_of_ne hok.2]
        exact hok.1
      · intro t ht
        obtain ⟨hown, hne⟩ := FpuSys.abandon_owner ht
        obtain ⟨hhw, hused, hst, hal⟩ := howned t hown
        simpa [update_of_ne hne] using ⟨hhw, hused, hst, hal⟩
      · intro t ht hne
        have htc : t ≠ s.current := fun heq => by
          have hal : update s.alive s.current false t = true := ht
          rw [heq, update_self] at hal
          cases hal
        have hal : s.alive t = true := by
          have hal : update s.alive s.current false t = true := ht
          rwa [update_of_ne htc] at hal
        simpa [FpuSys.saved] using
          himage t hal (FpuSys.owner_of_abandon hne htc)
    next => exact .fail

-- ======== the result

/-- In a run without stale FP instructions every task finds in the FPU
exactly what its own instructions, its parent's before the fork and
`execve` left there. -/
theorem fpu_isolated (idle : T) (fninit hw image : R) (ops : List (FpuOp T R))
    (hg : Guarded (next (FpuSys.step fninit)) (fun s op => ¬ s.Stale op)
      (FpuSys.boot idle hw image) ops) :
    (exec (FpuSys.step fninit) (FpuSys.boot idle hw image) ops).map Prod.snd
      = (exec (FpuSpec.step fninit) (FpuSpec.boot idle fninit) ops).map
          Prod.snd := by
  have hboot : FpuSim fninit (FpuSpec.boot idle fninit)
      (FpuSys.boot idle hw image) := by
    refine ⟨rfl, rfl, by simp [FpuSys.boot], by simp [FpuSys.boot], ?_, ?_, ?_⟩
    · intro t ht
      cases ht
    · intro t _ _
      rfl
    · intro hts
      cases hts
  have hstep : ∀ (a : FpuSpec T R) (s : FpuSys T R) (op : FpuOp T R),
      FpuSim fninit a s → ((s.step fninit op).isSome → ¬ s.Stale op) →
      Agree (FpuSim fninit) (a.step fninit op) (s.step fninit op) := by
    intro a s op hR hguard
    apply hR.step op
    intro hst
    obtain ⟨f, rfl⟩ := hst.1
    exact hguard rfl hst
  exact (Agree.exec hstep hboot hg).answer.symm

/-- Two tasks that use the FPU in turn, and an `execve` of one that does
not own it. -/
def takeTurns : List (FpuOp Bool Nat) :=
  [.fp (fun _ => 1), .fork true, .switch true, .fp (fun n => n + 1),
    .switch false, .exec, .switch true, .fp id]

/-- Such a run, with what its instructions observe. -/
theorem fpu_isolated_turns :
    Guarded (next (FpuSys.step 0)) (fun s op => ¬ s.Stale op)
      (FpuSys.boot false 9 9) takeTurns ∧
    (exec (FpuSys.step 0) (FpuSys.boot false 9 9) takeTurns).map Prod.snd
      = (exec (FpuSpec.step 0) (FpuSpec.boot false 0) takeTurns).map
          Prod.snd := by
  have hg : Guarded (next (FpuSys.step 0)) (fun s op => ¬ s.Stale op)
      (FpuSys.boot false 9 9) takeTurns := by
    have hfp : ∀ (s : FpuSys Bool Nat) (f : Nat → Nat),
        (s.ts = true ∨ s.owner = some s.current) → ¬ s.Stale (.fp f) := by
      intro s f hs hst
      rcases hs with hts | hown
      · exact Bool.false_ne_true (hst.2.1.symm.trans hts)
      · exact hst.2.2 hown
    have hother : ∀ (s : FpuSys Bool Nat) (op : FpuOp Bool Nat),
        (∀ f, op ≠ .fp f) → ¬ s.Stale op := by
      intro s op hop hst
      obtain ⟨f, hf⟩ := hst.1
      exact hop f hf
    refine ⟨hfp _ _ (by decide), hother _ _ nofun, hother _ _ nofun,
      hfp _ _ (by decide), hother _ _ nofun, hother _ _ nofun,
      hother _ _ nofun, hfp _ _ (by decide), trivial⟩
  exact ⟨hg, fpu_isolated false 0 9 9 takeTurns hg⟩

/-- After an `execve` of the owner the new program reads the registers
of the old one. -/
theorem fpu_exec_keeps_registers :
    (exec (FpuSys.step 0) (FpuSys.boot false 9 9)
      [.fp (fun _ => 42), .exec, .fp id]).map Prod.snd
      = some [some 0, none, some 42] ∧
    (exec (FpuSpec.step 0) (FpuSpec.boot false 0)
      [.fp (fun _ => 42), .exec, .fp id]).map Prod.snd
      = some [some 0, none, some 0] := by
  decide

end LinuxRs.Task
