/-
Interruptible sleep on one wait queue (`sleep_interruptible` and `wake`
of kernel/src/task/wait_queue.rs).

# The system

Like `sleep`, `sleep_interruptible` puts itself into the slot and keeps
the previous occupant in its frame. Unlike `sleep` it looks at the slot
when it runs again. If another task is there it wakes that task and goes
back to sleep as it is, without entering the slot; otherwise it empties
the slot, wakes the task it remembers and returns. `elsewhere` is the
rest of the kernel: signals make a sleeper runnable, and a task outside
the queue's code changes its own state.

# What can go wrong

A sleeper must hang off the slot or off a task that was woken and has
not run. A task that `wake` took out of the slot hangs off nothing but
its own wake-up. If somebody else goes to sleep on the now empty queue
before it runs, it finds a stranger in the slot and sleeps again with
nobody left to wake it (`interruptible_sleeper_orphaned`). This is the
only way to lose a sleeper.
-/
import LinuxRs.Lib.Run
import LinuxRs.Sync.WaitQueue

namespace LinuxRs.Sync

open Function (update update_self update_of_ne)

open LinuxRs.Lib
open Relation (ReflTransGen)

universe u

variable {T : Type u} [DecidableEq T]

-- ======== the system

/-- Where a task's kernel stack stands: outside the queue's code, or in a
`schedule()` of `sleep_interruptible`. -/
inductive NapFrame (T : Type u)
  | outside
  | napping (handoffSlot : Option T)
  deriving DecidableEq

/-- One queue and the frames of its sleepers. -/
structure NapSys (T : Type u) where
  waitQueue : WaitQueue T
  state : T → TaskState
  frame : T → NapFrame T

def NapSys.new (state : T → TaskState) : NapSys T where
  waitQueue := WaitQueue.new
  state := state
  frame := fun _ => .outside

/-- A task falls asleep, is woken or goes on. -/
inductive NapAct (T : Type u)
  | sleepInterruptible (t : T)
  | wake
  | resume (t : T)
  | elsewhere (t : T) (st : TaskState)

/-- One step. Tasks in the slot are asleep here and do not exit, so their
references upgrade. -/
def NapSys.step (s : NapSys T) : NapAct T → Option (NapSys T)
  | .sleepInterruptible t =>
    if s.frame t = .outside ∧ s.state t = .running then
      let (q, handoffSlot, state) :=
        s.waitQueue.sleepInterruptibleBegin s.state t
      some ⟨q, state, update s.frame t (.napping handoffSlot)⟩
    else none
  | .wake =>
    let (q, state) := s.waitQueue.wake s.state
    some ⟨q, state, s.frame⟩
  | .resume t =>
    match s.frame t with
    | .napping handoffSlot =>
      if s.state t = .running then
        match s.waitQueue.replaced (fun _ => true) t with
        | some other => some { s with state := napAgain s.state t other }
        | none =>
          some ⟨⟨none⟩, wakeHandoff s.state handoffSlot,
            update s.frame t .outside⟩
      else none
    | .outside => none
  | .elsewhere t st =>
    if s.frame t = .outside ∨ st = .running then
      some { s with state := update s.state t st }
    else none

-- ======== vocabulary

namespace NapSys

def Asleep (s : NapSys T) (t : T) : Prop :=
  s.frame t ≠ .outside ∧ s.state t = .interruptible

/-- `t` has been woken and has not run since. -/
def Woken (s : NapSys T) (t : T) : Prop :=
  s.frame t ≠ .outside ∧ s.state t = .running

/-- `a` keeps `b` as the sleeper to wake after itself. -/
def Link (s : NapSys T) (a b : T) : Prop :=
  s.frame a = .napping (some b)

def Root (s : NapSys T) (r : T) : Prop :=
  s.waitQueue.slot = some r ∨ s.Woken r

/-- No sleeper is orphaned: each hangs off the slot or off a woken
task. -/
def Reached (s : NapSys T) : Prop :=
  ∀ t, s.Asleep t → ∃ r, s.Root r ∧ ReflTransGen s.Link r t

/-- A task that resumes and finds another one in the slot hangs off a
root besides itself. -/
def KeepsLine (s : NapSys T) (a : NapAct T) : Prop :=
  ∀ t other, a = .resume t → s.waitQueue.slot = some other → other ≠ t →
    ∃ r, r ≠ t ∧ s.Root r ∧ ReflTransGen s.Link r t

/-- Nobody goes to sleep on the empty queue while a woken task has not
run. -/
def Settled (s : NapSys T) (a : NapAct T) : Prop :=
  ∀ t, a = .sleepInterruptible t → s.waitQueue.slot = none → ∀ w, ¬ s.Woken w

/-- What every step keeps: the slot holds a sleeper's frame, and a frame
on the queue is asleep or woken. -/
structure Shape (s : NapSys T) : Prop where
  slot_inside : ∀ r, s.waitQueue.slot = some r → s.frame r ≠ .outside
  frame_state : ∀ t, s.frame t ≠ .outside → s.Asleep t ∨ s.Woken t

end NapSys

-- ======== the steps

/-- What a step can do to the queue, the frames and the states. -/
theorem nap_step_cases {s s' : NapSys T} {a : NapAct T}
    (h : s.step a = some s') :
    (∃ t, a = .sleepInterruptible t ∧ s.frame t = .outside ∧
        s.state t = .running ∧ s' = ⟨⟨some t⟩, update s.state t .interruptible,
          update s.frame t (.napping s.waitQueue.slot)⟩) ∨
    (a = .wake ∧
        s' = ⟨⟨none⟩, wakeHandoff s.state s.waitQueue.slot, s.frame⟩) ∨
    (∃ t handoff other, a = .resume t ∧ s.frame t = .napping handoff ∧
        s.state t = .running ∧ s.waitQueue.slot = some other ∧ other ≠ t ∧
        s' = { s with state := napAgain s.state t other }) ∨
    (∃ t handoff, a = .resume t ∧ s.frame t = .napping handoff ∧
        s.state t = .running ∧
        (∀ other, s.waitQueue.slot = some other → other = t) ∧
        s' = ⟨⟨none⟩, wakeHandoff s.state handoff,
          update s.frame t .outside⟩) ∨
    (∃ t st, a = .elsewhere t st ∧ (s.frame t = .outside ∨ st = .running) ∧
        s' = { s with state := update s.state t st }) := by
  cases a with
  | sleepInterruptible t =>
    simp only [NapSys.step] at h
    split at h
    next hc => exact .inl ⟨t, rfl, hc.1, hc.2, (Option.some.inj h).symm⟩
    next => cases h
  | wake => exact .inr (.inl ⟨rfl, (Option.some.inj h).symm⟩)
  | resume t =>
    simp only [NapSys.step] at h
    split at h
    next handoff hf =>
      split at h
      next hrun =>
        split at h
        next other hrep =>
          obtain ⟨hslot, -, hne⟩ := WaitQueue.replaced_eq_some.mp hrep
          exact .inr (.inr (.inl ⟨t, handoff, other, rfl, hf, hrun, hslot,
            hne, (Option.some.inj h).symm⟩))
        next hrep =>
          refine .inr (.inr (.inr (.inl ⟨t, handoff, rfl, hf, hrun, ?_,
            (Option.some.inj h).symm⟩)))
          intro other hslot
          by_contra hne
          have hsome : s.waitQueue.replaced (fun _ => true) t = some other :=
            WaitQueue.replaced_eq_some.mpr ⟨hslot, rfl, hne⟩
          rw [hrep] at hsome
          cases hsome
      next => cases h
    next => cases h
  | elsewhere t st =>
    simp only [NapSys.step] at h
    split at h
    next hc =>
      exact .inr (.inr (.inr (.inr ⟨t, st, rfl, hc,
        (Option.some.inj h).symm⟩)))
    next => cases h

-- ======== states after a step

theorem of_wakeHandoff {state : T → TaskState} {h : Option T} {t : T}
    (ht : wakeHandoff state h t = .interruptible) :
    state t = .interruptible := by
  by_cases he : h = some t
  · rw [he, wakeHandoff_target] at ht
    cases ht
  · rw [wakeHandoff_of_ne he] at ht
    exact ht

theorem napAgain_self (state : T → TaskState) {me other : T}
    (hne : other ≠ me) : napAgain state me other me = .interruptible := by
  unfold napAgain
  rw [update_of_ne hne.symm, update_self]

theorem napAgain_other (state : T → TaskState) (me other : T) :
    napAgain state me other other = .running :=
  update_self ..

theorem napAgain_of_ne (state : T → TaskState) {me other t : T} (hme : t ≠ me)
    (hother : t ≠ other) : napAgain state me other t = state t := by
  unfold napAgain
  rw [update_of_ne hother, update_of_ne hme]

theorem NapSys.Shape.step {s s' : NapSys T} {a : NapAct T} (hs : s.Shape)
    (h : s.step a = some s') : s'.Shape := by
  obtain ⟨hslot, hframe⟩ := hs
  rcases nap_step_cases h with ⟨t, -, hout, -, rfl⟩ | ⟨-, rfl⟩ |
    ⟨t, handoff, other, -, hf, -, hocc, hne, rfl⟩ |
    ⟨t, handoff, -, hf, hrun, -, rfl⟩ | ⟨t, st, -, hst, rfl⟩
  · -- sleep: the caller's frame is new
    constructor
    · intro r hr
      cases hr
      simp only [update_self]
      exact nofun
    · intro x hx
      by_cases hxt : x = t
      · subst hxt
        exact .inl ⟨hx, update_self ..⟩
      · simp only [update_of_ne hxt] at hx
        unfold Asleep Woken
        simp only [update_of_ne hxt]
        exact hframe x hx
  · -- wake
    constructor
    · intro r hr
      cases hr
    · intro x hx
      by_cases hxs : s.waitQueue.slot = some x
      · refine .inr ⟨hx, ?_⟩
        simp only [hxs, wakeHandoff_target]
      · unfold Asleep Woken
        simp only [wakeHandoff_of_ne hxs]
        exact hframe x hx
  · -- resume with another task in the slot
    refine ⟨hslot, ?_⟩
    intro x hx
    by_cases hxt : x = t
    · subst hxt
      exact .inl ⟨hx, napAgain_self _ hne⟩
    · by_cases hxo : x = other
      · subst hxo
        exact .inr ⟨hx, napAgain_other ..⟩
      · unfold Asleep Woken
        simp only [napAgain_of_ne _ hxt hxo]
        exact hframe x hx
  · -- resume with the slot settled
    constructor
    · intro r hr
      cases hr
    · intro x hx
      by_cases hxt : x = t
      · subst hxt
        simp only [update_self] at hx
        exact absurd rfl hx
      · have hin : s.frame x ≠ .outside := by
          simpa only [update_of_ne hxt] using hx
        by_cases hxh : handoff = some x
        · refine .inr ⟨hx, ?_⟩
          simp only [hxh, wakeHandoff_target]
        · unfold Asleep Woken
          simp only [wakeHandoff_of_ne hxh, update_of_ne hxt]
          exact hframe x hin
  · -- elsewhere
    refine ⟨hslot, ?_⟩
    intro x hx
    by_cases hxt : x = t
    · subst hxt
      refine .inr ⟨hx, ?_⟩
      rcases hst with hout | rfl
      · exact absurd hout hx
      · exact update_self ..
    · unfold Asleep Woken
      simp only [update_of_ne hxt]
      exact hframe x hx

-- ======== reachability

omit [DecidableEq T] in
theorem NapSys.path_from_outside {s : NapSys T} {a b : T}
    (ha : s.frame a = .outside) (h : ReflTransGen s.Link a b) : a = b := by
  rcases Relation.ReflTransGen.cases_head h with rfl | ⟨c, hc, -⟩
  · rfl
  · unfold NapSys.Link at hc
    rw [ha] at hc
    cases hc

theorem nap_link_sleep {s : NapSys T} {t : T} {q : WaitQueue T}
    {state : T → TaskState} {f : NapFrame T} (hout : s.frame t = .outside)
    {a b : T} (h : ReflTransGen s.Link a b) : ReflTransGen
      (NapSys.Link ⟨q, state, update s.frame t f⟩) a b := by
  refine ReflTransGen.mono ?_ _ _ h
  intro x y hxy
  have hne : x ≠ t := by
    intro heq
    unfold NapSys.Link at hxy
    rw [heq, hout] at hxy
    cases hxy
  unfold NapSys.Link
  simp only [update_of_ne hne]
  exact hxy

theorem NapSys.Reached.sleep {s : NapSys T} (hr : s.Reached) {t : T}
    (hout : s.frame t = .outside) :
    NapSys.Reached ⟨⟨some t⟩, update s.state t .interruptible,
      update s.frame t (.napping s.waitQueue.slot)⟩ := by
  intro x hx
  by_cases hxt : x = t
  · exact ⟨t, .inl rfl, hxt ▸ .refl⟩
  · have hasleep : s.Asleep x := by
      simpa only [NapSys.Asleep, update_of_ne hxt] using hx
    obtain ⟨r, hroot, hpath⟩ := hr x hasleep
    rcases hroot with hslot | hw
    · refine ⟨t, .inl rfl, .head ?_ (nap_link_sleep hout hpath)⟩
      show update s.frame t _ t = _
      rw [update_self, hslot]
    · have hrt : r ≠ t := fun heq => hw.1 (heq ▸ hout)
      refine ⟨r, .inr ?_, nap_link_sleep hout hpath⟩
      simpa only [NapSys.Woken, update_of_ne hrt] using hw

theorem NapSys.Reached.wake {s : NapSys T} (hr : s.Reached) (hs : s.Shape) :
    NapSys.Reached ⟨⟨none⟩, wakeHandoff s.state s.waitQueue.slot,
      s.frame⟩ := by
  intro x hx
  obtain ⟨r, hroot, hpath⟩ := hr x ⟨hx.1, of_wakeHandoff hx.2⟩
  refine ⟨r, .inr ?_, hpath⟩
  rcases hroot with hslot | hw
  · refine ⟨hs.slot_inside r hslot, ?_⟩
    simp only [hslot, wakeHandoff_target]
  · exact ⟨hw.1, wakeHandoff_running hw.2⟩

theorem nap_root_again {s : NapSys T} {t other r : T} (hne : r ≠ t)
    (hroot : s.Root r) :
    NapSys.Root { s with state := napAgain s.state t other } r := by
  rcases hroot with hslot | hw
  · exact .inl hslot
  · refine .inr ⟨hw.1, ?_⟩
    by_cases hro : r = other
    · subst hro
      exact napAgain_other ..
    · simp only [napAgain_of_ne _ hne hro]
      exact hw.2

theorem NapSys.Reached.again {s : NapSys T} (hr : s.Reached) {t other : T}
    (hkeep : ∃ r, r ≠ t ∧ s.Root r ∧ ReflTransGen s.Link r t) :
    NapSys.Reached { s with state := napAgain s.state t other } := by
  obtain ⟨r₀, hne₀, hroot₀, hpath₀⟩ := hkeep
  intro x hx
  by_cases hxt : x = t
  · subst hxt
    exact ⟨r₀, nap_root_again hne₀ hroot₀, hpath₀⟩
  · have hxo : x ≠ other := by
      intro heq
      have hst := hx.2
      subst heq
      simp only [napAgain_other] at hst
      cases hst
    have hasleep : s.Asleep x := by
      simpa only [NapSys.Asleep, napAgain_of_ne _ hxt hxo] using hx
    obtain ⟨r, hroot, hpath⟩ := hr x hasleep
    by_cases hrt : r = t
    · subst hrt
      exact ⟨r₀, nap_root_again hne₀ hroot₀, hpath₀.trans hpath⟩
    · exact ⟨r, nap_root_again hrt hroot, hpath⟩

/-- A task that goes back to sleep in front of another leaves it without a
waker. -/
theorem NapSys.Reached.again_breaks {s : NapSys T} {t other : T}
    (hf : s.frame t ≠ .outside) (hslot : s.waitQueue.slot = some other)
    (hne : other ≠ t)
    (hno : ¬ ∃ r, r ≠ t ∧ s.Root r ∧ ReflTransGen s.Link r t) :
    ¬ NapSys.Reached { s with state := napAgain s.state t other } := by
  intro hr
  obtain ⟨r, hroot, hpath⟩ := hr t ⟨hf, napAgain_self _ hne⟩
  have hrt : r ≠ t := by
    intro heq
    subst heq
    rcases hroot with hocc | hw
    · simp only [hslot] at hocc
      exact hne (Option.some.inj hocc)
    · have hst := hw.2
      simp only [napAgain_self _ hne] at hst
      cases hst
  refine hno ⟨r, hrt, ?_, hpath⟩
  rcases hroot with hocc | hw
  · exact .inl hocc
  · by_cases hro : r = other
    · exact .inl (hro ▸ hslot)
    · refine .inr ⟨hw.1, ?_⟩
      have hst := hw.2
      simp only [napAgain_of_ne _ hrt hro] at hst
      exact hst

/-- A task that wakes at the head of the queue hands it on. -/
theorem NapSys.Reached.settle {s : NapSys T} (hr : s.Reached) {t : T}
    {handoff : Option T} (hf : s.frame t = .napping handoff)
    (hslot : ∀ other, s.waitQueue.slot = some other → other = t) :
    NapSys.Reached ⟨⟨none⟩, wakeHandoff s.state handoff,
      update s.frame t .outside⟩ := by
  intro x hx
  have hxt : x ≠ t := by
    intro heq
    have hin := hx.1
    simp only [heq, update_self] at hin
    exact hin rfl
  have hxin : s.frame x ≠ .outside := by
    simpa only [update_of_ne hxt] using hx.1
  have hasleep : s.Asleep x := ⟨hxin, of_wakeHandoff hx.2⟩
  -- A path that never leaves through the task does not start there.
  have hstart : ∀ {a}, ReflTransGen (fun y z => s.Link y z ∧ y ≠ t) a x →
      a ≠ t := by
    intro a hpath heq
    subst heq
    rcases Relation.ReflTransGen.cases_head hpath with he | ⟨c, ⟨-, hc⟩, -⟩
    · exact hxt he.symm
    · exact hc rfl
  have hkept : ∀ {a}, ReflTransGen (fun y z => s.Link y z ∧ y ≠ t) a x →
      ReflTransGen (NapSys.Link ⟨⟨none⟩, wakeHandoff s.state handoff,
        update s.frame t .outside⟩) a x := by
    intro a hpath
    refine ReflTransGen.mono ?_ _ _ hpath
    intro y z hyz
    unfold NapSys.Link
    simp only [update_of_ne hyz.2]
    exact hyz.1
  obtain ⟨r, hroot, hpath⟩ := hr x hasleep
  rcases path_split t hpath with havoid | ⟨c, hlink, havoid⟩
  · have hrt := hstart havoid
    refine ⟨r, .inr ?_, hkept havoid⟩
    rcases hroot with hocc | hw
    · exact absurd (hslot r hocc) hrt
    · refine ⟨?_, wakeHandoff_running hw.2⟩
      simpa only [update_of_ne hrt] using hw.1
  · have hct := hstart havoid
    have hcin : s.frame c ≠ .outside := by
      intro hout
      have hcx := NapSys.path_from_outside hout
        (ReflTransGen.mono (fun _ _ h => h.1) _ _ havoid)
      exact hxin (hcx ▸ hout)
    refine ⟨c, .inr ⟨?_, ?_⟩, hkept havoid⟩
    · simpa only [update_of_ne hct] using hcin
    · unfold NapSys.Link at hlink
      rw [hf] at hlink
      simp only [NapFrame.napping.inj hlink, wakeHandoff_target]

theorem NapSys.Reached.elsewhere {s : NapSys T} (hr : s.Reached) {t : T}
    {st : TaskState} (hst : s.frame t = .outside ∨ st = .running) :
    NapSys.Reached { s with state := update s.state t st } := by
  have hrun : s.frame t ≠ .outside → st = .running := fun hin =>
    hst.resolve_left hin
  intro x hx
  have hxt : x ≠ t := by
    intro heq
    have hcon := hx.2
    simp only [heq, update_self] at hcon
    rw [hrun (heq ▸ hx.1)] at hcon
    cases hcon
  have hasleep : s.Asleep x := by
    simpa only [NapSys.Asleep, update_of_ne hxt] using hx
  obtain ⟨r, hroot, hpath⟩ := hr x hasleep
  refine ⟨r, ?_, hpath⟩
  rcases hroot with hocc | hw
  · exact .inl hocc
  · refine .inr ⟨hw.1, ?_⟩
    by_cases hrt : r = t
    · subst hrt
      simp only [update_self]
      exact hrun hw.1
    · simp only [update_of_ne hrt]
      exact hw.2

omit [DecidableEq T] in
theorem NapSys.new_invariant (state : T → TaskState) :
    (NapSys.new state).Shape ∧ (NapSys.new state).Reached := by
  refine ⟨⟨?_, ?_⟩, ?_⟩
  · intro r hr
    cases hr
  · intro t ht
    exact absurd rfl ht
  · intro t ht
    exact absurd rfl ht.1

theorem NapSys.Reached.step {s s' : NapSys T} {a : NapAct T}
    (hs : s.Shape) (hr : s.Reached) (hkeep : s.KeepsLine a)
    (h : s.step a = some s') : s'.Reached := by
  rcases nap_step_cases h with ⟨t, -, hout, -, rfl⟩ | ⟨-, rfl⟩ |
    ⟨t, handoff, other, rfl, -, -, hocc, hne, rfl⟩ |
    ⟨t, handoff, -, hf, -, hslot, rfl⟩ | ⟨t, st, -, hst, rfl⟩
  · exact hr.sleep hout
  · exact hr.wake hs
  · exact hr.again (hkeep t other rfl hocc hne)
  · exact hr.settle hf hslot
  · exact hr.elsewhere hst

/-- A step off the line orphans a sleeper. -/
theorem NapSys.Reached.breaks {s s' : NapSys T} {a : NapAct T}
    (hkeep : ¬ s.KeepsLine a) (h : s.step a = some s') : ¬ s'.Reached := by
  unfold NapSys.KeepsLine at hkeep
  push Not at hkeep
  obtain ⟨t, other, rfl, hocc, hne, hno⟩ := hkeep
  rcases nap_step_cases h with ⟨_, hc, -⟩ | ⟨hc, -⟩ |
    ⟨t', handoff, other', ht, hf, -, hocc', -, rfl⟩ |
    ⟨t', handoff, ht, -, -, hslot, -⟩ | ⟨_, _, hc, -⟩
  · cases hc
  · cases hc
  · obtain rfl := NapAct.resume.inj ht
    rw [hocc] at hocc'
    cases hocc'
    apply NapSys.Reached.again_breaks ?_ hocc hne ?_
    · rw [hf]
      exact nofun
    · intro hex
      obtain ⟨r, hrt, hroot, hpath⟩ := hex
      exact hno r hrt hroot hpath
  · obtain rfl := NapAct.resume.inj ht
    exact absurd (hslot other hocc) hne
  · cases hc

-- ======== one line

/-- Every sleeper hangs on the queue's head. -/
def NapSys.OneLine (s : NapSys T) : Prop :=
  ∀ r, s.waitQueue.slot = some r → ∀ t, s.frame t ≠ .outside →
    ReflTransGen s.Link r t

theorem NapSys.Reached.nobody {s : NapSys T} (hs : s.Shape)
    (hr : s.Reached) (hslot : s.waitQueue.slot = none)
    (hno : ∀ w, ¬ s.Woken w) (t : T) : s.frame t = .outside := by
  by_contra hin
  rcases hs.frame_state t hin with hasleep | hw
  · obtain ⟨r, hocc | hw, -⟩ := hr t hasleep
    · rw [hslot] at hocc
      cases hocc
    · exact hno r hw
  · exact hno t hw

/-- A settled step keeps all sleepers on one line. -/
theorem NapSys.OneLine.step {s s' : NapSys T} {a : NapAct T}
    (hs : s.Shape) (hr : s.Reached) (hline : s.OneLine)
    (hset : s.Settled a) (h : s.step a = some s') : s'.OneLine := by
  rcases nap_step_cases h with ⟨t, rfl, hout, -, rfl⟩ | ⟨-, rfl⟩ |
    ⟨t, handoff, other, -, -, -, -, -, rfl⟩ |
    ⟨t, handoff, -, -, -, -, rfl⟩ | ⟨t, st, -, -, rfl⟩
  · intro r hslot x hx
    cases hslot
    by_cases hxt : x = t
    · exact hxt ▸ .refl
    · simp only [update_of_ne hxt] at hx
      cases hocc : s.waitQueue.slot with
      | none => exact absurd (hr.nobody hs hocc (hset t rfl hocc) x) hx
      | some u =>
        refine .head ?_ (nap_link_sleep hout (hline u hocc x hx))
        exact update_self ..
  · intro r hslot
    cases hslot
  · exact hline
  · intro r hslot
    cases hslot
  · exact hline

theorem NapSys.OneLine.keepsLine {s : NapSys T} {a : NapAct T}
    (hline : s.OneLine) (h : (s.step a).isSome) : s.KeepsLine a := by
  intro t other ha hocc hne
  obtain ⟨s', hs'⟩ := Option.isSome_iff_exists.mp h
  subst ha
  have hin : s.frame t ≠ .outside := by
    intro hout
    simp only [NapSys.step, hout] at hs'
    cases hs'
  exact ⟨other, hne, .inl hocc, hline other hocc t hin⟩

-- ======== the result

/-- No sleeper is orphaned in a run exactly when every task that resumes
and finds another one in the slot still hangs off some other root; and
this is so whenever nobody goes to sleep on the empty queue while a
woken task has not run. -/
theorem interruptible_reached_iff (state : T → TaskState)
    (as : List (NapAct T)) :
    ((∀ s ∈ visited NapSys.step (NapSys.new state) as, s.Reached) ↔
      Guarded NapSys.step NapSys.KeepsLine (NapSys.new state) as) ∧
    (Guarded NapSys.step NapSys.Settled (NapSys.new state) as →
      ∀ s ∈ visited NapSys.step (NapSys.new state) as, s.Reached) := by
  obtain ⟨hshape, hreach⟩ := NapSys.new_invariant state
  constructor
  · apply visited_iff_guarded (I := fun s => s.Shape ∧ s.Reached)
    · exact fun s h => h.2
    · intro s a s' hI hg h
      exact ⟨hI.1.step h, hI.2.step hI.1 hg h⟩
    · intro s a s' _ hg h
      exact NapSys.Reached.breaks hg h
    · exact ⟨hshape, hreach⟩
  · intro hg
    have hkept := Guarded.visited
      (I := fun s : NapSys T => s.Shape ∧ s.Reached ∧ s.OneLine) (by
        intro s a s' hI hset h
        obtain ⟨hs, hr, hline⟩ := hI
        have hkeep := hline.keepsLine (by rw [h]; rfl)
        exact ⟨hs.step h, hr.step hs hkeep h, hline.step hs hr hset h⟩)
      (by
        refine ⟨hshape, hreach, ?_⟩
        intro r hslot
        cases hslot) hg
    exact fun s hs => (hkept s hs).2.1

/-- Three tasks, one line: the third is interrupted by a signal and all
three come back. -/
def napTogether : List (NapAct (Fin 4)) :=
  [.sleepInterruptible 0, .sleepInterruptible 1, .sleepInterruptible 2,
    .elsewhere 0 .running, .resume 0, .resume 2, .resume 1, .resume 0]

/-- Nobody is lost on the way. -/
theorem interruptible_reached_three :
    Guarded NapSys.step NapSys.Settled (NapSys.new fun _ => .running)
      napTogether ∧
    ∀ s ∈ visited NapSys.step (NapSys.new fun _ => .running) napTogether,
      s.Reached := by
  have hg : Guarded NapSys.step NapSys.Settled (NapSys.new fun _ => .running)
      napTogether := by
    refine ⟨?_, ?_, ?_, ?_, ?_, ?_, ?_, ?_, trivial⟩
    · intro t _ _ w hw
      exact hw.1 rfl
    · intro t _ hslot
      cases hslot
    · intro t _ hslot
      cases hslot
    all_goals
      intro t ha
      cases ha
  exact ⟨hg, (interruptible_reached_iff (fun _ => .running) napTogether).2 hg⟩

/-- `wake` takes the first sleeper out of the slot, a second one enters
the empty queue, and the first finds it there and sleeps again: nobody
will wake it. -/
theorem interruptible_sleeper_orphaned :
    ∃ s ∈ visited NapSys.step (NapSys.new fun _ : Bool => .running)
        [.sleepInterruptible false, .wake, .sleepInterruptible true,
          .resume false],
      ¬ s.Reached := by
  refine ⟨_, mem_visited_of_run rfl, ?_⟩
  intro hr
  obtain ⟨r, hroot, hpath⟩ := hr false ⟨by decide, by decide⟩
  have hrt : r = true := by
    cases r with
    | true => rfl
    | false =>
      rcases hroot with hocc | hw
      · exact absurd hocc (by decide)
      · exact absurd hw.2 (by decide)
  subst hrt
  rcases Relation.ReflTransGen.cases_head hpath with he | ⟨c, hc, -⟩
  · cases he
  · cases hc

end LinuxRs.Sync
