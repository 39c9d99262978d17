/-
The choice of the next task (kernel/src/task/manager.rs), with what
changes time slices: `fork`, `nice` and the timer tick.

# The loop

`select_next_task` takes the running task with the largest counter. While
every running task has used up its slice it gives all tasks a new one,
half of what is left and the priority, and looks again.

# The invariant

A priority is never 0 and never above the one at boot: `fork` copies it
and `nice` only lowers it, to something positive. So one round is enough
for a positive counter, and no counter reaches twice the priority at boot.
-/
import LinuxRs.Lib.Run
import LinuxRs.Sync.WaitQueue
import Mathlib.Data.List.FinRange

namespace LinuxRs.Task

open LinuxRs.Lib LinuxRs.Sync

-- ======== the tasks

def taskNum : Nat := 64

def idleSlot : Fin taskNum := ⟨0, by decide⟩

def bootPriority : BitVec 32 := 15#32

structure TaskSchedInfo where
  state : TaskState
  counter : BitVec 32
  priority : BitVec 32

/-- What the scheduler sees of `TaskManager`, and the current slot. -/
structure SchedSys where
  tasks : Fin taskNum → Option TaskSchedInfo
  current : Fin taskNum

def SchedSys.boot : SchedSys where
  tasks := fun slot => if slot = idleSlot then
    some ⟨.running, bootPriority, bootPriority⟩ else none
  current := idleSlot

-- ======== the selection

abbrev Candidate := Fin taskNum × BitVec 32

/-- The order of the keys `(counter, slot)`. -/
def Candidate.le (a b : Candidate) : Bool :=
  a.2.toNat < b.2.toNat ∨ a.2.toNat = b.2.toNat ∧ a.1.val ≤ b.1.val

/-- The fold of `max_by_key`: of equal keys the later one is kept. -/
def maxFrom (best : Candidate) : List Candidate → Candidate
  | [] => best
  | x :: rest => maxFrom (if Candidate.le best x then x else best) rest

def maxByKey : List Candidate → Option Candidate
  | [] => none
  | x :: rest => some (maxFrom x rest)

namespace SchedSys

def runnable (s : SchedSys) : List Candidate :=
  ((List.finRange taskNum).drop 1).filterMap fun slot =>
    (s.tasks slot).bind fun t =>
      if t.state = .running then some (slot, t.counter) else none

/-- The last arm of the loop: every task but the idle one gets a new
slice. -/
def recharge (s : SchedSys) : SchedSys where
  tasks := fun slot =>
    if slot = idleSlot then s.tasks slot
    else (s.tasks slot).map fun t =>
      { t with counter := (t.counter >>> 1) + t.priority }
  current := s.current

/-- `TaskManager::select_next_task`, with the table that it leaves; `none`
is a panic, or the fuel running out. -/
def selectNextTask : Nat → SchedSys → Option (Option (Fin taskNum) × SchedSys)
  | 0, _ => none
  | fuel + 1, s =>
    match maxByKey s.runnable with
    | some (next, counter) =>
      if 0#32 < counter then
        some (if s.current ≠ next then some next else none, s)
      else selectNextTask fuel s.recharge
    | none =>
      if s.current ≠ idleSlot then
        (s.tasks idleSlot).map fun _ => (some idleSlot, s)
      else some (none, s)

-- ======== what may happen

def update (s : SchedSys) (f : Fin taskNum → TaskSchedInfo → TaskSchedInfo) :
    SchedSys :=
  { s with tasks := fun slot => (s.tasks slot).map (f slot) }

def withCurrent (s : SchedSys) (f : TaskSchedInfo → TaskSchedInfo) :
    SchedSys :=
  s.update fun slot t => if slot = s.current then f t else t

/-- `schedule`; `due` are the tasks with an unblocked signal, which are
woken first. -/
def schedule (fuel : Nat) (s : SchedSys) (due : Fin taskNum → Bool) :
    Option SchedSys :=
  let s := s.update fun slot t =>
    if due slot ∧ t.state = .interruptible then { t with state := .running }
    else t
  (selectNextTask fuel s).map fun r =>
    { r.2 with current := r.1.getD r.2.current }

def freeSlot (s : SchedSys) : Option (Fin taskNum) :=
  ((List.finRange taskNum).drop 1).find? fun slot => (s.tasks slot).isNone

/-- `sys_fork`, as far as the scheduler sees it. -/
def fork (s : SchedSys) : Option SchedSys := do
  let parent ← s.tasks s.current
  let slot ← s.freeSlot
  let child := ⟨.running, parent.priority, parent.priority⟩
  return { s with tasks := Function.update s.tasks slot (some child) }

def nice (s : SchedSys) (increment : BitVec 32) : SchedSys :=
  s.withCurrent fun t =>
    if increment < t.priority then { t with priority := t.priority - increment }
    else t

/-- `handle_timer_tick`; `user` is whether it interrupts user mode. -/
def tick (fuel : Nat) (s : SchedSys) (user : Bool)
    (due : Fin taskNum → Bool) : Option SchedSys :=
  let s := s.withCurrent fun t =>
    if 0#32 < t.counter then { t with counter := t.counter - 1#32 } else t
  match s.tasks s.current with
  | none => none
  | some t =>
    if t.counter = 0#32 ∧ user then s.schedule fuel due else some s

/-- What can happen next. A sleeper's state is whatever it sleeps or stops
in, and a wake may come for any task. -/
inductive Act
  | fork
  | nice (increment : BitVec 32)
  | tick (user : Bool) (due : Fin taskNum → Bool)
  | sleep (state : TaskState)
  | wake (slot : Fin taskNum)
  | exit
  | reap (slot : Fin taskNum)
  | schedule (due : Fin taskNum → Bool)

/-- One step. The idle task does not exit, and neither it nor the current
task is reaped. -/
def step (fuel : Nat) (s : SchedSys) : Act → Option SchedSys
  | .fork => s.fork
  | .nice increment => some (s.nice increment)
  | .tick user due => s.tick fuel user due
  | .sleep state => some (s.withCurrent fun t => { t with state := state })
  | .wake slot => some (s.update fun i t =>
    if i = slot then { t with state := .running } else t)
  | .exit =>
    if s.current = idleSlot then none
    else some (s.withCurrent fun t => { t with state := .zombie })
  | .reap slot =>
    if slot = idleSlot ∨ slot = s.current then none
    else some { s with tasks := Function.update s.tasks slot none }
  | .schedule due => s.schedule fuel due

end SchedSys

-- ======== the maximum

theorem Candidate.le_iff {a b : Candidate} : Candidate.le a b = true
      ↔ a.2.toNat < b.2.toNat ∨ a.2.toNat = b.2.toNat ∧ a.1.val ≤ b.1.val :=
  decide_eq_true_iff

/-- The scan finds a candidate with the greatest counter. -/
theorem maxFrom_spec (best : Candidate) (l : List Candidate) :
    maxFrom best l ∈ best :: l
      ∧ ∀ x ∈ best :: l, Candidate.le x (maxFrom best l) = true := by
  induction l generalizing best with
  | nil =>
    refine ⟨List.mem_singleton.mpr rfl, fun x hx => ?_⟩
    rw [List.mem_singleton.mp hx]
    exact Iff.mpr Candidate.le_iff (.inr ⟨rfl, Nat.le_refl _⟩)
  | cons y rest ih =>
    by_cases hle : Candidate.le best y = true
    · obtain ⟨hmem, hmax⟩ := ih y
      have heq : maxFrom best (y :: rest) = maxFrom y rest := by
        unfold maxFrom
        rw [if_pos hle]
        cases rest <;> rfl
      rw [heq]
      refine ⟨List.mem_cons_of_mem _ hmem, fun x hx => ?_⟩
      rcases List.mem_cons.mp hx with rfl | hx
      · have hy := Iff.mp Candidate.le_iff (hmax y List.mem_cons_self)
        have hle := Iff.mp Candidate.le_iff hle
        apply Iff.mpr Candidate.le_iff
        omega
      · exact hmax x hx
    · obtain ⟨hmem, hmax⟩ := ih best
      have heq : maxFrom best (y :: rest) = maxFrom best rest := by
        show maxFrom (if Candidate.le best y then y else best) rest = _
        rw [if_neg hle]
      rw [heq]
      refine ⟨?_, fun x hx => ?_⟩
      · rcases List.mem_cons.mp hmem with h | h
        · rw [h]
          exact List.mem_cons_self
        · exact List.mem_cons_of_mem _ (List.mem_cons_of_mem _ h)
      · rcases List.mem_cons.mp hx with rfl | hx
        · exact hmax x List.mem_cons_self
        · rcases List.mem_cons.mp hx with rfl | hx
          · have hbest := Iff.mp Candidate.le_iff
              (hmax best List.mem_cons_self)
            have hnot := mt (Iff.mpr Candidate.le_iff) hle
            apply Iff.mpr Candidate.le_iff
            omega
          · exact hmax x (List.mem_cons_of_mem _ hx)

theorem maxByKey_spec (l : List Candidate) : (maxByKey l = none ∧ l = [])
      ∨ ∃ best, maxByKey l = some best ∧ best ∈ l
        ∧ ∀ x ∈ l, Candidate.le x best = true := by
  cases l with
  | nil => exact .inl ⟨rfl, rfl⟩
  | cons x rest => exact .inr ⟨_, rfl, maxFrom_spec x rest⟩

-- ======== the invariant

/-- What every task keeps: a priority of at least 1 and at most the one at
boot, and a counter below twice that. -/
structure TaskSchedInfo.Fair (t : TaskSchedInfo) : Prop where
  positive : 1 ≤ t.priority.toNat
  priority : t.priority.toNat ≤ bootPriority.toNat
  counter : t.counter.toNat < 2 * bootPriority.toNat

namespace SchedSys

/-- The invariant: the idle task and the current one are there, and all
tasks are fair. -/
structure Inv (s : SchedSys) : Prop where
  idle : (s.tasks idleSlot).isSome
  current : (s.tasks s.current).isSome
  fair : ∀ slot t, s.tasks slot = some t → t.Fair

theorem recharged_counter {t : TaskSchedInfo} (h : t.Fair) :
    ((t.counter >>> 1) + t.priority).toNat
        = t.counter.toNat / 2 + t.priority.toNat
      ∧ t.counter.toNat / 2 + t.priority.toNat < 2 * bootPriority.toNat
      ∧ 1 ≤ t.counter.toNat / 2 + t.priority.toNat := by
  have hboot : bootPriority.toNat = 15 := rfl
  have hpositive := h.positive
  have hpriority := h.priority
  have hcounter := h.counter
  rw [hboot] at hpriority hcounter ⊢
  refine ⟨?_, by omega, by omega⟩
  rw [BitVec.toNat_add, BitVec.toNat_ushiftRight, Nat.shiftRight_eq_div_pow]
  omega

theorem Inv.update {s : SchedSys} (h : s.Inv)
    {f : Fin taskNum → TaskSchedInfo → TaskSchedInfo}
    (hf : ∀ slot t, t.Fair → (f slot t).Fair) : (s.update f).Inv := by
  refine ⟨?_, ?_, fun slot t ht => ?_⟩
  · show ((s.tasks idleSlot).map _).isSome
    rw [Option.isSome_map]
    exact h.idle
  · show ((s.tasks s.current).map _).isSome
    rw [Option.isSome_map]
    exact h.current
  · obtain ⟨u, hu, rfl⟩ := Option.map_eq_some_iff.mp ht
    exact hf slot u (h.fair slot u hu)

theorem Inv.withCurrent {s : SchedSys} (h : s.Inv)
    {f : TaskSchedInfo → TaskSchedInfo} (hf : ∀ t, t.Fair → (f t).Fair) :
    (s.withCurrent f).Inv := by
  apply h.update
  intro slot t ht
  split
  · exact hf t ht
  · exact ht

theorem fair_state {t : TaskSchedInfo} (h : t.Fair) (state : TaskState) :
    ({ t with state := state } : TaskSchedInfo).Fair :=
  ⟨h.positive, h.priority, h.counter⟩

theorem Inv.recharge {s : SchedSys} (h : s.Inv) : s.recharge.Inv := by
  have hslot : ∀ slot, (s.recharge.tasks slot).isSome
      = (s.tasks slot).isSome := by
    intro slot
    show (if slot = idleSlot then _ else _ : Option TaskSchedInfo).isSome = _
    split
    · rfl
    · rw [Option.isSome_map]
  refine ⟨?_, ?_, fun slot t ht => ?_⟩
  · rw [hslot]
    exact h.idle
  · rw [hslot]
    exact h.current
  · have ht : (if slot = idleSlot then s.tasks slot
        else (s.tasks slot).map _) = some t := ht
    split at ht
    · exact h.fair slot t ht
    · obtain ⟨u, hu, rfl⟩ := Option.map_eq_some_iff.mp ht
      have hfair := h.fair slot u hu
      obtain ⟨hsum, hlt, -⟩ := recharged_counter hfair
      exact ⟨hfair.positive, hfair.priority, hsum ▸ hlt⟩

-- ======== the selection

theorem mem_drop_iff (slot : Fin taskNum) :
    slot ∈ (List.finRange taskNum).drop 1 ↔ slot ≠ idleSlot := by
  revert slot
  decide

theorem mem_runnable {s : SchedSys} {slot : Fin taskNum} {c : BitVec 32} :
    (slot, c) ∈ s.runnable ↔ slot ≠ idleSlot
        ∧ ∃ t, s.tasks slot = some t ∧ t.state = .running ∧ t.counter = c := by
  unfold runnable
  rw [List.mem_filterMap]
  constructor
  · intro h
    obtain ⟨i, hi, h⟩ := h
    obtain ⟨t, ht, h⟩ := Option.bind_eq_some_iff.mp h
    obtain ⟨hstate, h⟩ := Option.ite_none_right_eq_some.mp h
    cases h
    exact ⟨(mem_drop_iff slot).mp hi, t, ht, hstate, rfl⟩
  · intro h
    obtain ⟨hslot, t, ht, hstate, rfl⟩ := h
    refine ⟨slot, (mem_drop_iff slot).mpr hslot, ?_⟩
    rw [ht, Option.bind_some, if_pos hstate]

/-- What a selection is: `chosen` is the idle task if no other one runs,
and otherwise a running one whose counter, after at most one round of new
slices, is positive and the largest, the highest slot of those. -/
structure Selected (s : SchedSys) (chosen : Fin taskNum) (s' : SchedSys) :
    Prop where
  rounds : s' = s ∨ s' = s.recharge
  idle : chosen = idleSlot ↔ ∀ slot t, slot ≠ idleSlot →
    s.tasks slot = some t → t.state ≠ .running
  best : chosen ≠ idleSlot →
    ∃ t, s'.tasks chosen = some t ∧ t.state = .running ∧ 0 < t.counter.toNat
      ∧ ∀ slot u, slot ≠ idleSlot → s'.tasks slot = some u →
        u.state = .running → u.counter.toNat < t.counter.toNat
          ∨ u.counter.toNat = t.counter.toNat ∧ slot.val ≤ chosen.val

theorem best_of_max {s : SchedSys} {best : Candidate}
    (hmem : best ∈ s.runnable)
    (hmax : ∀ x ∈ s.runnable, Candidate.le x best = true) :
    best.1 ≠ idleSlot ∧ ∃ t, s.tasks best.1 = some t ∧ t.state = .running
      ∧ t.counter = best.2
      ∧ ∀ slot u, slot ≠ idleSlot → s.tasks slot = some u →
        u.state = .running → u.counter.toNat < t.counter.toNat
          ∨ u.counter.toNat = t.counter.toNat ∧ slot.val ≤ best.1.val := by
  obtain ⟨hslot, t, ht, hstate, hcounter⟩ := Iff.mp mem_runnable hmem
  refine ⟨hslot, t, ht, hstate, hcounter, fun slot u hne hu hrun => ?_⟩
  rw [hcounter]
  exact Iff.mp Candidate.le_iff
    (hmax (slot, u.counter) (Iff.mpr mem_runnable ⟨hne, u, hu, hrun, rfl⟩))

theorem recharge_running {s : SchedSys} {slot : Fin taskNum}
    (hslot : slot ≠ idleSlot) {t : TaskSchedInfo} (ht : s.tasks slot = some t) :
    s.recharge.tasks slot
      = some { t with counter := (t.counter >>> 1) + t.priority } := by
  show (if slot = idleSlot then s.tasks slot else (s.tasks slot).map _) = _
  rw [if_neg hslot, ht]
  rfl

/-- Two rounds are enough: counters that are all zero are filled up once. -/
theorem selectNextTask_spec {s : SchedSys} (h : s.Inv) :
    ∃ chosen s', (∀ fuel, 2 ≤ fuel → selectNextTask fuel s
        = some (if s.current ≠ chosen then some chosen else none, s'))
      ∧ s.Selected chosen s' ∧ s'.Inv ∧ s'.current = s.current
      ∧ (s'.tasks chosen).isSome := by
  obtain ⟨t₀, ht₀⟩ := Option.isSome_iff_exists.mp h.idle
  rcases maxByKey_spec s.runnable with ⟨hnone, hempty⟩ | ⟨best, hbest, hmem,
    hmax⟩
  · -- nobody runs: the idle task
    refine ⟨idleSlot, s, fun fuel hfuel => ?_, ⟨.inl rfl, ?_, ?_⟩, h, rfl,
      h.idle⟩
    · obtain ⟨k, rfl⟩ : ∃ k, fuel = k + 1 := ⟨fuel - 1, by omega⟩
      unfold selectNextTask
      rw [hnone]
      simp only
      split
      · rw [ht₀]
        rfl
      · rfl
    · refine iff_of_true rfl fun slot t hslot ht hrun => ?_
      have hin := Iff.mpr mem_runnable ⟨hslot, t, ht, hrun, rfl⟩
      rw [hempty] at hin
      cases hin
    · exact fun hne => absurd rfl hne
  · obtain ⟨hslot, t, ht, hrun, hcounter, hall⟩ := best_of_max hmem hmax
    have hidle : ∀ chosen, chosen ≠ idleSlot → (chosen = idleSlot
        ↔ ∀ slot t, slot ≠ idleSlot → s.tasks slot = some t →
          t.state ≠ .running) :=
      fun chosen hne => iff_of_false hne fun hno => hno best.1 t hslot ht hrun
    obtain ⟨next, counter⟩ := best
    by_cases hpos : 0#32 < counter
    · -- the greatest counter is positive
      refine ⟨next, s, fun fuel hfuel => ?_, ⟨.inl rfl, hidle next hslot,
        fun _ => ⟨t, ht, hrun, ?_, hall⟩⟩, h, rfl, by rw [ht]; rfl⟩
      · obtain ⟨k, rfl⟩ : ∃ k, fuel = k + 1 := ⟨fuel - 1, by omega⟩
        unfold selectNextTask
        rw [hbest]
        exact if_pos hpos
      · rw [hcounter]
        exact BitVec.lt_def.mp hpos
    · -- every slice is used up: one round, and the counters are positive
      have hrecharged := recharge_running hslot ht
      rcases maxByKey_spec s.recharge.runnable with ⟨-, hempty⟩
        | ⟨best', hbest', hmem', hmax'⟩
      · have hin := Iff.mpr mem_runnable ⟨hslot, _, hrecharged, hrun, rfl⟩
        rw [hempty] at hin
        cases hin
      · obtain ⟨hslot', t', ht', hrun', hcounter', hall'⟩ :=
          best_of_max hmem' hmax'
        have hpos' : 0 < t'.counter.toNat := by
          have ht'' : (if best'.1 = idleSlot then s.tasks best'.1
            else (s.tasks best'.1).map _) = some t' := ht'
          rw [if_neg hslot'] at ht''
          obtain ⟨u, hu, rfl⟩ := Option.map_eq_some_iff.mp ht''
          obtain ⟨hsum, -, hone⟩ := recharged_counter (h.fair _ u hu)
          rw [hsum]
          exact hone
        obtain ⟨next', counter'⟩ := best'
        refine ⟨next', s.recharge, fun fuel hfuel => ?_, ⟨.inr rfl,
          hidle next' hslot', fun _ => ⟨t', ht', hrun', hpos', hall'⟩⟩,
          h.recharge, rfl, by rw [ht']; rfl⟩
        obtain ⟨k, rfl⟩ : ∃ k, fuel = k + 2 := ⟨fuel - 2, by omega⟩
        unfold selectNextTask
        rw [hbest]
        refine (if_neg hpos).trans ?_
        unfold selectNextTask
        rw [hbest']
        have hpos'' : 0#32 < counter' := by
          rw [BitVec.lt_def, ← (show t'.counter = counter' from hcounter')]
          exact hpos'
        exact if_pos hpos''

-- ======== the runs

theorem Inv.boot : SchedSys.boot.Inv := by
  refine ⟨rfl, rfl, fun slot t ht => ?_⟩
  obtain ⟨-, ht⟩ := Option.ite_none_right_eq_some.mp ht
  cases ht
  exact ⟨by decide, by decide, by decide⟩

theorem selectNextTask_succ {fuel : Nat} {s : SchedSys}
    {r : Option (Fin taskNum) × SchedSys}
    (h : selectNextTask fuel s = some r) :
    selectNextTask (fuel + 1) s = some r := by
  induction fuel generalizing s with
  | zero => cases h
  | succ k ih =>
    unfold selectNextTask at h ⊢
    cases hmax : maxByKey s.runnable with
    | none =>
      rw [hmax] at h
      exact h
    | some best =>
      obtain ⟨next, counter⟩ := best
      rw [hmax] at h
      simp only at h ⊢
      split
      · next hpos =>
        rw [if_pos hpos] at h
        exact h
      · next hpos =>
        rw [if_neg hpos] at h
        exact ih h

theorem selectNextTask_of_le {fuel k : Nat} {s : SchedSys}
    {r : Option (Fin taskNum) × SchedSys} (hle : fuel ≤ k)
    (h : selectNextTask fuel s = some r) : selectNextTask k s = some r := by
  induction hle with
  | refl => exact h
  | step _ ih => exact selectNextTask_succ ih

theorem Inv.schedule {fuel : Nat} {s s' : SchedSys} (h : s.Inv)
    {due : Fin taskNum → Bool} (hs : s.schedule fuel due = some s') :
    s'.Inv := by
  have hwoken := h.update (f := fun slot t =>
      if due slot ∧ t.state = .interruptible then
        { t with state := TaskState.running } else t) (fun slot t ht => by
    split
    · exact fair_state ht _
    · exact ht)
  obtain ⟨⟨next, s₁⟩, hselect, rfl⟩ := Option.map_eq_some_iff.mp hs
  obtain ⟨chosen, s₂, hspec, -, hinv, hcurrent, hthere⟩ :=
    selectNextTask_spec hwoken
  have hsame := (hspec (fuel + 2) (by omega)).symm.trans
    (selectNextTask_of_le (Nat.le_add_right fuel 2) hselect)
  cases hsame
  refine ⟨hinv.idle, ?_, hinv.fair⟩
  rw [hcurrent]
  split
  · exact hthere
  · next heq =>
    rw [Decidable.not_not.mp heq]
    exact hthere

/-- Every step keeps the counters in their bounds. -/
theorem Inv.step {fuel : Nat} {s s' : SchedSys} (h : s.Inv) {a : Act}
    (hstep : s.step fuel a = some s') : s'.Inv := by
  cases a with
  | fork =>
    obtain ⟨parent, hparent, hstep⟩ := Option.bind_eq_some_iff.mp hstep
    obtain ⟨slot, hslot, hstep⟩ := Option.bind_eq_some_iff.mp hstep
    cases hstep
    have hfair := h.fair _ _ hparent
    have hthere : ∀ i, (s.tasks i).isSome → (Function.update s.tasks slot
        (some ⟨.running, parent.priority, parent.priority⟩) i).isSome := by
      intro i hi
      by_cases heq : i = slot
      · subst heq
        rw [Function.update_self]
        rfl
      · rw [Function.update_of_ne heq]
        exact hi
    refine ⟨hthere _ h.idle, hthere _ h.current, fun i t ht => ?_⟩
    have ht : Function.update s.tasks slot
        (some ⟨.running, parent.priority, parent.priority⟩) i = some t := ht
    by_cases heq : i = slot
    · subst heq
      rw [Function.update_self] at ht
      cases ht
      have hbound := hfair.priority
      have hboot : bootPriority.toNat = 15 := rfl
      exact ⟨hfair.positive, hbound, by show parent.priority.toNat < _; omega⟩
    · rw [Function.update_of_ne heq] at ht
      exact h.fair i t ht
  | nice increment =>
    cases hstep
    apply h.withCurrent
    intro t ht
    split
    · next hlt =>
      have hlt := BitVec.lt_def.mp hlt
      have hsub : (t.priority - increment).toNat
          = t.priority.toNat - increment.toNat :=
        BitVec.toNat_sub_of_le (BitVec.le_def.mpr (Nat.le_of_lt hlt))
      have hbound := ht.priority
      refine ⟨?_, ?_, ht.counter⟩
      · show 1 ≤ (t.priority - increment).toNat
        omega
      · show (t.priority - increment).toNat ≤ _
        omega
    · exact ht
  | tick user due =>
    have hticked := h.withCurrent (f := fun t =>
        if 0#32 < t.counter then { t with counter := t.counter - 1#32 }
        else t) (fun t ht => by
      split
      · next hpos =>
        have hpos : 0 < t.counter.toNat := BitVec.lt_def.mp hpos
        have hsub : (t.counter - 1#32).toNat = t.counter.toNat - 1 :=
          BitVec.toNat_sub_of_le (BitVec.le_def.mpr hpos)
        have hbound := ht.counter
        refine ⟨ht.positive, ht.priority, ?_⟩
        show (t.counter - 1#32).toNat < _
        omega
      · exact ht)
    unfold SchedSys.step tick at hstep
    simp only at hstep
    split at hstep
    · cases hstep
    · split at hstep
      · exact hticked.schedule hstep
      · cases hstep
        exact hticked
  | sleep state =>
    cases hstep
    exact h.withCurrent fun t ht => fair_state ht state
  | wake slot =>
    cases hstep
    apply h.update
    intro i t ht
    split
    · exact fair_state ht _
    · exact ht
  | exit =>
    obtain ⟨-, hstep⟩ := Option.ite_none_left_eq_some.mp hstep
    cases hstep
    exact h.withCurrent fun t ht => fair_state ht _
  | reap slot =>
    obtain ⟨hslot, hstep⟩ := Option.ite_none_left_eq_some.mp hstep
    cases hstep
    refine ⟨?_, ?_, fun i t ht => ?_⟩
    · show (Function.update s.tasks slot none idleSlot).isSome
      rw [Function.update_of_ne fun heq => hslot (.inl heq.symm)]
      exact h.idle
    · show (Function.update s.tasks slot none s.current).isSome
      rw [Function.update_of_ne fun heq => hslot (.inr heq.symm)]
      exact h.current
    · have ht : Function.update s.tasks slot none i = some t := ht
      by_cases heq : i = slot
      · subst heq
        rw [Function.update_self] at ht
        cases ht
      · rw [Function.update_of_ne heq] at ht
        exact h.fair i t ht
  | schedule due => exact h.schedule hstep

/-- In every state that forks, calls of `nice`, ticks, sleeps, wakes,
exits and calls of `schedule` lead to: the selection returns, whatever the
fuel from two turns on, and is as `Selected` says; and every counter is
below twice the priority at boot, the half of it and the priority far from
an overflow. -/
theorem select_next_task {fuel : Nat} {s : SchedSys}
    (h : Reachable (SchedSys.step fuel) SchedSys.boot s) :
    (∃ chosen s', (∀ k, 2 ≤ k → selectNextTask k s
        = some (if s.current ≠ chosen then some chosen else none, s'))
      ∧ s.Selected chosen s')
    ∧ ∀ slot t, s.tasks slot = some t →
      t.counter.toNat < 2 * bootPriority.toNat
      ∧ ((t.counter >>> 1) + t.priority).toNat
        = (t.counter >>> 1).toNat + t.priority.toNat := by
  have hinv : s.Inv :=
    h.invariant Inv.boot fun _ _ _ hs hstep => hs.step hstep
  obtain ⟨chosen, s', hspec, hselected, -⟩ := selectNextTask_spec hinv
  refine ⟨⟨chosen, s', hspec, hselected⟩, fun slot t ht => ?_⟩
  have hfair := hinv.fair slot t ht
  refine ⟨hfair.counter, ?_⟩
  rw [(recharged_counter hfair).1, BitVec.toNat_ushiftRight,
    Nat.shiftRight_eq_div_pow]

def twoTasks : List Act :=
  [.fork, .fork, .schedule fun _ => false, .nice 5#32,
    .sleep .uninterruptible, .schedule fun _ => false, .exit]

/-- The nicer one is chosen once it is awake and the other one is gone. -/
theorem select_next_task_two :
    ∃ s, run (SchedSys.step 2) SchedSys.boot twoTasks = some s
      ∧ ∃ chosen s', s.Selected chosen s' := by
  obtain ⟨s, hs⟩ := Option.isSome_iff_exists.mp
    (show (run (SchedSys.step 2) SchedSys.boot twoTasks).isSome = true by
      decide)
  obtain ⟨⟨chosen, s', -, hselected⟩, -⟩ :=
    select_next_task (.of_run .refl hs)
  exact ⟨s, hs, chosen, s', hselected⟩

end SchedSys

end LinuxRs.Task
