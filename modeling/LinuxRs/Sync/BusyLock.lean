/-
The busy lock (kernel/src/sync/busy_lock.rs): one busy bit and a wait
queue, no owner.

# The system

`acquire` and `wait` are the same loop, `while locked { sleep }`, with a
different ending, so one turn of the loop is one definition (`turn`).
The kernel switches tasks only inside `sleep`, and both callers keep
interrupts masked, so a turn is atomic: it either finishes the call or
leaves the caller's frame inside `schedule()`, remembering the previous
occupant of the slot. A frame resumes once somebody made its task
runnable; it first wakes the task it remembers and then takes the next
turn. `release` comes from whoever finishes the work the lock stands
for, an interrupt handler included.

Task states are shared with the rest of the kernel. `elsewhere` covers
that: a task outside the lock's code may do anything to its own state,
and another queue may make a task of this lock runnable too early.

# The invariant

The line of sleepers is a linked structure spread over frames, `Link`.
Every sleeper hangs off the slot or off a task that was woken and has
not run yet (`Inv.reach`). A turn only ever redirects the link of the
task that takes it, after the old target has been woken, so a path that
used the old link can start at its target instead (`path_split`).
-/
import LinuxRs.Lib.Run
import LinuxRs.Sync.WaitQueue

namespace LinuxRs.Sync

open Relation (ReflTransGen)
open Function (update update_self update_of_ne)

universe u

variable {T : Type u} [DecidableEq T]

-- ======== the system

inductive LockOp
  | acquire
  | wait
  deriving DecidableEq

/-- Where a task's kernel stack stands: outside the lock's code, or in
the `schedule()` of `WaitQueue::sleep` called from `op`. -/
inductive Frame (T : Type u)
  | outside
  | asleep (op : LockOp) (handoffSlot : Option T)
  deriving DecidableEq

/-- One lock (`BusyLock`), the scheduling states and stacks of all
tasks, and the tasks whose `acquire` has returned and whose hold has
not been released. -/
structure LockSys (T : Type u) where
  locked : Bool
  waitQueue : WaitQueue T
  state : T → TaskState
  frame : T → Frame T
  holders : List T

/-- `BusyLock::new` among tasks in any states. -/
def LockSys.new (state : T → TaskState) : LockSys T where
  locked := false
  waitQueue := WaitQueue.new
  state := state
  frame := fun _ => .outside
  holders := []

/-- One turn of `while locked { sleep }`, and the code after the loop
when the lock turns out free. -/
def LockSys.turn (s : LockSys T) (op : LockOp) (me : T) : LockSys T :=
  if s.locked then
    let (q, handoffSlot, state) := s.waitQueue.sleepBegin s.state me
    { s with
      waitQueue := q
      state := state
      frame := update s.frame me (.asleep op handoffSlot) }
  else
    match op with
    | .acquire =>
      { s with
        locked := true
        holders := me :: s.holders
        frame := update s.frame me .outside }
    | .wait => { s with frame := update s.frame me .outside }

/-- A task asks, goes on after its sleep, or gives the lock back. -/
inductive LockAct (T : Type u)
  | call (op : LockOp) (t : T)
  | resume (t : T)
  | release (holder : T)
  | elsewhere (t : T) (st : TaskState)

/-- One step of the system. A `release` of an unlocked lock fails its
assertion and has no successor. -/
def LockSys.step (s : LockSys T) : LockAct T → Option (LockSys T)
  | .call op t =>
    if s.frame t = .outside ∧ s.state t = .running then
      some (s.turn op t)
    else none
  | .resume t =>
    match s.frame t with
    | .asleep op handoffSlot =>
      if s.state t = .running then
        some ({ s with state := wakeHandoff s.state handoffSlot }.turn op t)
      else none
    | .outside => none
  | .release holder =>
    if s.locked ∧ holder ∈ s.holders then
      let (q, state) := s.waitQueue.wake s.state
      some { s with
        locked := false
        waitQueue := q
        state := state
        holders := s.holders.erase holder }
    else none
  | .elsewhere t st =>
    if s.frame t = .outside ∨ st = .running then
      some { s with state := update s.state t st }
    else none

-- ======== vocabulary

/-- `t` sleeps uninterruptibly on the lock. -/
def LockSys.Asleep (s : LockSys T) (t : T) : Prop :=
  s.frame t ≠ .outside ∧ s.state t = .uninterruptible

/-- `t` has been woken and has not run since. -/
def LockSys.Woken (s : LockSys T) (t : T) : Prop :=
  s.frame t ≠ .outside ∧ s.state t = .running

/-- The saved-previous link: `a`'s frame will wake `b`. -/
def LockSys.Link (s : LockSys T) (a b : T) : Prop :=
  ∃ op, s.frame a = .asleep op (some b)

/-- Where a chain of sleepers starts: the queue's head or a woken task. -/
def LockSys.Root (s : LockSys T) (r : T) : Prop :=
  s.waitQueue.slot = some r ∨ s.Woken r

/-- Every sleeper hangs on a task that will wake it. -/
structure LockSys.Inv (s : LockSys T) : Prop where
  /-- The busy bit counts the holders. -/
  holders_eq : s.holders.length = if s.locked then 1 else 0
  /-- A free lock has an empty slot. -/
  slot_free : s.locked = false → s.waitQueue.slot = none
  /-- A frame on the lock is asleep or woken. -/
  frame_state : ∀ t, s.frame t ≠ .outside → s.Asleep t ∨ s.Woken t
  /-- Every sleeper hangs off the slot or off a woken task. -/
  reach : ∀ t, s.Asleep t → ∃ r, s.Root r ∧ ReflTransGen s.Link r t

-- ======== paths around a task

omit [DecidableEq T] in
theorem path_from_outside {s : LockSys T} {a b : T}
    (ha : s.frame a = .outside) (h : ReflTransGen s.Link a b) : a = b := by
  rcases Relation.ReflTransGen.cases_head h with rfl | ⟨c, ⟨op, hc⟩, -⟩
  · rfl
  · rw [ha] at hc
    cases hc

-- ======== one turn

/-- What one turn does to the parts the invariant reads. The pre-state
`s` may have the caller in any frame; only the caller's frame, state
and the slot move. -/
theorem turn_cases (s : LockSys T) (op : LockOp) (me : T) : (s.locked = true
        ∧ s.turn op me = { s with
            waitQueue := ⟨some me⟩
            state := update s.state me .uninterruptible
            frame := update s.frame me (.asleep op s.waitQueue.slot) })
      ∨ (s.locked = false ∧ op = .acquire ∧ s.turn op me = { s with
            locked := true
            holders := me :: s.holders
            frame := update s.frame me .outside })
      ∨ (s.locked = false ∧ op = .wait ∧ s.turn op me = { s with
            frame := update s.frame me .outside }) := by
  cases hl : s.locked with
  | true => exact Or.inl ⟨rfl, by simp [LockSys.turn, WaitQueue.sleepBegin, hl]⟩
  | false =>
    cases op with
    | acquire => exact Or.inr (Or.inl ⟨rfl, rfl, by simp [LockSys.turn, hl]⟩)
    | wait => exact Or.inr (Or.inr ⟨rfl, rfl, by simp [LockSys.turn, hl]⟩)

theorem turn_frame_of_ne (s : LockSys T) (op : LockOp) {me t : T}
    (hne : t ≠ me) : (s.turn op me).frame t = s.frame t := by
  rcases turn_cases s op me with ⟨-, h⟩ | ⟨-, -, h⟩ | ⟨-, -, h⟩ <;>
    rw [h] <;> exact update_of_ne hne ..

theorem turn_state_of_ne (s : LockSys T) (op : LockOp) {me t : T}
    (hne : t ≠ me) : (s.turn op me).state t = s.state t := by
  rcases turn_cases s op me with ⟨-, h⟩ | ⟨-, -, h⟩ | ⟨-, -, h⟩ <;> rw [h]
  exact update_of_ne hne ..

theorem turn_slot_reached {s : LockSys T} (op : LockOp) (me : T) {r : T}
    (hr : s.waitQueue.slot = some r) :
    ∃ r', (s.turn op me).Root r' ∧ ReflTransGen (s.turn op me).Link r' r := by
  rcases turn_cases s op me with ⟨-, h⟩ | ⟨-, -, h⟩ | ⟨-, -, h⟩
  · refine ⟨me, Or.inl (by rw [h]), .single ⟨op, ?_⟩⟩
    rw [h]
    simp only [update_self, hr]
  · exact ⟨r, Or.inl (by rw [h]; exact hr), .refl⟩
  · exact ⟨r, Or.inl (by rw [h]; exact hr), .refl⟩

theorem turn_path {s : LockSys T} (op : LockOp) {me a b : T}
    (h : ReflTransGen (fun x y => s.Link x y ∧ x ≠ me) a b) :
    ReflTransGen (s.turn op me).Link a b := by
  refine ReflTransGen.mono ?_ _ _ h
  rintro x y ⟨⟨op', hx⟩, hne⟩
  exact ⟨op', by rw [turn_frame_of_ne s op hne, hx]⟩

/-- Behind a turn every sleeper is still reached from a task that will wake
it. -/
theorem turn_reach {s : LockSys T} (op : LockOp) {me : T}
    (hwoken : ∀ c, s.Link me c → s.state c = .running)
    (hreach : ∀ t, s.Asleep t → ∃ r, s.Root r ∧ ReflTransGen s.Link r t) :
    ∀ t, t ≠ me → (s.turn op me).Asleep t →
      ∃ r, (s.turn op me).Root r ∧ ReflTransGen (s.turn op me).Link r t := by
  rintro t hne ⟨hf, hs⟩
  rw [turn_frame_of_ne s op hne] at hf
  rw [turn_state_of_ne s op hne] at hs
  -- a path that avoids the caller's own link cannot start at the caller
  have hstart : ∀ {a}, ReflTransGen (fun x y => s.Link x y ∧ x ≠ me) a t →
      a ≠ me := by
    rintro a hpath rfl
    rcases Relation.ReflTransGen.cases_head hpath with he | ⟨c, ⟨-, hc⟩, -⟩
    · exact hne he.symm
    · exact hc rfl
  have hroot : ∀ {a}, ReflTransGen (fun x y => s.Link x y ∧ x ≠ me) a t →
      s.Woken a → (s.turn op me).Root a := by
    rintro a hpath ⟨haf, has⟩
    refine Or.inr ⟨?_, ?_⟩
    · rw [turn_frame_of_ne s op (hstart hpath)]
      exact haf
    · rw [turn_state_of_ne s op (hstart hpath)]
      exact has
  obtain ⟨r, hr, hpath⟩ := hreach t ⟨hf, hs⟩
  rcases path_split me hpath with hpath | ⟨c, hlink, hpath⟩
  · rcases hr with hslot | hw
    · obtain ⟨r', hr', hpath'⟩ := turn_slot_reached op me hslot
      exact ⟨r', hr', hpath'.trans (turn_path op hpath)⟩
    · exact ⟨r, hroot hpath hw, turn_path op hpath⟩
  · have hcf : s.frame c ≠ .outside := by
      intro hout
      have hct := path_from_outside hout
        (ReflTransGen.mono (fun _ _ h => h.1) _ _ hpath)
      rw [hct] at hout
      exact hf hout
    exact ⟨c, hroot hpath ⟨hcf, hwoken c hlink⟩, turn_path op hpath⟩

/-- A turn on the lock hands the queue on as the sleepers are linked. -/
theorem LockSys.Inv.turn {s : LockSys T} (hs : s.Inv) (op : LockOp) {me : T}
    (hwoken : ∀ c, s.Link me c → s.state c = .running) :
    (s.turn op me).Inv := by
  have hreach := turn_reach op hwoken hs.reach
  have hother : ∀ t, t ≠ me → (s.turn op me).frame t ≠ .outside →
      (s.turn op me).Asleep t ∨ (s.turn op me).Woken t := by
    intro t hne hf
    rw [LockSys.Asleep, LockSys.Woken, turn_state_of_ne s op hne]
    have hf' := hf
    rw [turn_frame_of_ne s op hne] at hf'
    exact (hs.frame_state t hf').imp (fun h => ⟨hf, h.2⟩) fun h => ⟨hf, h.2⟩
  rcases turn_cases s op me with ⟨hl, h⟩ | ⟨hl, -, h⟩ | ⟨hl, -, h⟩
  · -- the caller sleeps: it is the new occupant of the slot
    have hme : (s.turn op me).Asleep me := by
      rw [h]
      exact ⟨by simp only [update_self]; exact nofun, update_self ..⟩
    refine ⟨?_, ?_, ?_, ?_⟩
    · have := hs.holders_eq
      rw [h]
      simpa [hl] using this
    · intro hfree
      rw [h] at hfree
      simp [hl] at hfree
    · intro t hf
      by_cases hne : t = me
      · subst hne
        exact Or.inl hme
      · exact hother t hne hf
    · intro t ht
      by_cases hne : t = me
      · subst hne
        exact ⟨t, Or.inl (by rw [h]), .refl⟩
      · exact hreach t hne ht
  · -- the caller takes the lock
    have hout : (s.turn op me).frame me = .outside := by
      rw [h]
      exact update_self ..
    refine ⟨?_, ?_, ?_, ?_⟩
    · have := hs.holders_eq
      rw [h]
      simp only [List.length_cons, if_true]
      simpa [hl] using this
    · intro hfree
      rw [h] at hfree
      cases hfree
    · intro t hf
      by_cases hne : t = me
      · exact absurd hout (hne ▸ hf)
      · exact hother t hne hf
    · intro t ht
      by_cases hne : t = me
      · exact absurd hout (hne ▸ ht.1)
      · exact hreach t hne ht
  · -- the caller only waited
    have hout : (s.turn op me).frame me = .outside := by
      rw [h]
      exact update_self ..
    refine ⟨?_, ?_, ?_, ?_⟩
    · rw [h]
      exact hs.holders_eq
    · intro hfree
      rw [h] at hfree ⊢
      exact hs.slot_free hfree
    · intro t hf
      by_cases hne : t = me
      · exact absurd hout (hne ▸ hf)
      · exact hother t hne hf
    · intro t ht
      by_cases hne : t = me
      · exact absurd hout (hne ▸ ht.1)
      · exact hreach t hne ht

-- ======== the other steps

theorem LockSys.Inv.afterWake {s : LockSys T} (hs : s.Inv) (h : Option T) :
    { s with state := wakeHandoff s.state h }.Inv := by
  refine ⟨hs.holders_eq, hs.slot_free, ?_, ?_⟩
  · intro t hf
    by_cases ht : h = some t
    · exact Or.inr ⟨hf, by subst ht; exact wakeHandoff_target ..⟩
    · rw [LockSys.Asleep, LockSys.Woken]
      simp only [wakeHandoff_of_ne ht]
      exact hs.frame_state t hf
  · rintro t ⟨hf, hst⟩
    have hne : h ≠ some t := by
      rintro rfl
      simp only [wakeHandoff_target] at hst
      cases hst
    simp only [wakeHandoff_of_ne hne] at hst
    obtain ⟨r, hr, hpath⟩ := hs.reach t ⟨hf, hst⟩
    exact ⟨r, hr.imp id fun hw => ⟨hw.1, wakeHandoff_running hw.2⟩, hpath⟩

theorem LockSys.Inv.release {s : LockSys T} (hs : s.Inv) {holder : T}
    (hl : s.locked = true) (hh : holder ∈ s.holders) : LockSys.Inv { s with
      locked := false
      waitQueue := ⟨none⟩
      state := wakeHandoff s.state s.waitQueue.slot
      holders := s.holders.erase holder } := by
  have hw := hs.afterWake s.waitQueue.slot
  refine ⟨?_, fun _ => rfl, hw.frame_state, ?_⟩
  · have := hs.holders_eq
    rw [hl, if_pos rfl] at this
    simp only [List.length_erase_of_mem hh, this]
    rfl
  · intro t ht
    obtain ⟨r, hr, hpath⟩ := hw.reach t ht
    rcases hr with hslot | hwoken
    · -- the occupant of the slot has just been made runnable
      have hslot' : s.waitQueue.slot = some r := hslot
      by_cases hrf : s.frame r = .outside
      · have hrt : r = t := path_from_outside hrf hpath
        exact absurd hrf (hrt ▸ ht.1)
      · exact ⟨r, Or.inr ⟨hrf, by
          simp only [hslot']; exact wakeHandoff_target ..⟩, hpath⟩
    · exact ⟨r, Or.inr hwoken, hpath⟩

theorem LockSys.Inv.outside {s : LockSys T} (hs : s.Inv) {t : T} (st : TaskState)
    (ht : s.frame t = .outside) :
    { s with state := update s.state t st }.Inv := by
  have hstate : ∀ u, s.frame u ≠ .outside →
      update s.state t st u = s.state u := by
    intro u hu
    refine update_of_ne ?_ ..
    rintro rfl
    exact hu ht
  refine ⟨hs.holders_eq, hs.slot_free, ?_, ?_⟩
  · intro u hu
    rw [LockSys.Asleep, LockSys.Woken]
    simp only [hstate u hu]
    exact hs.frame_state u hu
  · rintro u ⟨hu, hst⟩
    simp only [hstate u hu] at hst
    obtain ⟨r, hr, hpath⟩ := hs.reach u ⟨hu, hst⟩
    exact ⟨r, hr.imp id fun hw => ⟨hw.1, by
      simp only [hstate r hw.1]; exact hw.2⟩, hpath⟩

/-- Every step keeps the invariant. -/
theorem LockSys.Inv.step {s s' : LockSys T} {a : LockAct T} (hs : s.Inv)
    (h : s.step a = some s') : s'.Inv := by
  cases a with
  | call op t =>
    simp only [LockSys.step] at h
    split at h
    · next hg =>
      injection h with h
      subst h
      refine hs.turn op ?_
      rintro c ⟨op', hc⟩
      rw [hg.1] at hc
      cases hc
    · cases h
  | resume t =>
    simp only [LockSys.step] at h
    split at h
    · next op handoffSlot hf =>
      split at h
      · injection h with h
        subst h
        refine (hs.afterWake handoffSlot).turn op ?_
        rintro c ⟨op', hc⟩
        -- the caller's frame still is the one whose handoff just ran
        have hc' : s.frame t = .asleep op' (some c) := hc
        rw [hf] at hc'
        injection hc' with _ hc'
        subst hc'
        exact wakeHandoff_target ..
      · cases h
    · cases h
  | release holder =>
    simp only [LockSys.step] at h
    split at h
    · next hg =>
      injection h with h
      subst h
      exact hs.release hg.1 hg.2
    · cases h
  | elsewhere t st =>
    simp only [LockSys.step] at h
    split at h
    · next hg =>
      injection h with h
      subst h
      by_cases hf : s.frame t = .outside
      · exact hs.outside st hf
      · have hst : st = .running := hg.resolve_left hf
        subst hst
        exact hs.afterWake (some t)
    · cases h

omit [DecidableEq T] in
theorem LockSys.Inv.new (state : T → TaskState) : (LockSys.new state).Inv := by
  refine ⟨rfl, fun _ => rfl, ?_, ?_⟩
  · intro t hf
    exact absurd rfl hf
  · rintro t ⟨hf, -⟩
    exact absurd rfl hf

-- ======== the theorem

/-- In every state of every run: one holder at most; every task asleep
on the lock is reached along the saved-previous links from the slot or
from a woken task that has not run; and a free lock with no woken task
pending has nobody left asleep on it. -/
theorem busy_lock_no_lost_sleeper {state : T → TaskState} {s : LockSys T}
    (h : Lib.Reachable LockSys.step (LockSys.new state) s) :
    s.holders.length ≤ 1
      ∧ (∀ t, s.Asleep t → ∃ r, s.Root r ∧ ReflTransGen s.Link r t)
      ∧ (s.locked = false → (∀ t, ¬ s.Woken t) → ∀ t, ¬ s.Asleep t) := by
  have hinv : s.Inv :=
    h.invariant (LockSys.Inv.new state) fun _ _ _ hs hstep => hs.step hstep
  refine ⟨?_, hinv.reach, ?_⟩
  · rw [hinv.holders_eq]
    split <;> omega
  · intro hfree hnone t ht
    obtain ⟨r, hr, -⟩ := hinv.reach t ht
    rcases hr with hslot | hw
    · rw [hinv.slot_free hfree] at hslot
      cases hslot
    · exact hnone r hw

/-- Three tasks: one holds the lock, two queue up behind it, the holder
releases, and the second sleeper runs and wakes the first. -/
theorem busy_lock_no_lost_sleeper_three : ∃ s : LockSys (Fin 3),
      Lib.run LockSys.step (LockSys.new fun _ => .running)
          [.call .acquire 0, .call .acquire 1, .call .wait 2, .release 0,
            .resume 2] = some s
        ∧ s.Woken 1 ∧ s.holders.length ≤ 1 := by
  have hrun : Lib.run LockSys.step (LockSys.new fun _ => .running)
      [.call .acquire 0, .call .acquire 1, .call .wait 2, .release 0,
        .resume (2 : Fin 3)] = some _ := rfl
  refine ⟨_, hrun, ⟨by decide, by decide⟩, ?_⟩
  exact (busy_lock_no_lost_sleeper (.of_run .refl hrun)).1

end LinuxRs.Sync
