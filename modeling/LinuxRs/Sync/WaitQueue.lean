/-
The single-slot wait queue (kernel/src/task/wait_queue.rs).

The queue object holds one task reference. Everything else about the
waiting line lives in the stack frames of the sleepers: `sleep` swaps
itself into the slot and keeps what it found there in the local
`handoff_slot`, and once it runs again it wakes that task. This module
gives the primitives as functions on the slot and the scheduling
states; who runs when is the business of the systems built on top.

Tasks are an arbitrary type `T`. A `Weak<Task>` that no longer upgrades
belongs to a task that is gone, and waking a task that is not asleep
changes nothing a queue looks at, so a task stands for its own
reference.
-/
import Mathlib.Logic.Function.Basic
import Mathlib.Logic.Relation

namespace LinuxRs.Sync

open Relation (ReflTransGen)
open Function (update update_self update_of_ne)

universe u

variable {T : Type u} [DecidableEq T]

/-- Scheduling state of a task (`TaskState`). -/
inductive TaskState
  | running
  | interruptible
  | uninterruptible
  | zombie
  | stopped
  deriving DecidableEq

/-- The queue: the single waiting task, if any (`WaitQueue`). -/
structure WaitQueue (T : Type u) where
  slot : Option T

def WaitQueue.new : WaitQueue T := ⟨none⟩

/-- Make one task runnable (`WaitQueue::wake_task`). -/
def wakeTask (state : T → TaskState) (t : T) : T → TaskState :=
  update state t .running

/-- The tail of `sleep`, run when the sleeper is scheduled again: wake
the task captured in `handoff_slot`. -/
def wakeHandoff (state : T → TaskState) (handoffSlot : Option T) :
    T → TaskState :=
  match handoffSlot with
  | some t => wakeTask state t
  | none => state

/-- `WaitQueue::sleep` up to its `schedule()`: the slot is replaced by
the caller, whose frame keeps the previous occupant. -/
def WaitQueue.sleepBegin (q : WaitQueue T) (state : T → TaskState) (me : T) :
    WaitQueue T × Option T × (T → TaskState) :=
  (⟨some me⟩, q.slot, update state me .uninterruptible)

/-- `WaitQueue::sleep_interruptible` up to its first `schedule()`. -/
def WaitQueue.sleepInterruptibleBegin (q : WaitQueue T) (state : T → TaskState)
    (me : T) : WaitQueue T × Option T × (T → TaskState) :=
  (⟨some me⟩, q.slot, update state me .interruptible)

/-- What a resumed `sleep_interruptible` looks for in the slot: another
task, behind a reference that still upgrades. -/
def WaitQueue.replaced (q : WaitQueue T) (upgrades : T → Bool) (me : T) :
    Option T :=
  match q.slot with
  | some t => if upgrades t ∧ t ≠ me then some t else none
  | none => none

/-- `sleep_interruptible` that found another task: it sleeps again, where
it stands, and wakes that one. -/
def napAgain (state : T → TaskState) (me other : T) : T → TaskState :=
  update (update state me .interruptible) other .running

/-- `WaitQueue::wake`: take the slot and wake its occupant. -/
def WaitQueue.wake (q : WaitQueue T) (state : T → TaskState) :
    WaitQueue T × (T → TaskState) :=
  (⟨none⟩, wakeHandoff state q.slot)

-- ======== the two wakes

theorem wakeHandoff_running {state : T → TaskState} {h : Option T} {t : T}
    (ht : state t = .running) : wakeHandoff state h t = .running := by
  cases h with
  | none => exact ht
  | some u =>
    simp only [wakeHandoff, wakeTask]
    by_cases he : t = u
    · subst he
      rw [update_self]
    · rw [update_of_ne he]
      exact ht

theorem wakeHandoff_target (state : T → TaskState) (t : T) :
    wakeHandoff state (some t) t = .running :=
  update_self ..

theorem wakeHandoff_of_ne {state : T → TaskState} {h : Option T} {t : T}
    (ht : h ≠ some t) : wakeHandoff state h t = state t := by
  cases h with
  | none => rfl
  | some u =>
    have hne : t ≠ u := fun he => ht (by rw [he])
    exact update_of_ne hne ..

theorem WaitQueue.replaced_eq_some {q : WaitQueue T} {upgrades : T → Bool}
    {me u : T} : q.replaced upgrades me = some u
      ↔ q.slot = some u ∧ upgrades u = true ∧ u ≠ me := by
  unfold WaitQueue.replaced
  cases q.slot with
  | none => simp
  | some t =>
    dsimp only
    constructor
    · intro h
      split at h
      next hc =>
        cases h
        exact ⟨rfl, hc⟩
      next => cases h
    · intro h
      obtain ⟨ht, hc⟩ := h
      cases ht
      exact if_pos hc

-- ======== paths around a task

omit [DecidableEq T] in
theorem path_split {R : T → T → Prop} (me : T) {a b : T}
    (h : ReflTransGen R a b) : ReflTransGen (fun x y => R x y ∧ x ≠ me) a b
      ∨ ∃ c, R me c ∧ ReflTransGen (fun x y => R x y ∧ x ≠ me) c b := by
  induction h with
  | refl => exact Or.inl .refl
  | @tail x y _ hxy ih =>
    by_cases hx : x = me
    · exact Or.inr ⟨y, hx ▸ hxy, .refl⟩
    · rcases ih with hpath | ⟨c, hc, hpath⟩
      · exact Or.inl (hpath.tail ⟨hxy, hx⟩)
      · exact Or.inr ⟨c, hc, hpath.tail ⟨hxy, hx⟩⟩

end LinuxRs.Sync
