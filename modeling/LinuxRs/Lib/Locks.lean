/-
Sleeping mutexes taken in nested fashion by tasks that run fixed lock
scripts, and the wait-for graph they make.

# The setting

A script is a list of `lock` and `unlock`. A task starts a script when
it has none and then takes its turns one at a time; a turn that finds a
mutex held by another task leaves the task asleep for it, to be tried
again. Locking a mutex one already holds and unlocking one of somebody
else are the panics of an owner-tracked mutex and have no successor.

# What the rules say

- `LockSt.Fits.step`: if every script is sound for a nesting condition
  `ok held l`, every task asleep for `l` holds exactly some `held` with
  `ok held l`, in every reachable state;
- `unordered_of_cycle`: on a cycle of the wait-for graph some task holds
  a mutex not below the one it waits for, whatever the ranks are.
-/
import Mathlib.Logic.Function.Basic
import Mathlib.Logic.Relation
import Mathlib.Data.List.Nodup
import LinuxRs.Lib.Run

namespace LinuxRs.Lib

open Relation (TransGen)
open Function (update update_self update_of_ne)

variable {T L O : Type} [DecidableEq T] [DecidableEq L]

-- ======== the system

inductive LockStep (L : Type)
  | lock (l : L)
  | unlock (l : L)

/-- Who holds what, what each task has left to do, and for which mutex it
sleeps. -/
structure LockSt (T L : Type) where
  owner : L → Option T
  todo : T → List (LockStep L)
  waiting : T → Option L

def LockSt.new : LockSt T L where
  owner := fun _ => none
  todo := fun _ => []
  waiting := fun _ => none

/-- A task starts an operation or takes its next step. -/
inductive LockTurn (T O : Type)
  | start (t : T) (op : O)
  | turn (t : T)

def LockSt.step (script : O → List (LockStep L)) (s : LockSt T L) :
    LockTurn T O → Option (LockSt T L)
  | .start t op =>
    if s.todo t = [] then
      some { s with todo := update s.todo t (script op) }
    else none
  | .turn t =>
    match s.todo t with
    | [] => none
    | .lock l :: rest =>
      match s.owner l with
      | none =>
        some {
          owner := update s.owner l (some t)
          todo := update s.todo t rest
          waiting := update s.waiting t none }
      | some holder =>
        if holder = t then none
        else
          some { s with waiting := update s.waiting t (some l) }
    | .unlock l :: rest =>
      if s.owner l = some t then
        some { s with
          owner := update s.owner l none
          todo := update s.todo t rest }
      else none

/-- `a` waits for a lock that `b` owns. -/
def LockSt.WaitsFor (s : LockSt T L) (a b : T) : Prop :=
  ∃ l, s.waiting a = some l ∧ s.owner l = some b

/-- A deadlock: some task waits, through others, for itself. -/
def LockSt.Cyclic (s : LockSt T L) : Prop :=
  ∃ t, TransGen s.WaitsFor t t

-- ======== the scripts

/-- A script that can run to its end from the held mutexes, locking only
where `ok` allows and giving everything back. -/
def Sound (ok : List L → L → Prop) : List L → List (LockStep L) → Prop
  | held, [] => held = []
  | held, .lock l :: rest =>
    l ∉ held ∧ ok held l ∧ Sound ok (l :: held) rest
  | held, .unlock l :: rest => l ∈ held ∧ Sound ok (held.erase l) rest

def locked (l : L) (body : List (LockStep L)) : List (LockStep L) :=
  .lock l :: (body ++ [.unlock l])

def Balanced (ok : List L → L → Prop) (held : List L)
    (steps : List (LockStep L)) : Prop :=
  ∀ rest, Sound ok held rest → Sound ok held (steps ++ rest)

theorem Balanced.nil {ok : List L → L → Prop} {held : List L} :
    Balanced ok held [] :=
  fun _ h => h

theorem Balanced.append {ok : List L → L → Prop} {held : List L}
    {xs ys : List (LockStep L)} (hx : Balanced ok held xs)
    (hy : Balanced ok held ys) : Balanced ok held (xs ++ ys) := by
  intro rest h
  rw [List.append_assoc]
  exact hx _ (hy rest h)

theorem Balanced.locked {ok : List L → L → Prop} {held : List L} {l : L}
    {body : List (LockStep L)} (hok : l ∉ held ∧ ok held l)
    (hbody : Balanced ok (l :: held) body) :
    Balanced ok held (locked l body) := by
  intro rest h
  unfold Lib.locked
  rw [List.cons_append, List.append_assoc]
  refine ⟨hok.1, hok.2, hbody _ ⟨List.mem_cons_self, ?_⟩⟩
  rw [List.erase_cons_head]
  exact h

theorem Balanced.sound {ok : List L → L → Prop} {steps : List (LockStep L)}
    (h : Balanced ok [] steps) : Sound ok [] steps := by
  have hs := h [] rfl
  rwa [List.append_nil] at hs

/-- These locks are what the task holds, and its script goes on soundly with
them. -/
structure LockSt.Holds (s : LockSt T L) (ok : List L → L → Prop) (t : T)
    (held : List L) : Prop where
  nodup : held.Nodup
  owns : ∀ l, s.owner l = some t ↔ l ∈ held
  sound : Sound ok held (s.todo t)

/-- Every task is at a sound place of its script, and asleep only before
a lock. -/
structure LockSt.Fits (s : LockSt T L) (ok : List L → L → Prop) : Prop where
  holds : ∀ t, ∃ held, s.Holds ok t held
  asleep : ∀ t l, s.waiting t = some l → ∃ rest, s.todo t = .lock l :: rest

/-- What a step can do: start a script, take a free lock, wait for a held one,
or release one. -/
theorem lock_step_cases {script : O → List (LockStep L)} {s s' : LockSt T L}
    {a : LockTurn T O} (h : s.step script a = some s') :
    (∃ t op, a = .start t op ∧ s.todo t = [] ∧
        s' = { s with todo := update s.todo t (script op) }) ∨
    (∃ t l rest, a = .turn t ∧ s.todo t = .lock l :: rest ∧
        s.owner l = none ∧
        s' = ⟨update s.owner l (some t),
          update s.todo t rest,
          update s.waiting t none⟩) ∨
    (∃ t l rest holder, a = .turn t ∧ s.todo t = .lock l :: rest ∧
        s.owner l = some holder ∧ holder ≠ t ∧
        s' = { s with waiting := update s.waiting t (some l) }) ∨
    (∃ t l rest, a = .turn t ∧ s.todo t = .unlock l :: rest ∧
        s.owner l = some t ∧
        s' = { s with
          owner := update s.owner l none
          todo := update s.todo t rest }) := by
  cases a with
  | start t op =>
    simp only [LockSt.step] at h
    split at h
    next hc => exact .inl ⟨t, op, rfl, hc, (Option.some.inj h).symm⟩
    next => cases h
  | turn t =>
    simp only [LockSt.step] at h
    split at h
    next => cases h
    next l rest htodo =>
      split at h
      next hfree =>
        exact .inr (.inl ⟨t, l, rest, rfl, htodo, hfree,
          (Option.some.inj h).symm⟩)
      next holder hheld =>
        split at h
        next => cases h
        next hne =>
          exact .inr (.inr (.inl ⟨t, l, rest, holder, rfl, htodo, hheld,
            hne, (Option.some.inj h).symm⟩))
    next l rest htodo =>
      split at h
      next hown =>
        exact .inr (.inr (.inr ⟨t, l, rest, rfl, htodo, hown,
          (Option.some.inj h).symm⟩))
      next => cases h

-- ======== scripts and runs

omit [DecidableEq T] in
theorem LockSt.Holds.frame {s s' : LockSt T L} {ok : List L → L → Prop}
    {t : T} {held : List L} (h : s.Holds ok t held)
    (howner : ∀ l, s'.owner l = some t ↔ s.owner l = some t)
    (htodo : s'.todo t = s.todo t) : s'.Holds ok t held where
  nodup := h.nodup
  owns := fun l => (howner l).trans (h.owns l)
  sound := htodo ▸ h.sound

theorem LockSt.Fits.start {s : LockSt T L} {ok : List L → L → Prop}
    {t : T} {steps : List (LockStep L)} (h : s.Fits ok)
    (hidle : s.todo t = []) (hsound : Sound ok [] steps) :
    LockSt.Fits { s with todo := update s.todo t steps } ok := by
  constructor
  · intro u
    obtain ⟨held, hold⟩ := h.holds u
    by_cases hut : u = t
    · subst hut
      have hnil : held = [] := by
        have hend := hold.sound
        rw [hidle] at hend
        exact hend
      subst hnil
      refine ⟨[], List.nodup_nil, hold.owns, ?_⟩
      simp only [update_self]
      exact hsound
    · exact ⟨held, hold.frame (fun l => Iff.rfl) (update_of_ne hut ..)⟩
  · intro u l hu
    obtain ⟨rest, hrest⟩ := h.asleep u l hu
    have hut : u ≠ t := by
      intro heq
      rw [heq, hidle] at hrest
      cases hrest
    exact ⟨rest, by simp only [update_of_ne hut]; exact hrest⟩

/-- A lock taken in a place where the script may take it leaves the scripts
sound. -/
theorem LockSt.Fits.take {s : LockSt T L} {ok : List L → L → Prop}
    {t : T} {l : L} {rest : List (LockStep L)} (h : s.Fits ok)
    (htodo : s.todo t = .lock l :: rest) (hfree : s.owner l = none) :
    LockSt.Fits ⟨update s.owner l (some t),
      update s.todo t rest,
      update s.waiting t none⟩ ok := by
  constructor
  · intro u
    obtain ⟨held, hold⟩ := h.holds u
    by_cases hut : u = t
    · subst hut
      have hs := hold.sound
      rw [htodo] at hs
      obtain ⟨hnot, -, hs⟩ := hs
      refine ⟨l :: held, List.nodup_cons.mpr ⟨hnot, hold.nodup⟩, ?_, ?_⟩
      · intro x
        rw [List.mem_cons]
        by_cases hxl : x = l
        · subst hxl
          simp
        · simp only [update_of_ne hxl, hold.owns x, hxl, false_or]
      · simp only [update_self]
        exact hs
    · refine ⟨held, hold.frame ?_ (update_of_ne hut ..)⟩
      intro x
      by_cases hxl : x = l
      · subst hxl
        simp only [update_self, hfree, Option.some.injEq, reduceCtorEq,
          iff_false]
        exact fun heq => hut heq.symm
      · simp only [update_of_ne hxl]
  · intro u x hu
    have hut : u ≠ t := by
      intro heq
      simp only [heq, update_self] at hu
      cases hu
    simp only [update_of_ne hut] at hu ⊢
    exact h.asleep u x hu

theorem LockSt.Fits.block {s : LockSt T L} {ok : List L → L → Prop}
    {t : T} {l : L} {rest : List (LockStep L)} (h : s.Fits ok)
    (htodo : s.todo t = .lock l :: rest) :
    LockSt.Fits { s with waiting := update s.waiting t (some l) }
      ok := by
  constructor
  · intro u
    obtain ⟨held, hold⟩ := h.holds u
    exact ⟨held, hold.frame (fun l => Iff.rfl) rfl⟩
  · intro u x hu
    by_cases hut : u = t
    · subst hut
      simp only [update_self, Option.some.injEq] at hu
      exact ⟨rest, hu ▸ htodo⟩
    · simp only [update_of_ne hut] at hu
      exact h.asleep u x hu

/-- A lock that is given back leaves the rest in order. -/
theorem LockSt.Fits.release {s : LockSt T L} {ok : List L → L → Prop}
    {t : T} {l : L} {rest : List (LockStep L)} (h : s.Fits ok)
    (htodo : s.todo t = .unlock l :: rest) (hown : s.owner l = some t) :
    LockSt.Fits { s with
      owner := update s.owner l none
      todo := update s.todo t rest } ok := by
  constructor
  · intro u
    obtain ⟨held, hold⟩ := h.holds u
    by_cases hut : u = t
    · subst hut
      have hs := hold.sound
      rw [htodo] at hs
      refine ⟨held.erase l, hold.nodup.erase l, ?_, ?_⟩
      · intro x
        rw [hold.nodup.mem_erase_iff]
        by_cases hxl : x = l
        · subst hxl
          simp
        · simp only [update_of_ne hxl, hold.owns x, ne_eq, hxl,
            not_false_eq_true, true_and]
      · simp only [update_self]
        exact hs.2
    · refine ⟨held, hold.frame ?_ (update_of_ne hut ..)⟩
      intro x
      by_cases hxl : x = l
      · subst hxl
        simp only [update_self, hown, Option.some.injEq, reduceCtorEq,
          false_iff]
        exact fun heq => hut heq.symm
      · simp only [update_of_ne hxl]
  · intro u x hu
    obtain ⟨more, hmore⟩ := h.asleep u x hu
    have hut : u ≠ t := by
      intro heq
      rw [heq, htodo] at hmore
      cases hmore
    exact ⟨more, by simp only [update_of_ne hut]; exact hmore⟩

omit [DecidableEq T] in
theorem LockSt.Fits.new (ok : List L → L → Prop) :
    (LockSt.new : LockSt T L).Fits ok := by
  constructor
  · intro t
    refine ⟨[], List.nodup_nil, ?_, rfl⟩
    intro l
    simp [LockSt.new]
  · intro t l h
    cases h

theorem LockSt.Fits.step {script : O → List (LockStep L)}
    {ok : List L → L → Prop} (hscript : ∀ op, Sound ok [] (script op))
    {s s' : LockSt T L} {a : LockTurn T O} (hs : s.Fits ok)
    (h : s.step script a = some s') : s'.Fits ok := by
  rcases lock_step_cases h with ⟨t, op, -, hidle, rfl⟩ |
    ⟨t, l, rest, -, htodo, hfree, rfl⟩ |
    ⟨t, l, rest, holder, -, htodo, -, -, rfl⟩ |
    ⟨t, l, rest, -, htodo, hown, rfl⟩
  · exact hs.start hidle (hscript op)
  · exact hs.take htodo hfree
  · exact hs.block htodo
  · exact hs.release htodo hown

omit [DecidableEq T] in
theorem LockSt.Fits.waiting_ok {s : LockSt T L} {ok : List L → L → Prop}
    (h : s.Fits ok) {t : T} {l : L} (hw : s.waiting t = some l) :
    ∃ held, (∀ x, s.owner x = some t ↔ x ∈ held) ∧ ok held l := by
  obtain ⟨rest, htodo⟩ := h.asleep t l hw
  obtain ⟨held, hold⟩ := h.holds t
  have hs := hold.sound
  rw [htodo] at hs
  exact ⟨held, hold.owns, hs.2.1⟩

-- ======== the wait-for graph

omit [DecidableEq T] [DecidableEq L] in
/-- On a cycle of waiting tasks some task waits for a lock that is not above
one it holds: the ranks cannot go up all the way round. -/
theorem unordered_of_cycle {s : LockSt T L} (rank : L → Nat) {t : T}
    (hcycle : TransGen s.WaitsFor t t) :
    ∃ a l h, TransGen s.WaitsFor a a ∧ s.waiting a = some l ∧
      s.owner h = some a ∧ rank l ≤ rank h := by
  by_contra hno
  have hord : ∀ a l h, TransGen s.WaitsFor a a → s.waiting a = some l →
      s.owner h = some a → rank h < rank l := by
    intro a l h ha hw ho
    by_contra hge
    exact hno ⟨a, l, h, ha, hw, ho, by omega⟩
  obtain ⟨b, ⟨l₀, hw₀, -⟩, -⟩ := Relation.TransGen.head'_iff.mp hcycle
  have hgrow : ∀ c, TransGen s.WaitsFor t c → TransGen s.WaitsFor c t →
      ∃ l, s.owner l = some c ∧ rank l₀ ≤ rank l := by
    intro c hc
    induction hc with
    | single hedge =>
      intro _
      obtain ⟨l, hw, ho⟩ := hedge
      rw [hw₀] at hw
      obtain rfl := Option.some.inj hw
      exact ⟨l₀, ho, Nat.le_refl _⟩
    | tail hpath hedge ih =>
      intro hback
      have hcyc := (TransGen.head hedge hback).trans hpath
      obtain ⟨l, ho, hle⟩ := ih (TransGen.head hedge hback)
      obtain ⟨l', hw', ho'⟩ := hedge
      have hlt := hord _ l' l hcyc hw' ho
      exact ⟨l', ho', by omega⟩
  obtain ⟨l, ho, hle⟩ := hgrow t hcycle hcycle
  have hlt := hord t l₀ l hcycle hw₀ ho
  omega

end LinuxRs.Lib
