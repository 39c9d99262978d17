/-
Programs over operations that may be impossible: a program asks for one
operation after the other and goes on with what it answers. Run with the
operations themselves, it stops at the first impossible one; run with
operations that are made total, it always ends.

The connection is `Asking.run_eq_some_iff`: when every operation is the
total one wherever its condition holds and impossible elsewhere, a run
goes through exactly when the conditions hold of all the operations that
the total run asks for.
-/
import Mathlib.Tactic.ByContra

namespace LinuxRs.Lib

/-- A program over operations `Op` with answers `Res`. -/
inductive Asking (Op : Type) (Res : Op → Type) (α : Type)
  | ret (a : α)
  | ask (o : Op) (k : Res o → Asking Op Res α)

namespace Asking

variable {Op : Type} {Res : Op → Type} {α β S : Type}

def bind : Asking Op Res α → (α → Asking Op Res β) → Asking Op Res β
  | ret a, f => f a
  | ask o k, f => ask o fun r => (k r).bind f

instance : Monad (Asking Op Res) where
  pure := ret
  bind := bind

section Runs

variable (step : (o : Op) → S → Option (S × Res o))
  (total : (o : Op) → S → S × Res o)

def run : Asking Op Res α → S → Option (S × α)
  | ret a, s => some (s, a)
  | ask o k, s =>
    match step o s with
    | none => none
    | some (s', r) => (k r).run s'

def eval : Asking Op Res α → S → S × α
  | ret a, s => (s, a)
  | ask o k, s => (k (total o s).2).eval (total o s).1

/-- What the run with the total operations asks for, each operation with
the state it is asked in. -/
def asked : Asking Op Res α → S → List (Op × S)
  | ret _, _ => []
  | ask o k, s => (o, s) :: (k (total o s).2).asked (total o s).1

variable {step total} {ok : Op → S → Prop}

theorem run_eq_some_iff
    (hok : ∀ o s, ok o s → step o s = some (total o s))
    (hno : ∀ o s, ¬ ok o s → step o s = none)
    (p : Asking Op Res α) (s : S) (r : S × α) :
    p.run step s = some r
      ↔ (∀ q ∈ p.asked total s, ok q.1 q.2) ∧ p.eval total s = r := by
  induction p generalizing s with
  | ret a => simp [run, eval, asked]
  | ask o k ih =>
    unfold run eval asked
    by_cases ho : ok o s
    · rw [hok o s ho]
      refine (ih _ _).trans ?_
      simp [ho]
    · rw [hno o s ho]
      constructor
      · intro h
        cases h
      · intro h
        exact absurd (h.1 _ List.mem_cons_self) ho

theorem run_isSome_iff
    (hok : ∀ o s, ok o s → step o s = some (total o s))
    (hno : ∀ o s, ¬ ok o s → step o s = none)
    (p : Asking Op Res α) (s : S) :
    (p.run step s).isSome ↔ ∀ q ∈ p.asked total s, ok q.1 q.2 := by
  rw [Option.isSome_iff_exists]
  constructor
  · intro h
    obtain ⟨r, hr⟩ := h
    exact ((run_eq_some_iff hok hno p s r).mp hr).1
  · intro h
    exact ⟨_, (run_eq_some_iff hok hno p s _).mpr ⟨h, rfl⟩⟩

@[simp] theorem run_pure (a : α) (s : S) :
    (pure a : Asking Op Res α).run step s = some (s, a) := rfl

@[simp] theorem run_ask_ret (o : Op) (s : S) :
    (ask o ret : Asking Op Res (Res o)).run step s = step o s := by
  unfold run
  cases step o s with
  | none => rfl
  | some r => rfl

@[simp] theorem run_bind (p : Asking Op Res α) (f : α → Asking Op Res β) (s : S) :
    (p >>= f).run step s
      = (p.run step s).bind fun r => (f r.2).run step r.1 := by
  induction p generalizing s with
  | ret a => rfl
  | ask o k ih =>
    show (ask o fun r => (k r).bind f).run step s = _
    rw [run, run]
    cases step o s with
    | none => rfl
    | some r => exact ih r.2 r.1

end Runs

end Asking

end LinuxRs.Lib
