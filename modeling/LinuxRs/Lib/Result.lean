/-
Programs with a state and errors (`EStateM`), read through the runs that
return: a run of a sequence is a run of each part, and what every part keeps
the sequence keeps.
-/
import Mathlib.Logic.Basic

namespace LinuxRs.Lib

universe u

variable {E S A B : Type u}

-- ======== sequences

theorem bind_ok {x : EStateM E S A} {f : A → EStateM E S B} {s s'' : S} {b : B}
    (h : (x >>= f) s = .ok b s'') :
    ∃ a s', x s = .ok a s' ∧ f a s' = .ok b s'' := by
  have h : EStateM.bind x f s = .ok b s'' := h
  unfold EStateM.bind at h
  split at h
  next a s' hx => exact ⟨a, s', hx, h⟩
  next => cases h

theorem bind_of_ok {x : EStateM E S A} {f : A → EStateM E S B} {s s' : S} {a : A}
    (h : x s = .ok a s') : (x >>= f) s = f a s' := by
  show EStateM.bind x f s = _
  unfold EStateM.bind
  rw [h]

theorem bind_of_error {x : EStateM E S A} {f : A → EStateM E S B} {s s' : S}
    {e : E} (h : x s = .error e s') : (x >>= f) s = .error e s' := by
  show EStateM.bind x f s = _
  unfold EStateM.bind
  rw [h]

theorem pure_ok {a b : A} {s s' : S}
    (h : (pure a : EStateM E S A) s = .ok b s') : a = b ∧ s = s' := by
  injection (show EStateM.Result.ok a s = .ok b s' from h) with ha hs
  exact ⟨ha, hs⟩

theorem ite_ok {c : Prop} [Decidable c] {x y : EStateM E S A} {s s' : S} {a : A}
    (h : (if c then x else y) s = .ok a s') :
    (c ∧ x s = .ok a s') ∨ (¬ c ∧ y s = .ok a s') := by
  split at h
  next hc => exact .inl ⟨hc, h⟩
  next hc => exact .inr ⟨hc, h⟩

-- ======== any outcome

def endState : EStateM.Result E S A → S
  | .ok _ s => s
  | .error _ s => s

/-- Every run, however it ends, goes from a state to a related one. -/
def Moves (R : S → S → Prop) (x : EStateM E S A) : Prop :=
  ∀ s, R s (endState (x s))

section Moves

variable {R : S → S → Prop}

theorem Moves.ok {x : EStateM E S A} (h : Moves R x) {s s' : S} {a : A}
    (hx : x s = .ok a s') : R s s' := by
  have hs := h s
  rw [hx] at hs
  exact hs

theorem Moves.bind {x : EStateM E S A} {f : A → EStateM E S B}
    (htrans : ∀ s s' s'', R s s' → R s' s'' → R s s'') (hx : Moves R x)
    (hf : ∀ a, Moves R (f a)) : Moves R (x >>= f) := by
  intro s
  have hs := hx s
  show R s (endState (EStateM.bind x f s))
  unfold EStateM.bind
  cases hrun : x s with
  | ok a s' =>
    rw [hrun] at hs
    exact htrans s s' _ hs (hf a s')
  | error e s' =>
    rw [hrun] at hs
    exact hs

theorem Moves.ite {c : Prop} [Decidable c] {x y : EStateM E S A}
    (hx : Moves R x) (hy : Moves R y) : Moves R (if c then x else y) := by
  split
  · exact hx
  · exact hy

end Moves

-- ======== readers

def ReadOnly (x : EStateM E S A) : Prop := ∀ s a s', x s = .ok a s' → s' = s

end LinuxRs.Lib
