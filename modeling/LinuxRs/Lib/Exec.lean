/-
Runs that return something: a step yields the next state and an answer,
a run the list of its answers. Two systems with the same labels and
answers are compared step by step under a relation, and `Agree.exec`
lifts that to runs.
-/
import LinuxRs.Lib.Run

namespace LinuxRs.Lib

universe u v w

variable {S S' : Type u} {A : Type v} {O : Type w}

/-- Run a list of labels and collect the answers, failing at the first
label that does not return. -/
def exec (step : S → A → Option (S × O)) : S → List A → Option (S × List O)
  | s, [] => some (s, [])
  | s, a :: as =>
    match step s a with
    | none => none
    | some (s', o) =>
      match exec step s' as with
      | none => none
      | some (s'', os) => some (s'', o :: os)

/-- What every step keeps holds behind every run, and what every step says of
its output, of every output. -/
theorem exec_invariant {step : S → A → Option (S × O)} {I : S → Prop}
    {Q : O → Prop}
    (hstep : ∀ s a s' o, I s → step s a = some (s', o) → I s' ∧ Q o) :
    ∀ {as : List A} {s s' : S} {os : List O}, I s →
      exec step s as = some (s', os) → I s' ∧ ∀ o ∈ os, Q o := by
  intro as
  induction as with
  | nil =>
    intro s s' os hs h
    obtain ⟨rfl, rfl⟩ := Prod.mk.inj (Option.some.inj h)
    exact ⟨hs, fun o ho => by cases ho⟩
  | cons a as ih =>
    intro s s' os hs h
    simp only [exec] at h
    split at h
    next => cases h
    next s₁ o hone =>
      obtain ⟨hs₁, ho⟩ := hstep s a s₁ o hs hone
      split at h
      next => cases h
      next s₂ os₂ hrest =>
        obtain ⟨rfl, rfl⟩ := Prod.mk.inj (Option.some.inj h)
        obtain ⟨hs₂, hall⟩ := ih hs₁ hrest
        refine ⟨hs₂, fun o' ho' => ?_⟩
        rcases List.mem_cons.mp ho' with rfl | ho'
        · exact ho
        · exact hall o' ho'

def next (step : S → A → Option (S × O)) (s : S) (a : A) : Option S :=
  (step s a).map Prod.fst

/-- Two results agree: neither returns, or both do, with the same answer
and related states. -/
inductive Agree (R : S → S' → Prop) : Option (S × O) → Option (S' × O) → Prop
  | fail : Agree R none none
  | ok {s : S} {s' : S'} (o : O) : R s s' →
      Agree R (some (s, o)) (some (s', o))

theorem Agree.answer {R : S → S' → Prop} {r : Option (S × O)}
    {r' : Option (S' × O)} (h : Agree R r r') :
    r.map Prod.snd = r'.map Prod.snd := by
  cases h <;> rfl

/-- Two systems that agree on every step agree on every run. -/
theorem Agree.exec {step : S → A → Option (S × O)}
    {step' : S' → A → Option (S' × O)} {R : S → S' → Prop}
    {guard : S' → A → Prop}
    (hstep : ∀ s s' a, R s s' → ((step' s' a).isSome → guard s' a) →
      Agree R (step s a) (step' s' a)) :
    ∀ {as : List A} {s : S} {s' : S'}, R s s' →
      Guarded (next step') guard s' as →
      Agree R (exec step s as) (exec step' s' as) := by
  intro as
  induction as with
  | nil =>
    intro s s' hR _
    exact .ok [] hR
  | cons a as ih =>
    intro s s' hR hg
    simp only [Guarded, next] at hg
    simp only [Lib.exec]
    have hguard : (step' s' a).isSome → guard s' a := by
      intro hsome
      obtain ⟨r, hr⟩ := Option.isSome_iff_exists.mp hsome
      rw [hr] at hg
      exact hg.1
    have hone := hstep s s' a hR hguard
    revert hone hg
    generalize step s a = r
    generalize step' s' a = r'
    intro hg hone
    cases hone with
    | fail => exact .fail
    | ok o hR' =>
      have hrest := ih hR' hg.2
      dsimp only
      revert hrest
      generalize Lib.exec step _ as = t
      generalize Lib.exec step' _ as = t'
      intro hrest
      cases hrest with
      | fail => exact .fail
      | ok os hR'' => exact .ok (o :: os) hR''

end LinuxRs.Lib
