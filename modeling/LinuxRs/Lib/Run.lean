/-
Runs of a labelled transition function, and the induction rules the
rest of the development uses on them.

# The setting

A system is a partial function `step : S → A → Option S`: `none` is a
label that is not enabled in the state. A run is a list of labels; its
visited states are the start and every state a step reaches. Two
induction rules cover all invariants below:

- `Reachable.invariant`: a predicate that holds initially and survives
  every step holds in every reachable state;
- `Guarded.visited`: the same for runs whose steps all meet a guard, a
  predicate on the state before the step and the label;
- `visited_iff_guarded`: when a step off the guard also leaves the
  predicate at once, the guard is not only sufficient but exact.
-/
import Mathlib.Tactic.ByContra

namespace LinuxRs.Lib

universe u v

variable {S : Type u} {A : Type v}

-- ======== reachability

/-- The states a system reaches from `init` by enabled steps. -/
inductive Reachable (step : S → A → Option S) (init : S) : S → Prop
  | refl : Reachable step init init
  | step {s s' : S} (a : A) :
      Reachable step init s → step s a = some s' → Reachable step init s'

theorem Reachable.invariant {step : S → A → Option S} {init : S}
    {I : S → Prop} (hinit : I init)
    (hstep : ∀ s a s', I s → step s a = some s' → I s')
    {s : S} (h : Reachable step init s) : I s := by
  induction h with
  | refl => exact hinit
  | step a _ ha ih => exact hstep _ a _ ih ha

-- ======== runs

def run (step : S → A → Option S) : S → List A → Option S
  | s, [] => some s
  | s, a :: as => (step s a).bind fun s' => run step s' as

theorem run_append (step : S → A → Option S) (as bs : List A) (s : S) :
    run step s (as ++ bs) = (run step s as).bind fun s' => run step s' bs := by
  induction as generalizing s with
  | nil => rfl
  | cons a as ih =>
    show (step s a).bind (fun s' => run step s' (as ++ bs))
      = ((step s a).bind fun s' => run step s' as).bind _
    rw [Option.bind_assoc]
    exact congrArg _ (funext fun s' => ih s')

theorem Reachable.of_run {step : S → A → Option S} {init : S} :
    ∀ {as : List A} {s s' : S}, Reachable step init s →
      run step s as = some s' → Reachable step init s' := by
  intro as
  induction as with
  | nil =>
    intro s s' hs h
    simp only [run, Option.some.injEq] at h
    exact h ▸ hs
  | cons a as ih =>
    intro s s' hs h
    obtain ⟨t, ht, hrun⟩ := Option.bind_eq_some_iff.mp h
    exact ih (hs.step a ht) hrun

/-- The states a run visits, its start included; the run stops at the
first label that is not enabled. -/
def visited (step : S → A → Option S) : S → List A → List S
  | s, [] => [s]
  | s, a :: as =>
    s :: match step s a with
      | some s' => visited step s' as
      | none => []

theorem visited_nil (step : S → A → Option S) (s : S) :
    visited step s [] = [s] := rfl

theorem visited_some {step : S → A → Option S} {s s' : S} {a : A}
    (h : step s a = some s') (as : List A) :
    visited step s (a :: as) = s :: visited step s' as := by
  show (s :: match step s a with
    | some s' => visited step s' as
    | none => []) = _
  rw [h]

theorem visited_none {step : S → A → Option S} {s : S} {a : A}
    (h : step s a = none) (as : List A) : visited step s (a :: as) = [s] := by
  show (s :: match step s a with
    | some s' => visited step s' as
    | none => []) = _
  rw [h]

/-- Every step the run takes meets `guard` in the state it starts
from. -/
def Guarded (step : S → A → Option S) (guard : S → A → Prop) :
    S → List A → Prop
  | _, [] => True
  | s, a :: as =>
    match step s a with
    | some s' => guard s a ∧ Guarded step guard s' as
    | none => True

theorem Guarded.cons_iff {step : S → A → Option S} {guard : S → A → Prop}
    {s s' : S} {a : A} {as : List A} (h : step s a = some s') :
    Guarded step guard s (a :: as) ↔ guard s a ∧ Guarded step guard s' as := by
  show (match step s a with
    | some s' => guard s a ∧ Guarded step guard s' as
    | none => True) ↔ _
  rw [h]

theorem Guarded.of_none {step : S → A → Option S} {guard : S → A → Prop}
    {s : S} {a : A} {as : List A} (h : step s a = none) :
    Guarded step guard s (a :: as) := by
  show match step s a with
    | some s' => guard s a ∧ Guarded step guard s' as
    | none => True
  rw [h]
  trivial

theorem Guarded.of_forall {step : S → A → Option S} {guard : S → A → Prop} :
    ∀ {as : List A} {s : S}, (∀ a ∈ as, ∀ t, guard t a) →
      Guarded step guard s as := by
  intro as
  induction as with
  | nil => intro s _; trivial
  | cons a as ih =>
    intro s h
    cases hstp : step s a with
    | none => exact .of_none hstp
    | some s' =>
      apply (Guarded.cons_iff hstp).mpr
      exact ⟨h a List.mem_cons_self s,
        ih fun b hb => h b (List.mem_cons_of_mem a hb)⟩

theorem mem_visited_self (step : S → A → Option S) (s : S) (as : List A) :
    s ∈ visited step s as := by
  cases as with
  | nil => exact List.mem_singleton_self s
  | cons a as => exact List.mem_cons_self

theorem Reachable.of_visited {step : S → A → Option S} {init : S} :
    ∀ {as : List A} {s : S}, Reachable step init s →
      ∀ t ∈ visited step s as, Reachable step init t := by
  intro as
  induction as with
  | nil =>
    intro s hs t ht
    obtain rfl := List.mem_singleton.mp ht
    exact hs
  | cons a as ih =>
    intro s hs t ht
    cases hstp : step s a with
    | none =>
      rw [visited_none hstp] at ht
      obtain rfl := List.mem_singleton.mp ht
      exact hs
    | some s' =>
      rw [visited_some hstp] at ht
      rcases List.mem_cons.mp ht with rfl | ht
      · exact hs
      · exact ih (hs.step a hstp) t ht

/-- In a guarded run an invariant that the guarded steps keep holds of every
state visited. -/
theorem Guarded.visited {step : S → A → Option S}
    {guard : S → A → Prop} {I : S → Prop}
    (hstep : ∀ s a s', I s → guard s a → step s a = some s' → I s') :
    ∀ {as : List A} {s : S}, I s → Guarded step guard s as →
      ∀ t ∈ visited step s as, I t := by
  intro as
  induction as with
  | nil =>
    intro s hs _ t ht
    obtain rfl := List.mem_singleton.mp ht
    exact hs
  | cons a as ih =>
    intro s hs hg t ht
    cases hstp : step s a with
    | none =>
      rw [visited_none hstp] at ht
      obtain rfl := List.mem_singleton.mp ht
      exact hs
    | some s' =>
      rw [visited_some hstp] at ht
      obtain ⟨hga, hrest⟩ := (Guarded.cons_iff hstp).mp hg
      rcases List.mem_cons.mp ht with rfl | ht
      · exact hs
      · exact ih (hstep s a s' hs hga hstp) hrest t ht

theorem mem_visited_of_run {step : S → A → Option S} :
    ∀ {as : List A} {s s' : S}, run step s as = some s' →
      s' ∈ visited step s as := by
  intro as
  induction as with
  | nil =>
    intro s s' h
    obtain rfl := Option.some.inj h
    exact List.mem_singleton_self s
  | cons a as ih =>
    intro s s' h
    obtain ⟨t, ht, hrun⟩ := Option.bind_eq_some_iff.mp h
    rw [visited_some ht]
    exact List.mem_cons_of_mem s (ih hrun)

theorem Guarded.weaken {step : S → A → Option S}
    {guard guard' : S → A → Prop} {I : S → Prop}
    (hstep : ∀ s a s', I s → guard s a → step s a = some s' → I s')
    (himp : ∀ s a, I s → guard s a → guard' s a) :
    ∀ {as : List A} {s : S}, I s → Guarded step guard s as →
      Guarded step guard' s as := by
  intro as
  induction as with
  | nil => intro s _ _; trivial
  | cons a as ih =>
    intro s hs hg
    cases hstp : step s a with
    | none => exact .of_none hstp
    | some s' =>
      obtain ⟨hga, hrest⟩ := (Guarded.cons_iff hstp).mp hg
      apply (Guarded.cons_iff hstp).mpr
      exact ⟨himp s a hs hga, ih (hstep s a s' hs hga hstp) hrest⟩

/-- The exactness rule. `I` carries the induction along guarded steps,
`P` is the property the states are asked for, and a step that misses
the guard lands outside `P`: then the visited states all satisfy `P`
exactly when the run is guarded. -/
theorem visited_iff_guarded {step : S → A → Option S}
    {guard : S → A → Prop} {I P : S → Prop}
    (himp : ∀ s, I s → P s)
    (hstep : ∀ s a s', I s → guard s a → step s a = some s' → I s')
    (hbreak : ∀ s a s', I s → ¬ guard s a → step s a = some s' → ¬ P s') :
    ∀ {as : List A} {s : S}, I s →
      ((∀ t ∈ visited step s as, P t) ↔ Guarded step guard s as) := by
  intro as
  induction as with
  | nil =>
    intro s hs
    rw [visited_nil, List.forall_mem_singleton]
    exact iff_of_true (himp s hs) trivial
  | cons a as ih =>
    intro s hs
    cases hstp : step s a with
    | none =>
      rw [visited_none hstp, List.forall_mem_singleton]
      exact iff_of_true (himp s hs) (.of_none hstp)
    | some s' =>
      rw [visited_some hstp, List.forall_mem_cons, Guarded.cons_iff hstp]
      constructor
      · intro hall
        have hg : guard s a := by
          by_contra hng
          exact hbreak s a s' hs hng hstp
            (hall.2 s' (mem_visited_self step s' as))
        exact ⟨hg, (ih (hstep s a s' hs hg hstp)).mp hall.2⟩
      · intro hrun
        exact ⟨himp s hs, (ih (hstep s a s' hs hrun.1 hstp)).mpr hrun.2⟩

end LinuxRs.Lib
