/-
Wildcard patterns over an arbitrary alphabet.

# Elements

A pattern is a list of elements: one takes a single letter, a star takes a
run of them. A string of as many letters as the pattern has single elements
leaves nothing to the stars, so on such strings the alignment is forced, and
they decide whether two patterns of one shape match the same strings.
-/
import Mathlib.Data.List.Forall2

namespace LinuxRs.Lib.Wildcard

/-- A piece of a pattern: a run of any length, or one letter. -/
inductive Elem (α : Type) where
  | star (run : α → Bool)
  | one (accepts : α → Bool)

variable {α : Type}

/-- A pattern matches a text element by element. -/
inductive Matches : List (Elem α) → List α → Prop where
  | nil : Matches [] []
  | star {run : α → Bool} {es : List (Elem α)} {u s : List α} :
      (∀ c ∈ u, run c = true) → Matches es s → Matches (.star run :: es) (u ++ s)
  | one {accepts : α → Bool} {es : List (Elem α)} {c : α} {s : List α} :
      accepts c = true → Matches es s → Matches (.one accepts :: es) (c :: s)

def ones : List (Elem α) → List (α → Bool)
  | [] => []
  | .star _ :: es => ones es
  | .one accepts :: es => accepts :: ones es

/-- One element accepts no character at all. -/
def Barren (es : List (Elem α)) : Prop :=
  ∃ accepts ∈ ones es, ∀ c, accepts c = false

/-- The letters are accepted by the single elements in their order. -/
def Fits (accepts : List (α → Bool)) (s : List α) : Prop :=
  List.Forall₂ (fun p c => p c = true) accepts s

variable {es es' : List (Elem α)} {s : List α}

theorem matches_nil_iff : Matches ([] : List (Elem α)) s ↔ s = [] := by
  constructor
  · intro h
    cases h
    rfl
  · intro h
    rw [h]
    exact .nil

theorem matches_star_iff {run : α → Bool} :
    Matches (.star run :: es) s ↔
      ∃ u v, s = u ++ v ∧ (∀ c ∈ u, run c = true) ∧ Matches es v := by
  constructor
  · intro h
    cases h with
    | star hrun hrest => exact ⟨_, _, rfl, hrun, hrest⟩
  · intro h
    obtain ⟨u, v, rfl, hrun, hrest⟩ := h
    exact .star hrun hrest

theorem matches_one_iff {accepts : α → Bool} :
    Matches (.one accepts :: es) s ↔
      ∃ c v, s = c :: v ∧ accepts c = true ∧ Matches es v := by
  constructor
  · intro h
    cases h with
    | one hc hrest => exact ⟨_, _, rfl, hc, hrest⟩
  · intro h
    obtain ⟨c, v, rfl, hc, hrest⟩ := h
    exact .one hc hrest

-- ======== the short strings

theorem matches_of_fits (h : Fits (ones es) s) : Matches es s := by
  induction es generalizing s with
  | nil =>
    cases h
    exact .nil
  | cons e es ih =>
    cases e with
    | star run => exact .star (u := []) (fun c hc => by cases hc) (ih h)
    | one accepts =>
      cases h with
      | cons hc hrest => exact .one hc (ih hrest)

theorem length_ones_le (h : Matches es s) : (ones es).length ≤ s.length := by
  induction h with
  | nil => exact Nat.le_refl 0
  | star _ _ ih =>
    rw [List.length_append]
    exact Nat.le_trans ih (Nat.le_add_left _ _)
  | one _ _ ih => exact Nat.succ_le_succ ih

theorem fits_of_matches (h : Matches es s) (hlen : s.length ≤ (ones es).length) :
    Fits (ones es) s := by
  induction h with
  | nil => exact .nil
  | @star run es u s hrun hrest ih =>
    have hle := length_ones_le hrest
    rw [List.length_append] at hlen
    have hu : u = [] := List.eq_nil_of_length_eq_zero (by
      simp only [ones] at hlen
      omega)
    rw [hu] at hlen ⊢
    rw [List.length_nil, Nat.zero_add] at hlen
    exact ih hlen
  | one hc _ ih => exact .cons hc (ih (Nat.le_of_succ_le_succ hlen))

theorem exists_fits {accepts : List (α → Bool)}
    (h : ¬ ∃ p ∈ accepts, ∀ c, p c = false) : ∃ s, Fits accepts s := by
  induction accepts with
  | nil => exact ⟨[], .nil⟩
  | cons p accepts ih =>
    have hp : ∃ c, p c = true := by
      apply Classical.byContradiction
      intro hno
      refine h ⟨p, List.mem_cons_self, fun c => ?_⟩
      cases hc : p c with
      | false => rfl
      | true => exact absurd ⟨c, hc⟩ hno
    obtain ⟨c, hc⟩ := hp
    obtain ⟨s, hs⟩ := ih fun hrest => by
      obtain ⟨q, hq, hempty⟩ := hrest
      exact h ⟨q, List.mem_cons_of_mem _ hq, hempty⟩
    exact ⟨c :: s, .cons hc hs⟩

theorem not_barren_of_matches (h : Matches es s) : ¬ Barren es := by
  induction h with
  | nil =>
    intro hbarren
    obtain ⟨p, hp, _⟩ := hbarren
    cases hp
  | star _ _ ih => exact ih
  | one hc _ ih =>
    intro hbarren
    obtain ⟨p, hp, hempty⟩ := hbarren
    rcases List.mem_cons.mp hp with rfl | hp
    · rw [hempty] at hc
      cases hc
    · exact ih ⟨p, hp, hempty⟩

theorem exists_fits_of_not_barren (h : ¬ Barren es) : ∃ s, Fits (ones es) s :=
  exists_fits h

theorem getLast_accepted {accepts : α → Bool}
    (h : Matches (es ++ [.one accepts]) s) :
    ∃ c, s.getLast? = some c ∧ accepts c = true := by
  induction es generalizing s with
  | nil =>
    obtain ⟨c, v, rfl, hc, hrest⟩ := matches_one_iff.mp h
    rw [matches_nil_iff.mp hrest]
    exact ⟨c, rfl, hc⟩
  | cons e es ih =>
    cases e with
    | star run =>
      obtain ⟨u, v, rfl, _, hrest⟩ := matches_star_iff.mp h
      obtain ⟨c, hlast, hc⟩ := ih hrest
      refine ⟨c, ?_, hc⟩
      rw [List.getLast?_append, hlast]
      rfl
    | one p =>
      obtain ⟨d, v, rfl, _, hrest⟩ := matches_one_iff.mp h
      obtain ⟨c, hlast, hc⟩ := ih hrest
      refine ⟨c, ?_, hc⟩
      rw [List.getLast?_cons, hlast]
      rfl

@[simp] theorem ones_append (es es' : List (Elem α)) :
    ones (es ++ es') = ones es ++ ones es' := by
  induction es with
  | nil => rfl
  | cons e es ih =>
    cases e with
    | star run => exact ih
    | one accepts => exact congrArg (accepts :: ·) ih

theorem Barren.append_left (h : Barren es) (es' : List (Elem α)) :
    Barren (es ++ es') := by
  obtain ⟨p, hp, hempty⟩ := h
  refine ⟨p, ?_, hempty⟩
  rw [ones_append]
  exact List.mem_append_left _ hp

theorem Matches.append {t : List α} (h : Matches es s) (h' : Matches es' t) :
    Matches (es ++ es') (s ++ t) := by
  induction h with
  | nil => exact h'
  | star hrun _ ih =>
    rw [List.append_assoc]
    exact .star hrun ih
  | one hc _ ih => exact .one hc ih

-- ======== patterns of the same shape

/-- Patterns that have stars and single elements in the same places. -/
inductive Alongside : List (Elem α) → List (Elem α) → Prop where
  | nil : Alongside [] []
  | star (run : α → Bool) {es es' : List (Elem α)} :
      Alongside es es' → Alongside (.star run :: es) (.star run :: es')
  | one (p q : α → Bool) {es es' : List (Elem α)} :
      Alongside es es' → Alongside (.one p :: es) (.one q :: es')

theorem Alongside.length_ones (h : Alongside es es') :
    (ones es).length = (ones es').length := by
  induction h with
  | nil => rfl
  | star run _ ih => exact ih
  | one p q _ ih => exact congrArg Nat.succ ih

/-- If all that fits the single elements of the one fits those of the other,
and something does, an element of the one accepts no more than that of the
other. -/
theorem Alongside.accepts_le (h : Alongside es es') {w : List α}
    (hw : Fits (ones es) w)
    (hle : ∀ s, Fits (ones es) s → Fits (ones es') s) :
    List.Forall₂ (fun p q => ∀ c, p c = true → q c = true) (ones es)
      (ones es') := by
  induction h generalizing w with
  | nil => exact .nil
  | star run _ ih => exact ih hw hle
  | @one p q es es' _ ih =>
    cases hw with
    | @cons _ d _ w hd hw =>
      refine .cons (fun c hc => ?_) (ih hw fun s hs => ?_)
      · cases hle (c :: w) (.cons hc hw) with
        | cons hq _ => exact hq
      · cases hle (d :: s) (.cons hd hs) with
        | cons _ hrest => exact hrest

theorem Alongside.eq_of_accepts (h : Alongside es es')
    (hle : List.Forall₂ (fun p q => ∀ c, p c = true → q c = true) (ones es)
      (ones es'))
    (hge : List.Forall₂ (fun q p => ∀ c, q c = true → p c = true) (ones es')
      (ones es)) : es = es' := by
  induction h with
  | nil => rfl
  | star run _ ih => rw [ih hle hge]
  | one p q _ ih =>
    obtain ⟨hp, hle⟩ := List.forall₂_cons.mp hle
    obtain ⟨hq, hge⟩ := List.forall₂_cons.mp hge
    have heq : p = q := by
      funext c
      cases hpc : p c with
      | true => exact (hp c hpc).symm
      | false =>
        cases hqc : q c with
        | false => rfl
        | true =>
          rw [hq c hqc] at hpc
          cases hpc
    rw [heq, ih hle hge]

/-- Patterns of one shape that match the same texts are the same, unless
neither matches anything. -/
theorem Alongside.eq_of_matches (h : Alongside es es')
    (hsame : ∀ s, Matches es s ↔ Matches es' s)
    (hlive : ¬ Barren es ∨ ¬ Barren es') : es = es' := by
  have hlen := h.length_ones
  have hle : ∀ s, Fits (ones es) s → Fits (ones es') s := by
    intro s hs
    have hmatch := (hsame s).mp (matches_of_fits hs)
    apply fits_of_matches hmatch
    exact Nat.le_of_eq ((List.Forall₂.length_eq hs).symm.trans hlen)
  have hge : ∀ s, Fits (ones es') s → Fits (ones es) s := by
    intro s hs
    have hmatch := (hsame s).mpr (matches_of_fits hs)
    apply fits_of_matches hmatch
    exact Nat.le_of_eq ((List.Forall₂.length_eq hs).symm.trans hlen.symm)
  have hboth : ∃ w, Fits (ones es) w ∧ Fits (ones es') w := by
    rcases hlive with hlive | hlive
    · obtain ⟨w, hw⟩ := exists_fits_of_not_barren hlive
      exact ⟨w, hw, hle w hw⟩
    · obtain ⟨w, hw⟩ := exists_fits_of_not_barren hlive
      exact ⟨w, hge w hw, hw⟩
  obtain ⟨w, hw, hw'⟩ := hboth
  have hback : Alongside es' es := by
    clear hsame hlive hlen hle hge hw hw'
    induction h with
    | nil => exact .nil
    | star run _ ih => exact .star run ih
    | one p q _ ih => exact .one q p ih
  exact h.eq_of_accepts (h.accepts_le hw hle) (hback.accepts_le hw' hge)

end LinuxRs.Lib.Wildcard
