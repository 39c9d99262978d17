/-
Singly linked chains over index pointers, and the one-pass elevator
insertion into a list.

# Chains

A chain is read off a pointer map `next : I → Option I`. `Follows next
o l` says that walking from the entry pointer `o` visits exactly `l`
and ends; such a list is unique, so a walk that ends has one meaning.
Everything about updates goes through `Follows.congr`: a walk only
looks at the pointers of the indices it visits.

# The elevator

`splice lt x cur l` inserts `x` behind `cur` at the first pair of
neighbours that is either ascending around `x` or a descent whose right
side `x` precedes. `descents` counts the neighbours out of order. The
insertion keeps a list with at most one descent that way, as long as
`lt` connects `x` with the members (`descents_splice_le`): an ascending
remainder behind the only descent stays ascending, since `x` only
travels into it after passing its first element.
-/
import Mathlib.Data.List.Nodup

namespace LinuxRs.Lib

universe u

variable {I : Type u}

-- ======== chains

/-- Walking `next` from the entry pointer visits exactly this list. -/
def Follows (next : I → Option I) : Option I → List I → Prop
  | o, [] => o = none
  | o, a :: l => o = some a ∧ Follows next (next a) l

theorem Follows.congr {next next' : I → Option I} :
    ∀ {l : List I} {o : Option I}, (∀ a ∈ l, next' a = next a) →
      Follows next o l → Follows next' o l := by
  intro l
  induction l with
  | nil => intro o _ h; exact h
  | cons a l ih =>
    intro o hag h
    obtain ⟨rfl, h⟩ := h
    refine ⟨rfl, ?_⟩
    rw [hag a (List.mem_cons_self ..)]
    exact ih (fun b hb => hag b (List.mem_cons_of_mem _ hb)) h

/-- A chain of links is one list. -/
theorem Follows.unique {next : I → Option I} :
    ∀ {l l' : List I} {o : Option I},
      Follows next o l → Follows next o l' → l = l' := by
  intro l
  induction l with
  | nil =>
    intro l' o h h'
    cases l' with
    | nil => rfl
    | cons b l' =>
      obtain ⟨rfl, -⟩ := h'
      cases h
  | cons a l ih =>
    intro l' o h h'
    obtain ⟨rfl, h⟩ := h
    cases l' with
    | nil => cases h'
    | cons b l' =>
      obtain ⟨hb, h'⟩ := h'
      injection hb with hb
      subst hb
      rw [ih h h']

theorem Follows.eq_cons {next : I → Option I} {l : List I} {a : I}
    (h : Follows next (some a) l) :
    ∃ t, l = a :: t ∧ Follows next (next a) t := by
  cases l with
  | nil => cases h
  | cons b t =>
    obtain ⟨hb, h⟩ := h
    injection hb with hb
    subst hb
    exact ⟨t, rfl, h⟩

theorem Follows.eq_nil_iff {next : I → Option I} {l : List I}
    {o : Option I} (h : Follows next o l) : l = [] ↔ o = none := by
  cases l with
  | nil => exact ⟨fun _ => h, fun _ => rfl⟩
  | cons a l =>
    obtain ⟨rfl, -⟩ := h
    simp

-- ======== descents

variable (lt : I → I → Bool)

def descents : List I → Nat
  | a :: b :: l => (if lt a b then 0 else 1) + descents (b :: l)
  | _ => 0

@[simp] theorem descents_nil : descents lt [] = 0 := rfl

@[simp] theorem descents_singleton (a : I) : descents lt [a] = 0 := rfl

theorem descents_tail_le (l : List I) :
    descents lt l.tail ≤ descents lt l := by
  match l with
  | [] => simp
  | [a] => simp
  | a :: b :: l =>
    simp only [List.tail_cons, descents]
    omega

theorem descents_congr {lt lt' : I → I → Bool} :
    ∀ {l : List I}, (∀ a ∈ l, ∀ b ∈ l, lt' a b = lt a b) →
      descents lt' l = descents lt l := by
  intro l
  match l with
  | [] => intro _; rfl
  | [a] => intro _; rfl
  | a :: b :: l =>
    intro h
    have hrest : descents lt' (b :: l) = descents lt (b :: l) :=
      descents_congr fun x hx y hy =>
        h x (List.mem_cons_of_mem _ hx) y (List.mem_cons_of_mem _ hy)
    simp only [descents, hrest]
    rw [h a (by simp) b (by simp)]

-- ======== the elevator

/-- What stands behind `cur` after inserting `x`: the first place where
`cur` precedes `x`, or `cur` and its neighbour are a descent, and `x`
precedes the neighbour; the end if there is none. -/
def splice (x : I) : I → List I → List I
  | _, [] => [x]
  | cur, n :: l =>
    if (lt cur x || !lt cur n) && lt x n then x :: n :: l
    else n :: splice x n l

/-- Insert `x` into a chain whose head, if any, keeps its place. -/
def enqueue (x : I) : List I → List I
  | [] => [x]
  | cur :: l => cur :: splice lt x cur l

theorem splice_perm (x : I) :
    ∀ (l : List I) (cur : I), (splice lt x cur l).Perm (x :: l) := by
  intro l
  induction l with
  | nil => intro cur; exact List.Perm.refl _
  | cons n l ih =>
    intro cur
    unfold splice
    split
    · exact List.Perm.refl _
    · exact ((ih n).cons n).trans (List.Perm.swap x n l)

theorem enqueue_perm (x : I) (l : List I) :
    (enqueue lt x l).Perm (x :: l) := by
  cases l with
  | nil => exact List.Perm.refl _
  | cons cur l =>
    exact ((splice_perm lt x l cur).cons cur).trans (List.Perm.swap x cur l)

theorem splice_congr {lt lt' : I → I → Bool} (x : I) :
    ∀ (l : List I) (cur : I),
      (∀ a ∈ x :: cur :: l, ∀ b ∈ x :: cur :: l, lt' a b = lt a b) →
      splice lt' x cur l = splice lt x cur l := by
  intro l
  induction l with
  | nil => intro cur _; rfl
  | cons n l ih =>
    intro cur h
    have hrest : splice lt' x n l = splice lt x n l :=
      ih n fun a ha b hb => h a (by simp at ha ⊢; tauto) b
        (by simp at hb ⊢; tauto)
    unfold splice
    rw [hrest, h cur (by simp) x (by simp), h cur (by simp) n (by simp),
      h x (by simp) n (by simp)]

theorem enqueue_congr {lt lt' : I → I → Bool} (x : I) (l : List I)
    (h : ∀ a ∈ x :: l, ∀ b ∈ x :: l, lt' a b = lt a b) :
    enqueue lt' x l = enqueue lt x l := by
  cases l with
  | nil => rfl
  | cons cur l => simp only [enqueue, splice_congr x l cur h]

/-- An element spliced into an ascending list leaves it ascending. -/
theorem descents_splice_ascending (x : I) :
    ∀ (l : List I) (cur : I),
      (∀ n ∈ l, lt x n = true ∨ lt n x = true) →
      descents lt (cur :: l) = 0 → lt cur x = true →
      descents lt (cur :: splice lt x cur l) = 0 := by
  intro l
  induction l with
  | nil =>
    intro cur _ _ hcur
    simp [splice, descents, hcur]
  | cons n l ih =>
    intro cur hconn hasc hcur
    simp only [descents] at hasc
    unfold splice
    split
    next hins =>
      simp only [Bool.and_eq_true] at hins
      simp only [descents, hcur, hins.2, if_true]
      omega
    next hins =>
      have hxn : lt x n = false := by
        simpa [hcur] using hins
      have hnx : lt n x = true := by
        simpa [hxn] using hconn n (List.mem_cons_self ..)
      have hrest := ih n (fun m hm => hconn m (List.mem_cons_of_mem _ hm))
        (by omega) hnx
      simp only [descents, hrest]
      omega

/-- Splicing adds no descent to a list that has one at most: the element goes
into the run it fits. -/
theorem descents_splice_le (x : I) :
    ∀ (l : List I) (cur : I),
      (∀ n ∈ l, lt x n = true ∨ lt n x = true) →
      descents lt (cur :: l) ≤ 1 →
      descents lt (cur :: splice lt x cur l) ≤ 1 := by
  intro l
  induction l with
  | nil =>
    intro cur _ _
    simp only [splice, descents]
    split <;> omega
  | cons n l ih =>
    intro cur hconn hle
    simp only [descents] at hle
    have hconn' := fun m hm => hconn m (List.mem_cons_of_mem n hm)
    unfold splice
    split
    next hins =>
      simp only [Bool.and_eq_true, Bool.or_eq_true,
        Bool.not_eq_true'] at hins
      obtain ⟨hcur, hxn⟩ := hins
      -- Either `cur` precedes `x`, or the pair was the descent and
      -- its place is taken by `cur` and `x`.
      rcases hcur with hcur | hcur
      · simp only [descents, hcur, hxn]
        simp only [if_true]
        omega
      · rw [hcur] at hle
        simp only [descents, hxn, if_true]
        split <;> simp at hle <;> omega
    next hins =>
      cases hcn : lt cur n with
      | true =>
        simp only [hcn, if_true] at hle
        have := ih n hconn' (by omega)
        simp only [descents, hcn, if_true]
        omega
      | false =>
        -- Past the only descent: the rest is ascending and `x`
        -- comes after its first element.
        have hxn : lt x n = false := by
          simpa [hcn] using hins
        have hnx : lt n x = true := by
          simpa [hxn] using hconn n (List.mem_cons_self ..)
        have hasc : descents lt (n :: l) = 0 := by
          simp [hcn] at hle
          omega
        have := descents_splice_ascending lt x l n hconn' hasc hnx
        simp only [descents, hcn, this]
        simp

theorem descents_enqueue_le (x : I) (l : List I)
    (hconn : ∀ n ∈ l, lt x n = true ∨ lt n x = true)
    (hle : descents lt l ≤ 1) : descents lt (enqueue lt x l) ≤ 1 := by
  cases l with
  | nil => simp [enqueue]
  | cons cur l =>
    exact descents_splice_le lt x l cur
      (fun n hn => hconn n (List.mem_cons_of_mem _ hn)) hle

end LinuxRs.Lib
