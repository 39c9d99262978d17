/-
Which patterns the matcher reads right.

# The matcher's reading

The matcher is a matcher of elements too (`matchCore_iff`), of those that
`read` gives: it stops reading at a `[` without a `]`, takes whatever comes
behind a backslash at the end, and does not take a `]` at the front of a
class for the start of a range.

# Where the readings differ

Two patterns of one shape match the same strings only if they are the same
or nothing is matched at all, and a pattern that is cut off or ends in a star
is of another shape. So a pattern means to the matcher what it should mean
exactly if it is `Regular`, or if a class without characters stands in it.
-/
import LinuxRs.User.Fnmatch

namespace LinuxRs.User.Fnmatch

open Lib.Wildcard

variable {flags : UInt8}

-- ======== characters

theorem lower_toNat (c : Byte) : (lower c).toNat =
      if 65 ≤ c.toNat ∧ c.toNat ≤ 90 then c.toNat + 32 else c.toNat := by
  have hA : 'A'.toUInt8.toNat = 65 := rfl
  have hZ : 'Z'.toUInt8.toNat = 90 := rfl
  unfold lower
  simp only [UInt8.le_iff_toNat_le, hA, hZ]
  split
  next h =>
    have h32 : (32 : UInt8).toNat = 32 := rfl
    rw [UInt8.toNat_add, h32]
    omega
  next => rfl

theorem byteEq_mark {b : Byte}
    (hb : b.toNat < 65 ∨ 90 < b.toNat ∧ b.toNat < 97) (c : Byte) :
    byteEq b c flags = (c == b) := by
  unfold byteEq
  rw [Bool.eq_iff_iff, beq_iff_eq]
  split
  next =>
    rw [beq_iff_eq, ← UInt8.toNat_inj, ← UInt8.toNat_inj, lower_toNat,
      lower_toNat]
    constructor
    · intro h
      split at h
      next => omega
      next =>
        split at h
        next => omega
        next => exact h.symm
    · intro h
      rw [h]
  next =>
    rw [beq_iff_eq]
    exact eq_comm

-- ======== classes

theorem inRange_self (lo c : Byte) (flags : UInt8) :
    inRange lo lo c flags = byteEq lo c flags := by
  unfold inRange byteEq
  split
  next =>
    rw [Bool.eq_iff_iff, Bool.and_eq_true, decide_eq_true_iff, decide_eq_true_iff,
      beq_iff_eq]
    exact ⟨fun h => UInt8.le_antisymm h.1 h.2, fun h => by
      rw [h]
      exact ⟨UInt8.le_refl _, UInt8.le_refl _⟩⟩
  next =>
    rw [Bool.eq_iff_iff, Bool.and_eq_true, decide_eq_true_iff, decide_eq_true_iff,
      beq_iff_eq]
    exact ⟨fun h => UInt8.le_antisymm h.1 h.2, fun h => by
      rw [h]
      exact ⟨UInt8.le_refl _, UInt8.le_refl _⟩⟩

theorem ranges_cons_single {lo : Byte} {rest : Bytes}
    (h : ∀ hi more, rest ≠ dash :: hi :: more) :
    ranges (lo :: rest) = (lo, lo) :: ranges rest := by
  cases rest with
  | nil => rfl
  | cons d rest =>
    cases rest with
    | nil => rfl
    | cons hi more =>
      have hd : d ≠ dash := fun heq => h hi more (by rw [heq])
      conv_lhs => unfold ranges
      exact if_neg hd

theorem inRanges_cons (r : Byte × Byte) (rs : List (Byte × Byte)) (c : Byte) :
    inRanges flags (r :: rs) c =
      (inRange r.1 r.2 c flags || inRanges flags rs c) := rfl

theorem takeWhile_open {lo : Byte} (h : lo ≠ closing) (rest : Bytes) :
    (lo :: rest).takeWhile (· ≠ closing) =
      lo :: rest.takeWhile (· ≠ closing) := by
  simp [h]

/-- The loop of a class matches a character in one of its ranges. -/
theorem classLoop_matched (c : Byte) (flags : UInt8) (matched : Bool)
    (pat : Bytes) : (classLoop c flags matched pat).1 =
      (matched || inRanges flags (ranges (pat.takeWhile (· ≠ closing))) c) := by
  fun_induction classLoop c flags matched pat with
  | case1 matched => simp [ranges, inRanges]
  | case2 matched rest => simp [ranges, inRanges]
  | case3 matched lo hlo d hi rest h ih =>
    rw [ih, h.1]
    have hdash : dash ≠ closing := by decide
    simp [hlo, hdash, h.2, ranges, inRanges, Bool.or_assoc]
  | case4 matched lo hlo d hi rest h ih =>
    have hsingle : ∀ x more,
        (d :: hi :: rest).takeWhile (· ≠ closing) ≠ dash :: x :: more := by
      intro x more heq
      simp only [List.takeWhile_cons] at heq
      split at heq
      next =>
        obtain ⟨hd, heq⟩ := List.cons.inj heq
        split at heq
        next hhi => exact h ⟨hd, of_decide_eq_true hhi⟩
        next => cases heq
      next => cases heq
    rw [ih, takeWhile_open hlo,
      ranges_cons_single hsingle, inRanges_cons, inRange_self, Bool.or_assoc]
  | case5 matched lo hlo rest h ih =>
    have hsingle : ∀ x more,
        rest.takeWhile (· ≠ closing) ≠ dash :: x :: more := by
      intro x more heq
      cases rest with
      | nil => cases heq
      | cons d rest =>
        cases rest with
        | nil =>
          simp only [List.takeWhile_cons] at heq
          split at heq
          next => cases heq
          next => cases heq
        | cons hi rest => exact h d hi rest rfl
    rw [ih, takeWhile_open hlo,
      ranges_cons_single hsingle, inRanges_cons, inRange_self, Bool.or_assoc]

/-- The characters of a class to the matcher: a `]` at the front is one of
them, whatever stands behind it. -/
def asRead (flags : UInt8) : Bytes → Byte → Bool
  | [], _ => false
  | first :: tail, c =>
    if first = closing then c == closing || inRanges flags (ranges tail) c
    else inRanges flags (ranges (first :: tail)) c

def closeClass (neg : Bool) (c : Byte) : Bool × Bytes → Bool × Bytes
  | (_, []) => (c == opening, [])
  | (matched, _ :: rest) => (matched != neg, rest)

theorem matchClass_nil {pat : Bytes} (h : (classBody pat).2 = []) (c : Byte)
    (flags : UInt8) : matchClass pat c flags = (false, []) := by
  cases pat with
  | nil => rfl
  | cons b pat =>
    unfold classBody at h
    dsimp only at h
    split at h
    next hneg =>
      have hpat : pat = [] := h
      rw [hpat]
      unfold matchClass
      dsimp only
      rw [if_pos hneg]
    next => cases h

theorem matchClass_cons {pat : Bytes} {first : Byte} {tail : Bytes}
    (h : (classBody pat).2 = first :: tail) (c : Byte) (flags : UInt8) :
    matchClass pat c flags = closeClass (classBody pat).1 c
      (classLoop c flags (first == closing && c == closing)
        (if first = closing then tail else first :: tail)) := by
  cases pat with
  | nil => cases h
  | cons b pat =>
    have hbody : (if b = bang ∨ b = caret then pat else b :: pat) =
        first :: tail := by
      rw [← h]
      unfold classBody
      dsimp only
      split
      next => rfl
      next => rfl
    have hneg : (classBody (b :: pat)).1 = decide (b = bang ∨ b = caret) := by
      unfold classBody
      dsimp only
      split
      next hneg => exact (decide_eq_true hneg).symm
      next hneg => exact (decide_eq_false hneg).symm
    unfold matchClass
    dsimp only
    rw [hneg, hbody]
    dsimp only
    by_cases hfirst : first = closing
    · rw [if_pos hfirst, if_pos hfirst, beq_iff_eq.mpr hfirst, Bool.true_and]
      rfl
    · rw [if_neg hfirst, if_neg hfirst, beq_eq_false_iff_ne.mpr hfirst,
        Bool.false_and]
      rfl

theorem classLoop_eq (c : Byte) (flags : UInt8) (matched : Bool) (pat : Bytes) :
    classLoop c flags matched pat =
      (matched || inRanges flags (ranges (pat.takeWhile (· ≠ closing))) c,
        pat.dropWhile (· ≠ closing)) :=
  Prod.ext (classLoop_matched c flags matched pat)
    (classLoop_rest c flags matched pat)

/-- A closed bracket matches by its content. -/
theorem matchClass_closed {pat : Bytes} {r : Bool × Bytes × Bytes}
    (h : bracket pat = some r) (c : Byte) (flags : UInt8) :
    matchClass pat c flags = (asRead flags r.2.1 c != r.1, r.2.2) := by
  unfold bracket at h
  split at h
  next => cases h
  next first tail heq =>
    split at h
    next => cases h
    next d rest hdrop =>
      cases h
      rw [matchClass_cons heq, classLoop_eq]
      unfold asRead
      dsimp only
      by_cases hfirst : first = closing
      · rw [if_pos hfirst, if_pos hfirst, beq_iff_eq.mpr hfirst, Bool.true_and,
          hdrop]
        rfl
      · rw [if_neg hfirst, if_neg hfirst, beq_eq_false_iff_ne.mpr hfirst,
          Bool.false_and, Bool.false_or, takeWhile_open hfirst,
          List.dropWhile_cons_of_pos (by simpa using hfirst), hdrop]
        rfl

theorem matchClass_unclosed {pat : Bytes} (h : bracket pat = none) (c : Byte)
    (flags : UInt8) : matchClass pat c flags =
      (!(classBody pat).2.isEmpty && c == opening, []) := by
  cases hbody : (classBody pat).2 with
  | nil => exact matchClass_nil hbody c flags
  | cons first tail =>
    have hdrop : tail.dropWhile (· ≠ closing) = [] := by
      unfold bracket at h
      rw [hbody] at h
      dsimp only at h
      split at h
      next hdrop => exact hdrop
      next => cases h
    rw [matchClass_cons hbody, classLoop_eq]
    by_cases hfirst : first = closing
    · rw [if_pos hfirst, hdrop]
      rfl
    · rw [if_neg hfirst, List.dropWhile_cons_of_pos (by simpa using hfirst),
        hdrop]
      rfl

-- ======== the matcher

def read (flags : UInt8) : List Piece → List (Elem Byte)
  | [] => []
  | .star :: ps => .star (inPart flags) :: read flags ps
  | .any :: ps => .one (inPart flags) :: read flags ps
  | .cls neg content :: ps =>
    .one (fun c => asRead flags content c != neg) :: read flags ps
  | .lit b :: ps => .one (fun c => byteEq b c flags) :: read flags ps
  | .unclosed behind :: _ =>
    [.one fun c => !(classBody behind).2.isEmpty && c == opening]
  | .trailing :: _ => [.one fun c => c == backslash, .star fun _ => true]

/-- A star takes any characters of one part, and the rest goes on behind
them. -/
theorem starLoop_iff (next : Bytes → Bool) (s : Bytes) :
    starLoop next flags s = true ↔
      ∃ u v, s = u ++ v ∧ (∀ c ∈ u, inPart flags c = true) ∧ next v = true := by
  induction s with
  | nil =>
    constructor
    · intro h
      exact ⟨[], [], rfl, nofun, h⟩
    · intro h
      obtain ⟨u, v, heq, _, h⟩ := h
      rw [(List.append_eq_nil_iff.mp heq.symm).2] at h
      exact h
  | cons c s ih =>
    unfold starLoop
    constructor
    · intro h
      split at h
      next hnext =>
        exact ⟨[], c :: s, rfl, nofun, hnext⟩
      next =>
        split at h
        next => cases h
        next hpart =>
          obtain ⟨u, v, rfl, hu, hv⟩ := ih.mp h
          refine ⟨c :: u, v, rfl, fun d hd => ?_, hv⟩
          rcases List.mem_cons.mp hd with rfl | hd
          · unfold inPart
            rw [eq_false_of_ne_true hpart]
            rfl
          · exact hu d hd
    · intro h
      obtain ⟨u, v, heq, hu, hv⟩ := h
      split
      next => rfl
      next hnext =>
        cases u with
        | nil =>
          rw [List.nil_append] at heq
          rw [← heq] at hv
          exact absurd hv hnext
        | cons d u =>
          obtain ⟨rfl, rfl⟩ := List.cons.inj heq
          obtain ⟨hd, hu⟩ := List.forall_mem_cons.mp hu
          have hpart : ¬ (hasFlag flags PATHNAME && c == slash) = true := by
            intro hslash
            unfold inPart at hd
            rw [hslash] at hd
            cases hd
          rw [if_neg hpart]
          exact ih.mpr ⟨u, v, rfl, hu, hv⟩

theorem star_end_iff (s : Bytes) :
    (!hasFlag flags PATHNAME || !s.contains slash) = true ↔
      ∀ c ∈ s, inPart flags c = true := by
  unfold inPart
  cases hasFlag flags PATHNAME with
  | false => simp
  | true =>
    simp only [Bool.not_true, Bool.false_or, Bool.true_and, Bool.not_eq_true',
      List.contains_eq_mem, decide_eq_false_iff_not, beq_eq_false_iff_ne]
    constructor
    · intro h c hc heq
      rw [heq] at hc
      exact h hc
    · intro h hmem
      exact h slash hmem rfl

theorem single_iff {f : Bytes → Bool} {accepts : Byte → Bool}
    {es : List (Elem Byte)} (hnil : f [] = false)
    (hcons : ∀ c s, f (c :: s) = true ↔ accepts c = true ∧ Matches es s)
    (s : Bytes) : f s = true ↔ Matches (.one accepts :: es) s := by
  rw [matches_one_iff]
  cases s with
  | nil =>
    rw [hnil]
    constructor
    · intro h
      cases h
    · intro h
      obtain ⟨c, v, heq, _⟩ := h
      cases heq
  | cons c s =>
    rw [hcons]
    constructor
    · intro h
      exact ⟨c, s, rfl, h.1, h.2⟩
    · intro h
      obtain ⟨d, v, heq, hd, hv⟩ := h
      obtain ⟨rfl, rfl⟩ := List.cons.inj heq
      exact ⟨hd, hv⟩

/-- The matcher matches what the pattern means as it is read. By induction on
the pattern. -/
theorem matchCore_iff (pat s : Bytes) : matchCore flags pat s = true ↔
      Matches (read flags (pieces flags pat)) s := by
  fun_induction pieces flags pat generalizing s with
  | case1 =>
    unfold matchCore read
    rw [matches_nil_iff, List.isEmpty_iff]
  | case2 pat ih =>
    unfold matchCore read
    rw [if_pos rfl, matches_star_iff]
    split
    next hnil =>
      rw [List.isEmpty_iff.mp hnil, star_end_iff]
      unfold pieces read
      constructor
      · intro h
        exact ⟨s, [], (List.append_nil s).symm, h, .nil⟩
      · intro h
        obtain ⟨u, v, rfl, hu, hv⟩ := h
        rw [matches_nil_iff.mp hv, List.append_nil]
        exact hu
    next =>
      rw [starLoop_iff]
      simp only [ih]
  | case3 pat hne ih =>
    refine single_iff ?_ (fun c s => ?_) s
    · unfold matchCore
      rw [if_neg hne, if_pos rfl]
    · conv_lhs => unfold matchCore
      rw [if_neg hne, if_pos rfl, ← ih]
      dsimp only
      have hpart : inPart flags c = !(hasFlag flags PATHNAME && c == slash) :=
        rfl
      by_cases hslash : (hasFlag flags PATHNAME && c == slash) = true
      · rw [if_pos hslash, hpart, hslash]
        simp
      · rw [if_neg hslash, hpart, eq_false_of_ne_true hslash]
        simp
  | case4 pat r hr hne hne' ih =>
    refine single_iff ?_ (fun c s => ?_) s
    · unfold matchCore
      rw [if_neg hne, if_neg hne', if_pos rfl]
    · conv_lhs => unfold matchCore
      rw [if_neg hne, if_neg hne', if_pos rfl]
      dsimp only
      rw [matchClass_closed hr, ← ih]
      simp
  | case5 pat hr hne hne' ih =>
    refine single_iff ?_ (fun c s => ?_) s
    · unfold matchCore
      rw [if_neg hne, if_neg hne', if_pos rfl]
    · conv_lhs => unfold matchCore
      rw [if_neg hne, if_neg hne', if_pos rfl]
      dsimp only
      rw [matchClass_unclosed hr, matches_nil_iff]
      unfold matchCore
      simp
  | case6 b hne hne' hopen hback =>
    refine single_iff ?_ (fun c s => ?_) s
    · unfold matchCore
      rw [if_neg hne, if_neg hne', if_neg hopen, if_pos hback]
      rfl
    · conv_lhs => unfold matchCore
      rw [if_neg hne, if_neg hne', if_neg hopen, if_pos hback]
      have hall : Matches [.star fun _ => true] s := by
        rw [← List.append_nil s]
        exact .star (fun d _ => rfl) .nil
      simp [hall]
  | case7 b hne hne' hopen hback e pat ih =>
    refine single_iff ?_ (fun c s => ?_) s
    · unfold matchCore
      rw [if_neg hne, if_neg hne', if_neg hopen, if_pos hback]
    · conv_lhs => unfold matchCore
      rw [if_neg hne, if_neg hne', if_neg hopen, if_pos hback, ← ih]
      simp
  | case8 b pat hne hne' hopen hback ih =>
    refine single_iff ?_ (fun c s => ?_) s
    · unfold matchCore
      rw [if_neg hne, if_neg hne', if_neg hopen, if_neg hback]
    · conv_lhs => unfold matchCore
      rw [if_neg hne, if_neg hne', if_neg hopen, if_neg hback, ← ih]
      simp

-- ======== the readings

/-- A piece that the matcher reads right: a class that opens with a range
from `]` has the same characters without it, and nothing is left open. -/
def Piece.Regular (flags : UInt8) : Piece → Prop
  | .cls _ content => ∀ hi more, content = closing :: dash :: hi :: more →
      ∀ c, asRead flags content c = inRanges flags (ranges content) c
  | .unclosed _ => False
  | .trailing => False
  | _ => True

/-- The matcher reads every piece of the pattern right. -/
def Regular (flags : UInt8) (pattern : Bytes) : Prop :=
  ∀ p ∈ pieces flags pattern, p.Regular flags

theorem asRead_eq {content : Bytes} (h : Piece.Regular flags (.cls false content))
    (c : Byte) : asRead flags content c = inRanges flags (ranges content) c := by
  cases content with
  | nil => rfl
  | cons first tail =>
    by_cases hrange : ∃ hi more, first :: tail = closing :: dash :: hi :: more
    · obtain ⟨hi, more, heq⟩ := hrange
      exact h hi more heq c
    · unfold asRead
      dsimp only
      split
      next hfirst =>
        have hsingle : ∀ hi more, tail ≠ dash :: hi :: more := by
          intro hi more htail
          exact hrange ⟨hi, more, by rw [hfirst, htail]⟩
        rw [ranges_cons_single hsingle, inRanges_cons, inRange_self, hfirst]
        rw [byteEq_mark (by decide)]
      next => rfl

theorem pieces_ne_nil {pat : Bytes} (h : pat ≠ []) : pieces flags pat ≠ [] := by
  fun_cases pieces flags pat with
  | case1 => exact absurd rfl h
  | case2 => exact List.cons_ne_nil _ _
  | case3 => exact List.cons_ne_nil _ _
  | case4 => exact List.cons_ne_nil _ _
  | case5 => exact List.cons_ne_nil _ _
  | case6 => exact List.cons_ne_nil _ _
  | case7 => exact List.cons_ne_nil _ _
  | case8 => exact List.cons_ne_nil _ _

/-- How the two readings of a pattern lie beside each other: to the end, to a
backslash at the end, or to a `[` without a `]`. -/
inductive Beside (flags : UInt8) : List (Elem Byte) → List (Elem Byte) → Prop where
  | whole {es es' : List (Elem Byte)} : Alongside es es' → Beside flags es es'
  | trailing {es es' : List (Elem Byte)} : Alongside es es' → Beside flags
        (es ++ [.one fun c => c == backslash, .star fun _ => true])
        (es' ++ [.one fun c => byteEq backslash c flags])
  | unclosed {es es' : List (Elem Byte)} (behind : Bytes) : Alongside es es' →
      Beside flags
        (es ++ [.one fun c => !(classBody behind).2.isEmpty && c == opening])
        (es' ++ .one (fun c => byteEq opening c flags) :: elements flags behind)

theorem Beside.star {es es' : List (Elem Byte)} (run : Byte → Bool)
    (h : Beside flags es es') :
    Beside flags (.star run :: es) (.star run :: es') := by
  cases h with
  | whole h => exact .whole (.star run h)
  | trailing h => exact .trailing (.star run h)
  | unclosed behind h => exact .unclosed behind (.star run h)

theorem Beside.one {es es' : List (Elem Byte)} (p q : Byte → Bool)
    (h : Beside flags es es') :
    Beside flags (.one p :: es) (.one q :: es') := by
  cases h with
  | whole h => exact .whole (.one p q h)
  | trailing h => exact .trailing (.one p q h)
  | unclosed behind h => exact .unclosed behind (.one p q h)

theorem beside_elements (flags : UInt8) (pat : Bytes) :
    Beside flags (read flags (pieces flags pat)) (elements flags pat) := by
  unfold elements
  fun_induction pieces flags pat with
  | case1 => exact .whole .nil
  | case2 pat ih => exact ih.star _
  | case3 pat _ ih => exact ih.one _ _
  | case4 pat r _ _ _ ih => exact ih.one _ _
  | case5 pat _ _ _ _ => 
    exact (.unclosed pat .nil : Beside flags ([] ++ _) ([] ++ _))
  | case6 => exact (.trailing .nil : Beside flags ([] ++ _) ([] ++ _))
  | case7 _ _ _ _ _ e pat ih => exact ih.one _ _
  | case8 b pat _ _ _ _ ih => exact ih.one _ _

theorem one_ne {p q : Byte → Bool} {c : Byte} (h : p c ≠ q c)
    {es es' : List (Elem Byte)} : Elem.one p :: es ≠ .one q :: es' := by
  intro heq
  exact h (congrFun (Elem.one.inj (List.cons.inj heq).1) c)

theorem unclosed_ne (behind : Bytes) :
    [Elem.one fun c => !(classBody behind).2.isEmpty && c == opening] ≠
      .one (fun c => byteEq opening c flags) :: elements flags behind := by
  intro heq
  by_cases hbehind : behind = []
  · rw [hbehind] at heq
    apply one_ne (c := opening) _ heq
    rw [byteEq_mark (by decide)]
    decide
  · have hne : pieces flags behind ≠ [] := pieces_ne_nil hbehind
    exact hne (List.map_eq_nil_iff.mp (List.cons.inj heq).2.symm)

/-- A pattern is read as it is meant exactly if it is regular. -/
theorem read_eq_iff (flags : UInt8) (pat : Bytes) :
    read flags (pieces flags pat) = elements flags pat ↔ Regular flags pat := by
  unfold elements Regular
  fun_induction pieces flags pat with
  | case1 => simp [read]
  | case2 pat ih => simp [read, Piece.element, Piece.Regular, ih]
  | case3 pat _ ih => simp [read, Piece.element, Piece.Regular, ih]
  | case4 pat r _ _ _ ih =>
    simp only [read, List.map_cons, List.forall_mem_cons, List.cons.injEq,
      Piece.element, Elem.one.injEq, ih]
    apply and_congr_left'
    constructor
    · intro h hi more _ c
      have hc := congrFun h c
      simpa using hc
    · intro h
      funext c
      rw [asRead_eq h]
  | case5 pat _ _ _ _ =>
    constructor
    · intro h
      exact absurd h (unclosed_ne pat)
    · intro h
      exact (h _ List.mem_cons_self).elim
  | case6 =>
    constructor
    · intro h
      cases (List.cons.inj h).2
    · intro h
      exact (h _ List.mem_cons_self).elim
  | case7 _ _ _ _ _ e pat ih => simp [read, Piece.element, Piece.Regular, ih]
  | case8 b pat _ _ _ _ ih => simp [read, Piece.element, Piece.Regular, ih]

-- ======== the law

variable {es es' : List (Elem Byte)}

theorem trailing_differs (hlive : ¬ Barren es) (hsame : ∀ s,
      Matches (es ++ [.one fun c => c == backslash, .star fun _ => true]) s ↔
        Matches (es' ++ [.one fun c => byteEq backslash c flags]) s) : False := by
  obtain ⟨w, hw⟩ := exists_fits_of_not_barren hlive
  have htail : Matches
      [.one fun c => c == backslash, .star fun _ => true] [backslash, slash] :=
    .one (by decide) (.star (u := [slash]) (fun c _ => rfl) .nil)
  have hmatch := (hsame _).mp ((matches_of_fits hw).append htail)
  obtain ⟨c, hlast, hc⟩ := getLast_accepted hmatch
  rw [List.getLast?_append] at hlast
  cases hlast
  rw [byteEq_mark (by decide)] at hc
  cases hc

/-- A class that is not closed makes a difference: some text tells the
readings apart. -/
theorem unclosed_differs (h : Alongside es es') (hlive : ¬ Barren es)
    (hlive' : ¬ Barren es') {behind : Bytes} (hbehind : behind ≠ [])
    (hsame : ∀ s, Matches (es ++
        [.one fun c => !(classBody behind).2.isEmpty && c == opening]) s ↔
        Matches (es' ++ .one (fun c => byteEq opening c flags) ::
          elements flags behind) s)
    (hopen : (!(classBody behind).2.isEmpty && opening == opening) = true) :
    False := by
  obtain ⟨w, hw⟩ := exists_fits_of_not_barren hlive
  obtain ⟨w', hw'⟩ := exists_fits_of_not_barren hlive'
  have hmatch := (hsame _).mp ((matches_of_fits hw).append (.one hopen .nil))
  have hlen := length_ones_le hmatch
  have hones : ones (elements flags behind) = [] := by
    apply List.eq_nil_of_length_eq_zero
    rw [ones_append, List.length_append, ← h.length_ones, List.length_append,
      List.Forall₂.length_eq hw] at hlen
    simp only [ones, List.length_cons, List.length_nil] at hlen
    omega
  have hstars : ∃ more, elements flags behind = .star (inPart flags) :: more ∧
      ones more = [] := by
    unfold elements at hones ⊢
    cases hpieces : pieces flags behind with
    | nil => exact absurd hpieces (pieces_ne_nil hbehind)
    | cons p ps =>
      rw [hpieces] at hones
      cases p with
      | star => exact ⟨_, rfl, hones⟩
      | any => cases hones
      | cls neg content => cases hones
      | lit b => cases hones
      | unclosed b => cases hones
      | trailing => cases hones
  obtain ⟨more, heq, hmore⟩ := hstars
  have hrest : Matches more [] := by
    apply matches_of_fits
    rw [hmore]
    exact .nil
  have hpart : ∀ c ∈ [dash], inPart flags c = true := by
    intro c hc
    rw [List.mem_singleton.mp hc]
    unfold inPart
    rw [show (dash == slash) = false by decide, Bool.and_false]
    rfl
  have htail : Matches (.one (fun c => byteEq opening c flags) ::
      elements flags behind) [opening, dash] := by
    rw [heq]
    refine .one ?_ (.star (u := [dash]) hpart hrest)
    rw [byteEq_mark (by decide)]
    decide
  have hback := (hsame _).mpr ((matches_of_fits hw').append htail)
  obtain ⟨c, hlast, hc⟩ := getLast_accepted hback
  rw [List.getLast?_append] at hlast
  obtain rfl : dash = c := Option.some.inj hlast
  rw [show (dash == opening) = false by decide, Bool.and_false] at hc
  cases hc

theorem barren_unclosed {behind : Bytes} (h : (classBody behind).2 = [])
    (es : List (Elem Byte)) : Barren (es ++
      [.one fun c => !(classBody behind).2.isEmpty && c == opening]) := by
  rw [h]
  refine ⟨fun c => !([] : Bytes).isEmpty && c == opening, ?_, fun c => rfl⟩
  rw [ones_append]
  exact List.mem_append_right _ List.mem_cons_self

/-- Readings that match the same texts are the same. -/
theorem read_eq_of_matches {pattern : Bytes}
    (hsame : ∀ s, Matches (read flags (pieces flags pattern)) s ↔
      Matches (elements flags pattern) s)
    (hlive : ¬ (Barren (read flags (pieces flags pattern)) ∧
      Barren (elements flags pattern))) :
    read flags (pieces flags pattern) = elements flags pattern := by
  have hboth : ¬ Barren (read flags (pieces flags pattern)) ∧
      ¬ Barren (elements flags pattern) := by
    rcases Classical.not_and_iff_not_or_not.mp hlive with h | h
    · obtain ⟨w, hw⟩ := exists_fits_of_not_barren h
      exact ⟨h, not_barren_of_matches ((hsame w).mp (matches_of_fits hw))⟩
    · obtain ⟨w, hw⟩ := exists_fits_of_not_barren h
      exact ⟨not_barren_of_matches ((hsame w).mpr (matches_of_fits hw)), h⟩
  obtain ⟨hread, helements⟩ := hboth
  have hbeside := beside_elements flags pattern
  generalize read flags (pieces flags pattern) = es at *
  generalize elements flags pattern = es' at *
  cases hbeside with
  | whole h => exact h.eq_of_matches hsame (.inl hread)
  | trailing h =>
    exact (trailing_differs (fun hes => hread (hes.append_left _)) hsame).elim
  | @unclosed es es' behind h =>
    have hopen : (!(classBody behind).2.isEmpty && opening == opening) =
        true := by
      cases hbody : (classBody behind).2 with
      | nil => exact absurd (barren_unclosed hbody es) hread
      | cons b body => rfl
    have hbehind : behind ≠ [] := by
      intro hnil
      rw [hnil] at hopen
      cases hopen
    exact (unclosed_differs h (fun hes => hread (hes.append_left _))
      (fun hes => helements (hes.append_left _)) hbehind hsame hopen).elim

/-- A pattern matches the strings it stands for exactly if all its pieces are
read right, or if it stands for none and the matcher finds none: a class
without characters is in it, for the one and for the other. -/
theorem fnmatch_iff (pattern : Bytes) (flags : UInt8) :
    (∀ s, fnmatch pattern s flags = true ↔
        Matches (elements flags pattern) s) ↔
      Regular flags pattern ∨ (Barren (read flags (pieces flags pattern)) ∧
          Barren (elements flags pattern)) := by
  have hfnmatch : ∀ s, fnmatch pattern s flags = true ↔
      Matches (read flags (pieces flags pattern)) s :=
    fun s => matchCore_iff pattern s
  constructor
  · intro h
    by_cases hbarren : Barren (read flags (pieces flags pattern)) ∧
        Barren (elements flags pattern)
    · exact .inr hbarren
    · refine .inl ((read_eq_iff flags pattern).mp ?_)
      exact read_eq_of_matches (fun s => (hfnmatch s).symm.trans (h s)) hbarren
  · intro h s
    rw [hfnmatch]
    rcases h with hregular | hbarren
    · rw [(read_eq_iff flags pattern).mpr hregular]
    · constructor
      · intro hmatch
        exact absurd hbarren.1 (not_barren_of_matches hmatch)
      · intro hmatch
        exact absurd hbarren.2 (not_barren_of_matches hmatch)

theorem pieces_unclosed {pat : Bytes} (h : bracket pat = none) :
    pieces flags (opening :: pat) = .unclosed pat :: pieces flags pat := by
  conv_lhs => unfold pieces
  rw [if_neg (by decide), if_neg (by decide), if_pos rfl]
  split
  next r hr =>
    rw [h] at hr
    cases hr
  next => rfl

theorem pieces_closed {pat : Bytes} {r : Bool × Bytes × Bytes}
    (h : bracket pat = some r) :
    pieces flags (opening :: pat) = .cls r.1 r.2.1 :: pieces flags r.2.2 := by
  conv_lhs => unfold pieces
  rw [if_neg (by decide), if_neg (by decide), if_pos rfl]
  split
  next r' hr =>
    rw [h] at hr
    cases hr
    rfl
  next hr =>
    rw [h] at hr
    cases hr

theorem pieces_nil : pieces flags [] = [] := by
  unfold pieces
  rfl

theorem pieces_letter : pieces flags ['a'.toUInt8] = [.lit 'a'.toUInt8] := by
  unfold pieces
  rw [if_neg (by decide), if_neg (by decide), if_neg (by decide),
    if_neg (by simp [show 'a'.toUInt8 ≠ backslash by decide]), pieces_nil]

theorem pieces_trailing : pieces 0 [backslash] = [.trailing] := by
  unfold pieces
  rw [if_neg (by decide), if_neg (by decide), if_neg (by decide),
    if_pos (by decide)]

/-- `[a` is not matched by itself, a backslash is matched by a backslash and
a letter, and `_` is not in `[]-a]`. -/
theorem fnmatch_misreads :
    (fnmatch [opening, 'a'.toUInt8] [opening, 'a'.toUInt8] 0 = false ∧
      Matches (elements 0 [opening, 'a'.toUInt8]) [opening, 'a'.toUInt8]) ∧
    (fnmatch [backslash] [backslash, 'a'.toUInt8] 0 = true ∧
      ¬ Matches (elements 0 [backslash]) [backslash, 'a'.toUInt8]) ∧
    (fnmatch [opening, closing, dash, 'a'.toUInt8, closing] ['_'.toUInt8] 0 =
        false ∧
      Matches (elements 0 [opening, closing, dash, 'a'.toUInt8, closing])
        ['_'.toUInt8]) := by
  refine ⟨⟨?_, ?_⟩, ⟨?_, ?_⟩, ?_, ?_⟩
  · apply eq_false_of_ne_true
    unfold fnmatch
    rw [matchCore_iff, pieces_unclosed (by decide)]
    intro h
    obtain ⟨c, v, heq, _, hrest⟩ := matches_one_iff.mp h
    obtain ⟨rfl, rfl⟩ := List.cons.inj heq
    cases matches_nil_iff.mp hrest
  · unfold elements
    rw [pieces_unclosed (by decide), pieces_letter]
    exact .one (by decide) (.one (by decide) .nil)
  · unfold fnmatch
    rw [matchCore_iff, pieces_trailing]
    exact .one (by decide) (.star (u := ['a'.toUInt8]) (fun c _ => rfl) .nil)
  · unfold elements
    rw [pieces_trailing]
    intro h
    obtain ⟨c, v, heq, _, hrest⟩ := matches_one_iff.mp h
    obtain ⟨rfl, rfl⟩ := List.cons.inj heq
    cases matches_nil_iff.mp hrest
  · apply eq_false_of_ne_true
    unfold fnmatch
    rw [matchCore_iff, pieces_closed (r := (false, [closing, dash, 'a'.toUInt8],
      [])) (by decide), pieces_nil]
    intro h
    obtain ⟨c, v, heq, hc, _⟩ := matches_one_iff.mp h
    obtain ⟨rfl, rfl⟩ := List.cons.inj heq
    exact absurd hc (by decide)
  · unfold elements
    rw [pieces_closed (r := (false, [closing, dash, 'a'.toUInt8], []))
      (by decide), pieces_nil]
    exact .one (by decide) .nil

end LinuxRs.User.Fnmatch
