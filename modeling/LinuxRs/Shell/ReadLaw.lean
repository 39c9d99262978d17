/-
When `read` hands out the fields of a line.

# One separator a part

The builtin takes one character of `IFS` for each part, the fields of a line
take a whole delimiter. Once a delimiter of more than one character has been
taken the builtin is behind, and stays behind: it is among separators and
finds empty parts, and at the latest the rest of the line is not the same
(`handOut_behind`).

# The rest of the line

What is left for the last name is joined with blanks and has lost all
separators at its end.
-/
import LinuxRs.Shell.Read

namespace LinuxRs.Shell

variable {ifs : Text}

-- ======== delimiters

theorem isWhite_mem {c : Char} (h : isWhite ifs c = true) : c ∈ ifs := by
  unfold isWhite at h
  rw [Bool.and_eq_true, decide_eq_true_iff] at h
  exact h.1

theorem dropWhile_append_of_ne {p : Char → Bool} {s : Text}
    (h : s.dropWhile p ≠ []) (trail : Text) :
    (s ++ trail).dropWhile p = s.dropWhile p ++ trail := by
  induction s with
  | nil => exact absurd rfl h
  | cons c s ih =>
    rw [List.cons_append]
    cases hc : p c with
    | true =>
      rw [List.dropWhile_cons_of_pos hc] at h ⊢
      rw [List.dropWhile_cons_of_pos hc]
      exact ih h
    | false =>
      rw [List.dropWhile_cons_of_neg (by rw [hc]; exact Bool.false_ne_true),
        List.dropWhile_cons_of_neg (by rw [hc]; exact Bool.false_ne_true)]
      rfl

theorem dropWhile_isWhite_split {s : Text} (h : EndsPlain ifs s) :
    ∃ u t, s = u ++ t ∧ (∀ c ∈ u, c ∈ ifs) ∧ t ≠ [] ∧
      ∀ trail, (s ++ trail).dropWhile (isWhite ifs) = t ++ trail := by
  refine ⟨s.takeWhile (isWhite ifs), s.dropWhile (isWhite ifs),
    (List.takeWhile_append_dropWhile).symm, fun c hc => ?_, ?_, fun trail => ?_⟩
  · exact isWhite_mem (List.mem_takeWhile_imp hc)
  · intro hnil
    obtain ⟨c, hc, hplain⟩ := h
    have hwhite := List.dropWhile_eq_nil_iff.mp hnil c (List.mem_of_getLast? hc)
    exact hplain (isWhite_mem hwhite)
  · apply dropWhile_append_of_ne
    intro hnil
    obtain ⟨c, hc, hplain⟩ := h
    have hwhite := List.dropWhile_eq_nil_iff.mp hnil c (List.mem_of_getLast? hc)
    exact hplain (isWhite_mem hwhite)

/-- A separator and the white space around it are skipped. -/
theorem skipDelim_split {c : Char} {s : Text} (hc : c ∈ ifs)
    (h : EndsPlain ifs s) : ∃ u t, s = u ++ t ∧ (∀ d ∈ u, d ∈ ifs) ∧ t ≠ [] ∧
      ∀ trail, skipDelim ifs (c :: s ++ trail) = t ++ trail := by
  by_cases hwhite : isWhite ifs c = true
  · obtain ⟨u, t, rfl, hu, ht, hdrop⟩ := dropWhile_isWhite_split h
    have ht' : EndsPlain ifs t := h.of_append ht
    cases t with
    | nil => exact absurd rfl ht
    | cons d t =>
      by_cases hd : d ∈ ifs
      · have hend : EndsPlain ifs t := EndsPlain.of_seps (u := [d]) ht'
          fun e he => by
            rw [List.mem_singleton.mp he]
            exact hd
        obtain ⟨u', t', rfl, hu', hne, hdrop'⟩ := dropWhile_isWhite_split hend
        refine ⟨u ++ d :: u', t', by simp, fun e he => ?_, hne, fun trail => ?_⟩
        · rcases List.mem_append.mp he with he | he
          · exact hu e he
          · rcases List.mem_cons.mp he with rfl | he
            · exact hd
            · exact hu' e he
        · unfold skipDelim
          rw [List.cons_append, List.dropWhile_cons_of_pos hwhite, hdrop,
            List.cons_append]
          dsimp only
          rw [if_pos hd, hdrop']
      · refine ⟨u, d :: t, rfl, hu, ht, fun trail => ?_⟩
        unfold skipDelim
        rw [List.cons_append, List.dropWhile_cons_of_pos hwhite, hdrop,
          List.cons_append]
        dsimp only
        rw [if_neg hd]
  · obtain ⟨u, t, rfl, hu, ht, hdrop⟩ := dropWhile_isWhite_split h
    refine ⟨u, t, rfl, hu, ht, fun trail => ?_⟩
    unfold skipDelim
    rw [List.cons_append, List.dropWhile_cons_of_neg hwhite]
    dsimp only
    rw [if_pos hc, hdrop]

theorem rdropWhile_append_plain {s : Text} (h : EndsPlain ifs s) (trail : Text) :
    (s ++ trail).rdropWhile (isWhite ifs) =
      s ++ trail.rdropWhile (isWhite ifs) := by
  induction trail using List.reverseRecOn with
  | nil =>
    rw [List.append_nil, List.rdropWhile_nil, List.append_nil,
      List.rdropWhile_eq_self_iff]
    intro hne hwhite
    obtain ⟨c, hc, hplain⟩ := h
    rw [List.getLast?_eq_getLast_of_ne_nil hne] at hc
    rw [Option.some.inj hc] at hwhite
    exact hplain (isWhite_mem hwhite)
  | append_singleton trail c ih =>
    rw [← List.append_assoc, List.rdropWhile_concat, List.rdropWhile_concat]
    split
    next => exact ih
    next => exact List.append_assoc _ _ _

theorem takeWhile_append_seps {s trail : Text}
    (h : s.dropWhile (fun c => decide (c ∉ ifs)) = [])
    (htrail : ∀ c ∈ trail, c ∈ ifs) :
    (s ++ trail).takeWhile (fun c => decide (c ∉ ifs)) = s ∧
      (s ++ trail).dropWhile (fun c => decide (c ∉ ifs)) = trail := by
  have hall := List.dropWhile_eq_nil_iff.mp h
  rw [List.takeWhile_append_of_pos hall, List.dropWhile_append_of_pos hall]
  cases trail with
  | nil => simp
  | cons c trail =>
    have hc : ¬ (decide (c ∉ ifs) = true) := by
      simpa using htrail c List.mem_cons_self
    rw [List.takeWhile_cons_of_neg (p := fun c => decide (c ∉ ifs)) hc,
      List.dropWhile_cons_of_neg (p := fun c => decide (c ∉ ifs)) hc]
    exact ⟨List.append_nil s, rfl⟩

-- ======== the law

theorem map_eq_self_iff {f : Char → Char} {s : Text} :
    s.map f = s ↔ ∀ c ∈ s, f c = c := by
  induction s with
  | nil => simp
  | cons c s ih => simp [ih]

theorem handOut_succ_cons (n : Nat) (p : Text) (parts : List Text) :
    handOut (n + 1) (p :: parts) = (handOut n parts).map (p :: ·) := rfl

theorem map_cons_eq_some {p q : Text} {o : Option (List Text)}
    {rest : List Text} :
    o.map (p :: ·) = some (q :: rest) ↔ p = q ∧ o = some rest := by
  cases o with
  | none => simp
  | some l => simp

theorem handOut_behind (n : Nat) {u s trail : Text} (hu : u ≠ [])
    (hseps : ∀ c ∈ u, c ∈ ifs) (hs : EndsPlain ifs s)
    (htrail : ∀ c ∈ trail, c ∈ ifs) :
    handOut n ((u ++ s).splitOnP (isSep ifs)) ≠
      some (fields ifs n (s ++ trail)) := by
  induction n generalizing u s with
  | zero =>
    intro heq
    have hlast := (List.cons.inj (Option.some.inj heq)).1
    rw [intercalate_splitOnP, rdropWhile_append_plain hs] at hlast
    by_cases hnil : trail.rdropWhile (isWhite ifs) = []
    · rw [hnil, List.append_nil] at hlast
      have hlen := congrArg List.length hlast
      rw [List.length_map, List.length_append] at hlen
      have hpos := List.length_pos_iff.mpr hu
      omega
    · -- the last character is a separator on one side only
      have hends := congrArg List.getLast? hlast
      obtain ⟨c, hc, hplain⟩ := hs
      rw [List.getLast?_map, List.getLast?_append, hc,
        List.getLast?_append_of_ne_nil s hnil,
        List.getLast?_eq_getLast_of_ne_nil hnil] at hends
      have hchar : joined ifs c =
          (trail.rdropWhile (isWhite ifs)).getLast hnil :=
        Option.some.inj hends
      have hsep : isSep ifs c = false := decide_eq_false hplain
      unfold joined at hchar
      rw [hsep, if_neg Bool.false_ne_true] at hchar
      apply hplain
      rw [hchar]
      exact htrail _ ((List.rdropWhile_prefix (isWhite ifs) trail).subset
        (List.getLast_mem hnil))
  | succ n ih =>
    intro heq
    cases u with
    | nil => exact hu rfl
    | cons c u =>
      obtain ⟨hc, hseps⟩ := List.forall_mem_cons.mp hseps
      have hsep : isSep ifs c = true := decide_eq_true hc
      rw [List.cons_append, List.splitOnP_cons_eq_if_modifyHead, if_pos hsep,
        handOut_succ_cons] at heq
      obtain ⟨hfield, hrest⟩ := map_cons_eq_some.mp heq
      cases s with
      | nil => exact hs.ne_nil rfl
      | cons d s =>
        rw [List.cons_append] at hfield hrest
        have hd : d ∈ ifs := by
          by_cases hd : d ∈ ifs
          · exact hd
          · rw [List.takeWhile_cons_of_pos (p := fun c => decide (c ∉ ifs))
              (decide_eq_true hd)] at hfield
            cases hfield
        have hneg : ¬ (decide (d ∉ ifs) = true) := by simpa using hd
        rw [List.dropWhile_cons_of_neg (p := fun c => decide (c ∉ ifs))
          hneg] at hrest
        have hend : EndsPlain ifs s := EndsPlain.of_seps (u := [d]) hs
          fun e he => by
            rw [List.mem_singleton.mp he]
            exact hd
        obtain ⟨v, t, rfl, hv, ht, hskip⟩ := skipDelim_split hd hend
        rw [show d :: (v ++ t ++ trail) = d :: (v ++ t) ++ trail from rfl,
          hskip] at hrest
        refine ih (u := u ++ d :: v) (by simp) (fun e he => ?_)
          (hend.of_append ht) ?_
        · rcases List.mem_append.mp he with he | he
          · exact hseps e he
          · rcases List.mem_cons.mp he with rfl | he
            · exact hd
            · exact hv e he
        · simpa using hrest

/-- The parts are the fields: as many separators as names but the last stand
alone, and behind them every separator is a blank. The separators at the end
are white space, unless they end the field of the last name but one. -/
def Aligned (ifs : Text) : Nat → Text → Text → Prop
  | 0, s, trail =>
    (∀ c ∈ s, c ∈ ifs → c = ' ') ∧ ∀ c ∈ trail, isWhite ifs c = true
  | n + 1, s, trail =>
    match s.dropWhile (fun c => decide (c ∉ ifs)) with
    | [] => n = 0 ∧ ∀ c ∈ skipDelim ifs trail, isWhite ifs c = true
    | c :: rest => skipDelim ifs (c :: rest) = rest ∧ Aligned ifs n rest trail

/-- The parts are handed out as the fields are exactly if the two are
aligned. -/
theorem handOut_iff (n : Nat) {s trail : Text} (hs : EndsPlain ifs s)
    (htrail : ∀ c ∈ trail, c ∈ ifs) :
    handOut n (s.splitOnP (isSep ifs)) = some (fields ifs n (s ++ trail)) ↔
      Aligned ifs n s trail := by
  induction n generalizing s with
  | zero =>
    unfold handOut fields Aligned
    rw [intercalate_splitOnP, rdropWhile_append_plain hs, Option.some.injEq,
      List.cons.injEq]
    constructor
    · intro h
      have hlen := congrArg List.length h.1
      rw [List.length_map, List.length_append] at hlen
      have hnil : trail.rdropWhile (isWhite ifs) = [] :=
        List.eq_nil_of_length_eq_zero (by omega)
      refine ⟨fun c hc hsep => ?_, List.rdropWhile_eq_nil_iff.mp hnil⟩
      rw [hnil, List.append_nil] at h
      have hjoined := map_eq_self_iff.mp h.1 c hc
      unfold joined isSep at hjoined
      rw [if_pos (decide_eq_true hsep)] at hjoined
      exact hjoined.symm
    · intro h
      rw [List.rdropWhile_eq_nil_iff.mpr h.2, List.append_nil]
      refine ⟨map_eq_self_iff.mpr fun c hc => ?_, rfl⟩
      unfold joined
      split
      next hsep => exact (h.1 c hc (of_decide_eq_true hsep)).symm
      next => rfl
  | succ n ih =>
    cases hdrop : s.dropWhile (fun c => decide (c ∉ ifs)) with
    | nil =>
      obtain ⟨htake, hrest⟩ := takeWhile_append_seps hdrop htrail
      have hsingle : s.splitOnP (isSep ifs) = [s] := by
        apply List.splitOnP_eq_singleton
        intro c hc
        have hall := List.dropWhile_eq_nil_iff.mp hdrop c hc
        exact decide_eq_false (of_decide_eq_true hall)
      unfold fields Aligned
      rw [hsingle, handOut_succ_cons, htake, hrest, hdrop, map_cons_eq_some]
      cases n with
      | zero =>
        unfold handOut fields
        rw [Option.some.injEq, List.cons.injEq]
        constructor
        · intro h
          exact ⟨rfl, List.rdropWhile_eq_nil_iff.mp h.2.1.symm⟩
        · intro h
          exact ⟨rfl, (List.rdropWhile_eq_nil_iff.mpr h.2).symm, rfl⟩
      | succ n =>
        rw [handOut_nil]
        constructor
        · intro h
          cases h.2
        · intro h
          cases h.1
    | cons c rest =>
      have hsplit : s = s.takeWhile (fun c => decide (c ∉ ifs)) ++
          c :: rest := by
        rw [← hdrop, List.takeWhile_append_dropWhile]
      have hplain : ∀ d ∈ s.takeWhile (fun c => decide (c ∉ ifs)),
          isSep ifs d = false := fun d hd =>
        decide_eq_false (of_decide_eq_true
          (List.mem_takeWhile_imp (p := fun c => decide (c ∉ ifs)) hd))
      have hc : c ∈ ifs := by
        have hhead := List.head?_dropWhile_not (fun c => decide (c ∉ ifs)) s
        rw [hdrop] at hhead
        simpa using hhead
      have hparts : s.splitOnP (isSep ifs) =
          s.takeWhile (fun c => decide (c ∉ ifs)) ::
            rest.splitOnP (isSep ifs) := by
        conv_lhs => rw [hsplit]
        exact List.splitOnP_append_cons_of_forall_mem hplain c
          (decide_eq_true hc) rest
      have hrest : (s ++ trail).dropWhile (fun c => decide (c ∉ ifs)) =
          c :: rest ++ trail := by
        rw [← hdrop]
        apply dropWhile_append_of_ne
        rw [hdrop]
        exact List.cons_ne_nil _ _
      have htake : (s ++ trail).takeWhile (fun c => decide (c ∉ ifs)) =
          s.takeWhile fun c => decide (c ∉ ifs) := by
        have hboth : (s ++ trail).takeWhile (fun c => decide (c ∉ ifs)) ++
            (c :: rest ++ trail) = s.takeWhile (fun c => decide (c ∉ ifs)) ++
                (c :: rest ++ trail) := by
          rw [← hrest, List.takeWhile_append_dropWhile, hrest]
          conv_lhs => rw [hsplit]
          simp
        exact List.append_cancel_right hboth
      have hend : EndsPlain ifs rest := by
        rw [hsplit] at hs
        exact EndsPlain.of_seps (u := [c])
          (EndsPlain.of_append hs (List.cons_ne_nil _ _)) fun e he => by
            rw [List.mem_singleton.mp he]
            exact hc
      obtain ⟨u, t, rfl, hu, ht, hskip⟩ := skipDelim_split hc hend
      have hself := hskip []
      rw [List.append_nil, List.append_nil] at hself
      unfold fields Aligned
      rw [hparts, handOut_succ_cons, htake, hrest, hskip, hdrop,
        map_cons_eq_some]
      dsimp only
      rw [hself]
      by_cases hunit : u = []
      · rw [hunit, List.nil_append, ih (hend.of_append ht)]
        exact and_congr_left' ⟨fun _ => rfl, fun _ => rfl⟩
      · constructor
        · intro h
          exact absurd h.2 (handOut_behind n hunit hu
            (hend.of_append ht) htrail)
        · intro h
          have hlen := congrArg List.length h.1
          rw [List.length_append] at hlen
          have hpos := List.length_pos_iff.mpr hunit
          omega

-- ======== lines

theorem rdropWhile_append_all {p : Text → Bool} (parts empties : List Text)
    (h : ∀ q ∈ empties, p q = true) :
    (parts ++ empties).rdropWhile p = parts.rdropWhile p := by
  induction empties using List.reverseRecOn with
  | nil => rw [List.append_nil]
  | append_singleton empties q ih =>
    have hq := h q (List.mem_append_right _ (List.mem_singleton.mpr rfl))
    rw [← List.append_assoc, List.rdropWhile_concat_pos _ _ _ hq]
    exact ih fun r hr => h r (List.mem_append_left _ hr)

theorem mem_rtakeWhile_isSep {s : Text} {c : Char}
    (h : c ∈ s.rtakeWhile (isSep ifs)) : c ∈ ifs := by
  have hsep : isSep ifs c = true := List.mem_rtakeWhile_imp h
  exact of_decide_eq_true hsep

theorem rdropWhile_cons {p : Char → Bool} {c : Char} {s : Text}
    (hc : p c = false) : ∃ t, (c :: s).rdropWhile p = c :: t := by
  have hprefix := List.rdropWhile_prefix p (c :: s)
  cases ht : (c :: s).rdropWhile p with
  | nil =>
    have hall := List.rdropWhile_eq_nil_iff.mp ht c List.mem_cons_self
    rw [hc] at hall
    cases hall
  | cons d t =>
    rw [ht] at hprefix
    obtain ⟨u, hu⟩ := hprefix
    exact ⟨t, by rw [(List.cons.inj hu).1]⟩

theorem endsPlain_rdropWhile {s : Text} {c : Char} (hhead : s.head? = some c)
    (hc : c ∉ ifs) : EndsPlain ifs (s.rdropWhile (isSep ifs)) := by
  have hne : s.rdropWhile (isSep ifs) ≠ [] := by
    intro hnil
    have hsep := List.rdropWhile_eq_nil_iff.mp hnil c
      (List.mem_of_mem_head? (Option.mem_def.mpr hhead))
    exact hc (of_decide_eq_true hsep)
  refine ⟨_, List.getLast?_eq_getLast_of_ne_nil hne, fun hmem => ?_⟩
  exact List.rdropWhile_last_not (isSep ifs) s hne (decide_eq_true hmem)

/-- The parts of a line are what stands between separators, trimmed at both
ends. -/
theorem readParts_eq (ifs line : Text) : readParts ifs line =
      if line.dropWhile (isSep ifs) = [] then []
      else ((line.dropWhile (isSep ifs)).rdropWhile (isSep ifs)).splitOnP
        (isSep ifs) := by
  have hparts : (if ifs = [] then [line]
      else line.splitOnP fun c => decide (c ∈ ifs)) =
        line.splitOnP (isSep ifs) := by
    split
    next hifs =>
      symm
      apply List.splitOnP_eq_singleton
      intro c _
      rw [hifs]
      rfl
    next => rfl
  unfold readParts
  dsimp only
  rw [hparts, dropWhile_splitOnP]
  split
  next => rfl
  next hne =>
    cases ht : line.dropWhile (isSep ifs) with
    | nil => exact absurd ht hne
    | cons c t =>
      have hc : c ∉ ifs := by
        have hhead := List.head?_dropWhile_not (isSep ifs) line
        rw [ht] at hhead
        simpa [isSep] using hhead
      have hends := endsPlain_rdropWhile (s := c :: t) rfl hc
      have hsplit : c :: t = (c :: t).rdropWhile (isSep ifs) ++
          (c :: t).rtakeWhile (isSep ifs) :=
        List.rdropWhile_append_rtakeWhile.symm
      have hseps : ∀ d ∈ (c :: t).rtakeWhile (isSep ifs), d ∈ ifs :=
        fun d hd => mem_rtakeWhile_isSep hd
      conv_lhs => rw [hsplit]
      rw [splitOnP_append_seps _ _ hseps, rdropWhile_append_all,
        rdropWhile_splitOnP hends]
      intro q hq
      obtain ⟨d, _, rfl⟩ := List.mem_map.mp hq
      rfl

theorem readParts_cases (ifs line : Text) : readParts ifs line = [] ∨
      ∃ d more, d ∉ ifs ∧
        readParts ifs line = (d :: more).splitOnP (isSep ifs) := by
  rw [readParts_eq]
  split
  next => exact .inl rfl
  next hne =>
    cases ht : line.dropWhile (isSep ifs) with
    | nil => exact absurd ht hne
    | cons d t =>
      have hd : isSep ifs d = false := by
        have hhead := List.head?_dropWhile_not (isSep ifs) line
        rw [ht] at hhead
        simpa using hhead
      obtain ⟨more, hmore⟩ := rdropWhile_cons (s := t) hd
      exact .inr ⟨d, more, of_decide_eq_false hd, by rw [hmore]⟩

/-- The fields of a line are handed out one by one: the line starts with the
first of them, and its separators are aligned. -/
def FieldByField (ifs : Text) (n : Nat) (line : Text) : Prop :=
  let s := line.dropWhile (isWhite ifs)
  (s = [] ∧ n = 0) ∨ (∃ c, s.head? = some c ∧ c ∉ ifs) ∧
      Aligned ifs n (s.rdropWhile (isSep ifs)) (s.rtakeWhile (isSep ifs))

theorem handOut_separator_first (n : Nat) {c : Char} {s : Text}
    (hc : c ∈ ifs) (hwhite : isWhite ifs c = false) (line : Text) :
    handOut n (readParts ifs line) ≠ some (fields ifs n (c :: s)) := by
  obtain ⟨t, ht⟩ := rdropWhile_cons (s := s) hwhite
  have hfield : (c :: s).takeWhile (fun c => decide (c ∉ ifs)) = [] :=
    List.takeWhile_cons_of_neg (p := fun c => decide (c ∉ ifs))
      (by simpa using hc)
  rcases readParts_cases ifs line with hnil | hparts
  · rw [hnil]
    cases n with
    | zero =>
      unfold handOut fields
      rw [ht]
      exact fun h => by cases h
    | succ n => exact fun h => by cases h
  · obtain ⟨d, more, hd, hparts⟩ := hparts
    have hsep : isSep ifs d = false := decide_eq_false hd
    rw [hparts]
    cases n with
    | zero =>
      unfold handOut fields
      rw [ht, intercalate_splitOnP, List.map_cons]
      intro h
      have hchar := (List.cons.inj (List.cons.inj (Option.some.inj h)).1).1
      unfold joined at hchar
      rw [hsep, if_neg Bool.false_ne_true] at hchar
      rw [hchar] at hd
      exact hd hc
    | succ n =>
      rw [List.splitOnP_cons_eq_if_modifyHead, hsep, if_neg Bool.false_ne_true]
      cases hmore : more.splitOnP (isSep ifs) with
      | nil => exact absurd hmore (List.splitOnP_ne_nil _ _)
      | cons p ps =>
        intro h
        unfold fields at h
        rw [hfield] at h
        rw [List.modifyHead_cons, handOut_succ_cons, map_cons_eq_some] at h
        cases h.1

/-- A line is handed out right exactly if it goes field by field. -/
theorem handOut_readParts_iff (n : Nat) (line : Text) :
    handOut n (readParts ifs line) = some (readFields ifs n line) ↔
      FieldByField ifs n line := by
  unfold readFields FieldByField
  cases hs : line.dropWhile (isWhite ifs) with
  | nil =>
    have hnil : line.dropWhile (isSep ifs) = [] := by
      apply List.dropWhile_eq_nil_iff.mpr
      intro c hc
      exact decide_eq_true (isWhite_mem (List.dropWhile_eq_nil_iff.mp hs c hc))
    rw [readParts_eq, if_pos hnil]
    cases n with
    | zero =>
      refine ⟨fun _ => .inl ⟨rfl, rfl⟩, fun _ => ?_⟩
      rfl
    | succ n =>
      refine ⟨nofun, fun h => ?_⟩
      rcases h with h | h
      · cases h.2
      · obtain ⟨⟨c, hc, _⟩, _⟩ := h
        cases hc
  | cons c s =>
    by_cases hc : c ∈ ifs
    · have hwhite : isWhite ifs c = false := by
        have hhead := List.head?_dropWhile_not (isWhite ifs) line
        rw [hs] at hhead
        simpa using hhead
      constructor
      · intro h
        exact absurd h (handOut_separator_first n hc hwhite line)
      · intro h
        rcases h with h | h
        · cases h.1
        · obtain ⟨⟨d, hd, hplain⟩, _⟩ := h
          cases hd
          exact absurd hc hplain
    · have hdrop : line.dropWhile (isSep ifs) = c :: s := by
        have hsplit : line = line.takeWhile (isWhite ifs) ++ c :: s := by
          rw [← hs, List.takeWhile_append_dropWhile]
        have hseps : ∀ d ∈ line.takeWhile (isWhite ifs),
            isSep ifs d = true := fun d hd =>
          decide_eq_true (isWhite_mem (List.mem_takeWhile_imp hd))
        rw [hsplit, List.dropWhile_append_of_pos hseps]
        exact List.dropWhile_cons_of_neg (by simpa [isSep] using hc)
      rw [readParts_eq, hdrop, if_neg (List.cons_ne_nil _ _)]
      have hsplit : c :: s = (c :: s).rdropWhile (isSep ifs) ++
          (c :: s).rtakeWhile (isSep ifs) :=
        List.rdropWhile_append_rtakeWhile.symm
      have hseps : ∀ d ∈ (c :: s).rtakeWhile (isSep ifs), d ∈ ifs :=
        fun d hd => mem_rtakeWhile_isSep hd
      have hiff := handOut_iff n (endsPlain_rdropWhile (s := c :: s) rfl hc)
        hseps
      rw [← hsplit] at hiff
      rw [hiff]
      constructor
      · intro h
        exact .inr ⟨⟨c, rfl, hc⟩, h⟩
      · intro h
        rcases h with h | h
        · cases h.1
        · exact h.2

-- ======== the builtin

theorem length_fields (ifs : Text) (n : Nat) (s : Text) :
    (fields ifs n s).length = n + 1 := by
  induction n generalizing s with
  | zero => rfl
  | succ n ih =>
    unfold fields
    rw [List.length_cons, ih]

theorem length_handOut {n : Nat} {parts values : List Text}
    (h : handOut n parts = some values) : values.length = n + 1 := by
  induction n generalizing parts values with
  | zero =>
    rw [← Option.some.inj h]
    rfl
  | succ n ih =>
    cases parts with
    | nil => cases h
    | cons p parts =>
      obtain ⟨rest, hrest, rfl⟩ := Option.map_eq_some_iff.mp h
      rw [List.length_cons, ih hrest]

theorem map_snd_zip {names values : List Text}
    (h : values.length = names.length) : (names.zip values).map Prod.snd = values :=
  List.map_snd_zip (Nat.le_of_eq h)

theorem readLoop_iff (ifs line : Text) (name : Text) (names : List Text) :
    readLoop (readParts ifs line) 0 (name :: names) =
        some ((name :: names).zip (readFields ifs names.length line)) ↔
      FieldByField ifs names.length line := by
  rw [readLoop_eq, if_pos (Nat.zero_le _), List.drop_zero,
    ← handOut_readParts_iff]
  constructor
  · intro h
    obtain ⟨values, hvalues, hzip⟩ := Option.map_eq_some_iff.mp h
    have hmap := congrArg (List.map Prod.snd) hzip
    rw [map_snd_zip (length_handOut hvalues),
      map_snd_zip (length_fields ifs _ _)] at hmap
    rw [hvalues, hmap]
  · intro h
    rw [h]
    rfl

/-- A line is read field by field exactly if it starts with its first field,
its separators are aligned with its delimiters, and there is a part for every
name but the last; otherwise other values are set, or `read` panics. -/
theorem builtinRead_iff (name : Text) (names : List Text) {line : Text}
    (hline : line ≠ []) (st : State) :
    (∃ st', builtinRead (name :: names) line st = some (0, (name :: names).zip
          (readFields (readIfs st) names.length (chomp line)), st')) ↔
      FieldByField (readIfs st) names.length (chomp line) := by
  rw [← readLoop_iff (readIfs st) (chomp line) name names]
  unfold builtinRead
  rw [if_neg (List.cons_ne_nil _ _), if_neg hline]
  constructor
  · intro h
    obtain ⟨st', h⟩ := h
    obtain ⟨calls, hcalls, heq⟩ := Option.map_eq_some_iff.mp h
    rw [hcalls, (Prod.mk.inj (Prod.mk.inj heq).2).1]
  · intro h
    rw [h]
    exact ⟨_, rfl⟩

def withIfs (ifs : Text) : State :=
  (State.fromEnv [] [] []).set "IFS".toList ifs

/-- Two words and the rest of a line. -/
theorem builtinRead_words :
    ∃ st', builtinRead [['x'], ['y']] "a b c\n".toList (withIfs [' ']) =
      some (0, [(['x'], ['a']), (['y'], ['b', ' ', 'c'])], st') := by
  have hifs : readIfs (withIfs [' ']) = [' '] := by rfl
  have hfields : FieldByField (readIfs (withIfs [' '])) 1
      (chomp "a b c\n".toList) := by
    rw [hifs]
    refine .inr ⟨⟨'a', rfl, by decide⟩, rfl, ?_, ?_⟩
    · show ∀ c ∈ ['b', ' ', 'c'], c ∈ [' '] → c = ' '
      simp
    · intro c hc
      cases hc
  have h := Iff.mpr (builtinRead_iff ['x'] [['y']] (by decide) (withIfs [' ']))
    hfields
  exact h

/-- A line of one word for three names makes `read` panic; the separators of
the rest are lost; and two blanks make an empty field. -/
theorem builtinRead_misreads :
    (builtinRead [['x'], ['y'], ['z']] "a\n".toList (withIfs [' ']) = none ∧
      readFields [' '] 2 ['a'] = [['a'], [], []]) ∧
    (readLoop (readParts [':'] "a:b:c".toList) 0 [['x'], ['y']] =
        some [(['x'], ['a']), (['y'], ['b', ' ', 'c'])] ∧
      readFields [':'] 1 "a:b:c".toList = [['a'], ['b', ':', 'c']]) ∧
    (readLoop (readParts [' '] "a  b".toList) 0 [['x'], ['y'], ['z']] =
        some [(['x'], ['a']), (['y'], []), (['z'], ['b'])] ∧
      readFields [' '] 2 "a  b".toList = [['a'], ['b'], []]) := by
  refine ⟨⟨?_, ?_⟩, ⟨?_, ?_⟩, ?_, ?_⟩
  · rfl
  · decide
  · decide
  · decide
  · decide
  · decide

end LinuxRs.Shell
