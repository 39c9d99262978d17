/-
Files, substitutions and searches of vi, and character boundaries.

# What is outside

What a file holds is text, and a regular expression matches at boundaries
and gives text: `TextFiles` and `RegexLib.Lawful`.

# Conditions

`:s` rewrites the line of the cursor and leaves the cursor alone, so it is
safe where the cursor is at a boundary of the new line too. A backward
search right after its pattern cuts the line behind the byte of the
cursor.
-/
import LinuxRs.Vi.CursorWords

namespace LinuxRs.Vi

variable {ρ : Type} {b : Buffer}

-- ======== what is outside

/-- In what is read, no continuation byte stands behind an ASCII one. -/
def TextFiles (io : Io) : Prop :=
  ∀ path text, io.read path = .ok text → Leads text

/-- Regular expressions match at boundaries, and a replacement gives
text. -/
structure RegexLib.Lawful (lib : RegexLib ρ) : Prop where
  findAt : ∀ {re s i m}, Leads s → i ≤ s.length →
    lib.findAt re s i = some m → boundary s m = true
  findIter : ∀ {re s m}, Leads s → m ∈ lib.findIter re s → boundary s m = true
  replaceAll : ∀ {re s t}, Leads s → Leads t → Leads (lib.replaceAll re s t)
  replaceOne : ∀ {re s t}, Leads s → Leads t → Leads (lib.replaceOne re s t)

-- ======== the files

theorem splitKeepEmpty_sound {s : Text} (h : Leads s) :
    0 < (splitKeepEmpty s).length ∧ ∀ k ∈ splitKeepEmpty s, Leads k := by
  have hblank : 0 < ([[]] : List Text).length
      ∧ ∀ k ∈ ([[]] : List Text), Leads k := by
    refine ⟨Nat.one_pos, fun k hk => ?_⟩
    rw [List.mem_singleton.mp hk]
    exact Leads.nil
  have hparts := splitNewlines_leads h
  unfold splitKeepEmpty
  simp only
  split
  · exact hblank
  · split
    · split
      · exact hblank
      · next hne =>
        refine ⟨List.length_pos_iff.mpr hne, fun k hk => ?_⟩
        exact hparts k (List.dropLast_subset _ hk)
    · exact ⟨splitNewlines_pos s, hparts⟩

theorem stripReturn_leads {s : Text} (h : Leads s) :
    Leads (stripReturn s) := by
  unfold stripReturn
  split
  · rw [List.dropLast_eq_take]
    exact h.take _
  · exact h

theorem textLines_leads {s : Text} (h : Leads s) :
    ∀ k ∈ textLines s, Leads k := by
  have hparts := splitNewlines_leads h
  intro k hk
  unfold textLines at hk
  simp only at hk
  split at hk
  · cases hk
  · next last hlast =>
    rcases List.mem_append.mp hk with hk | hk
    · obtain ⟨part, hpart, rfl⟩ := List.mem_map.mp hk
      exact stripReturn_leads (hparts part (List.dropLast_subset _ hpart))
    · split at hk
      · cases hk
      · rw [List.mem_singleton.mp hk]
        exact hparts last (List.mem_of_getLast? hlast)

theorem load_sound {io : Io} (hio : TextFiles io) {path : Text}
    (h : Buffer.load io path = .ok b) : Sound b := by
  unfold Buffer.load at h
  cases hread : io.read path with
  | ok text =>
    rw [hread] at h
    cases h
    obtain ⟨hpos, hleads⟩ := splitKeepEmpty_sound (hio path text hread)
    exact Sound.atStart hpos rfl hleads
  | error err =>
    rw [hread] at h
    simp only at h
    split at h
    · cases h
      refine Sound.atStart Nat.one_pos rfl fun k hk => ?_
      rw [List.mem_singleton.mp hk]
      exact Leads.nil
    · cases h

theorem empty_sound : Sound Buffer.empty := by
  refine Sound.atStart Nat.one_pos rfl fun k hk => ?_
  rw [List.mem_singleton.mp hk]
  exact Leads.nil

theorem readInto_sound {io : Io} (hio : TextFiles io) (h : Sound b)
    (arg : Text) : ∃ r, Ex.readInto io b arg = some r ∧ Sound r.2 := by
  unfold Ex.readInto
  split
  · exact ⟨_, rfl, h⟩
  · cases hread : io.read arg with
    | error err => exact ⟨_, rfl, h⟩
    | ok text =>
      obtain ⟨lines, hinsert, -, hleads, habove⟩ := insertLines_sound
        h.leads (textLines_leads (hio arg text hread)) h.row
      simp only
      rw [hinsert]
      refine ⟨_, rfl, Sound.of (l := b.line b.row) ?_ h.col hleads⟩
      rw [habove b.row (Nat.lt_succ_self _)]
      exact getElem?_line h.row

-- ======== substitution

theorem rewrite_leads {lib : RegexLib ρ} (hlib : lib.Lawful) {re : ρ}
    {s : Ex.Substitution} (hreplacement : Leads s.replacement) {cur : Text}
    (hcur : Leads cur) : Leads (Ex.rewrite lib re s cur) := by
  unfold Ex.rewrite
  split
  · exact hlib.replaceAll hcur hreplacement
  · exact hlib.replaceOne hcur hreplacement

/-- Row by row the lines are replaced. -/
theorem substituteRows_eq (lib : RegexLib ρ) (re : ρ) (s : Ex.Substitution)
    {rows : List Nat} (hrows : rows.Nodup) (n : Nat)
    (hin : ∀ r ∈ rows, r < b.lines.length) :
    ∃ count b', Ex.substituteRows lib re s rows (n, b) = some (count, b')
      ∧ b'.row = b.row ∧ b'.col = b.col
      ∧ b'.lines.length = b.lines.length ∧ ∀ r < b.lines.length, b'.line r
        = if r ∈ rows then Ex.rewrite lib re s (b.line r) else b.line r := by
  induction rows generalizing b n with
  | nil => exact ⟨n, b, rfl, rfl, rfl, rfl, fun _ _ => rfl⟩
  | cons row rest ih =>
    have hrow := hin row List.mem_cons_self
    have hrest := (List.nodup_cons.mp hrows).2
    have hnot := (List.nodup_cons.mp hrows).1
    have hsub := fun r hr => hin r (List.mem_cons_of_mem row hr)
    have hread := getElem?_line hrow
    unfold Ex.substituteRows
    rw [hread, Option.bind_eq_bind, Option.bind_some]
    by_cases hsame : Ex.rewrite lib re s (b.line row) = b.line row
    · obtain ⟨count, b', hrun, hr, hc, hlen, hlines⟩ :=
        ih (b := b) hrest n hsub
      refine ⟨count, b', ?_, hr, hc, hlen, fun r hlt => ?_⟩
      · exact (if_pos hsame).trans hrun
      · rw [hlines r hlt]
        by_cases heq : r = row
        · subst heq
          rw [if_neg hnot, if_pos List.mem_cons_self, hsame]
        · simp only [List.mem_cons, heq, false_or]
    · have hlenset : (b.lines.set row
          (Ex.rewrite lib re s (b.line row))).length = b.lines.length :=
        List.length_set
      obtain ⟨count, b', hrun, hr, hc, hlen, hlines⟩ :=
        ih (b := { b with
            lines := b.lines.set row (Ex.rewrite lib re s (b.line row))
            dirty := true }) hrest
          (n + Ex.substitutions lib re s (b.line row))
          (fun r hr => by
            rw [hlenset]
            exact hsub r hr)
      refine ⟨count, b', (if_neg hsame).trans hrun, hr, hc,
        hlen.trans hlenset, fun r hlt => ?_⟩
      rw [hlines r (by
        rw [hlenset]
        exact hlt)]
      by_cases heq : r = row
      · subst heq
        rw [if_neg hnot, if_pos List.mem_cons_self]
        exact line_of_getElem? (List.getElem?_set_self hlt)
      · have hother : ({ b with
            lines := b.lines.set row (Ex.rewrite lib re s (b.line row))
            dirty := true } : Buffer).line r = b.line r := by
          apply line_of_getElem?
          rw [List.getElem?_set_ne (Ne.symm heq)]
          exact getElem?_line hlt
        rw [hother]
        simp only [List.mem_cons, heq, false_or]

/-- A substitution is safe where the cursor is at a boundary of its line as
it is rewritten. -/
def substituteSafe (lib : RegexLib ρ) (typed : Text) (b : Buffer) : Bool :=
  (Ex.parseSubstitution typed).elim true fun s =>
    match lib.compile s.pattern with
    | .error _ => true
    | .ok re => boundary (Ex.rewrite lib re s (b.line b.row)) b.col

/-- A substitution that is safe leaves whole characters. -/
theorem substitute_sound {lib : RegexLib ρ} (hlib : lib.Lawful) (h : Sound b)
    {typed : Text} (hreplacement : ∀ s, Ex.parseSubstitution typed = some s →
      Leads s.replacement)
    (hsafe : substituteSafe lib typed b = true) :
    ∃ r, Ex.substitute lib typed b = some r ∧ Sound r.2 := by
  have hrow := h.row
  unfold substituteSafe at hsafe
  unfold Ex.substitute
  cases hparse : Ex.parseSubstitution typed with
  | none => exact ⟨_, rfl, h⟩
  | some s =>
    rw [hparse] at hsafe
    simp only [Option.elim_some] at hsafe ⊢
    cases hcompile : lib.compile s.pattern with
    | error err => exact ⟨_, rfl, h⟩
    | ok re =>
      rw [hcompile] at hsafe
      simp only at hsafe ⊢
      have hrows : (if s.globalLines then List.range b.lines.length
          else [b.row]).Nodup
          ∧ (∀ r ∈ (if s.globalLines then List.range b.lines.length
            else [b.row]), r < b.lines.length)
          ∧ b.row ∈ (if s.globalLines then List.range b.lines.length
            else [b.row]) := by
        split
        · exact ⟨List.nodup_range, fun r => List.mem_range.mp,
            List.mem_range.mpr hrow⟩
        · refine ⟨List.nodup_cons.mpr ⟨List.not_mem_nil, List.nodup_nil⟩,
            fun r hr => ?_, List.mem_singleton_self _⟩
          rw [List.mem_singleton.mp hr]
          exact hrow
      obtain ⟨hnodup, hin, hmem⟩ := hrows
      obtain ⟨count, b', hrun, hr, hc, hlen, hlines⟩ :=
        substituteRows_eq lib re s hnodup 0 hin
      rw [hrun]
      refine ⟨_, rfl, ?_, ?_, ?_⟩
      · show b'.row < b'.lines.length
        rw [hr, hlen]
        exact hrow
      · show boundary (b'.line b'.row) b'.col = true
        rw [hr, hc, hlines _ hrow, if_pos hmem]
        exact hsafe
      · intro k hk
        obtain ⟨r, hlt, hget⟩ := List.getElem_of_mem hk
        have hlt' : r < b.lines.length := hlen ▸ hlt
        have hk : b'.line r = k := by
          rw [← hget]
          exact line_of_getElem? (List.getElem?_eq_getElem hlt)
        rw [← hk, hlines r hlt']
        by_cases hr' : r ∈ (if s.globalLines then
            List.range b.lines.length else [b.row])
        · rw [if_pos hr']
          exact rewrite_leads hlib (hreplacement s hparse) (h.line r)
        · rw [if_neg hr']
          exact h.line r

-- ======== typed lines

theorem splitUnescaped_bytes {P : Byte → Prop} {sep : Byte} (hsep : P sep)
    (s cur : Text) (hs : ∀ x ∈ s, P x) (hcur : ∀ x ∈ cur, P x) :
    ∀ part ∈ Ex.splitUnescaped sep s cur, ∀ x ∈ part, P x := by
  have hsnoc : ∀ {t : Text} {y : Byte}, (∀ x ∈ t, P x) → P y →
      ∀ x ∈ t ++ [y], P x := by
    intro t y ht hy x hx
    rcases List.mem_append.mp hx with hx | hx
    · exact ht x hx
    · rw [List.mem_singleton.mp hx]
      exact hy
  have hnil : ∀ x ∈ ([] : Text), P x := nofun
  induction s, cur using Ex.splitUnescaped.induct sep with
  | case1 cur =>
    intro part hpart
    rw [List.mem_singleton.mp hpart]
    exact hcur
  | case2 cur =>
    intro part hpart
    rw [Ex.splitUnescaped, if_pos rfl] at hpart
    rcases List.mem_cons.mp hpart with rfl | hpart
    · exact hcur
    · rw [List.mem_singleton.mp hpart]
      exact hnil
  | case3 c cur hc =>
    intro part hpart
    rw [Ex.splitUnescaped, if_neg hc] at hpart
    rw [List.mem_singleton.mp hpart]
    exact hsnoc hcur (hs c List.mem_cons_self)
  | case4 c d rest cur hescape ih =>
    rw [Ex.splitUnescaped, if_pos hescape]
    exact ih (fun x hx => hs x (List.mem_cons_of_mem _
      (List.mem_cons_of_mem _ hx))) (hsnoc hcur hsep)
  | case5 d rest cur hescape ih =>
    intro part hpart
    rw [Ex.splitUnescaped, if_neg hescape, if_pos rfl] at hpart
    rcases List.mem_cons.mp hpart with rfl | hpart
    · exact hcur
    · exact ih (fun x hx => hs x (List.mem_cons_of_mem _ hx)) hnil part hpart
  | case6 c d rest cur hescape hc ih =>
    rw [Ex.splitUnescaped, if_neg hescape, if_neg hc]
    exact ih (fun x hx => hs x (List.mem_cons_of_mem _ hx))
      (hsnoc hcur (hs c List.mem_cons_self))

theorem replacement_leads {typed : Text} {s : Ex.Substitution}
    (htyped : ∀ x ∈ typed, isContinuation x = false)
    (h : Ex.parseSubstitution typed = some s) : Leads s.replacement := by
  have hdrop : ∀ n, ∀ x ∈ typed.drop n, isContinuation x = false :=
    fun n x hx => htyped x (List.mem_of_mem_drop hx)
  unfold Ex.parseSubstitution at h
  simp only at h
  split at h
  · next pattern replacement more hparts =>
    cases h
    apply Leads.of_all
    apply splitUnescaped_bytes (P := fun x => isContinuation x = false)
      (show isContinuation (chr '/') = false by decide) _ [] ?_ nofun
    · show replacement ∈ _
      rw [hparts]
      exact List.mem_cons_of_mem _ List.mem_cons_self
    · split
      · exact hdrop 3
      · exact hdrop 2
  · cases h

theorem mem_of_mem_trimSpaces {s : Text} {x : Byte}
    (h : x ∈ trimSpaces s) : x ∈ s := by
  have h := List.dropWhile_subset _ (List.mem_reverse.mp h)
  exact List.dropWhile_subset _ (List.mem_reverse.mp h)

-- ======== searches

section Searches

variable {lib : RegexLib ρ} {re : ρ}

theorem scanRows_hit {hit : Nat → Option Nat} {start r c : Nat}
    {rows : List Nat} (h : Search.scanRows hit start rows = some (r, c)) :
    r ∈ rows ∧ hit r = some c := by
  induction rows with
  | nil => cases h
  | cons row rest ih =>
    unfold Search.scanRows at h
    cases hhit : hit row with
    | some col =>
      rw [hhit] at h
      cases h
      exact ⟨List.mem_cons_self, hhit⟩
    | none =>
      rw [hhit] at h
      simp only at h
      split at h
      · cases h
      · obtain ⟨hmem, hr⟩ := ih h
        exact ⟨List.mem_cons_of_mem _ hmem, hr⟩

theorem forwardPos_sound (hlib : lib.Lawful) (h : Sound b)
    {includeCursor : Bool} {p : Nat × Nat}
    (hp : Search.forwardPos lib re b includeCursor = some p) :
    Sound (Motion.goTo b p) := by
  unfold Search.forwardPos at hp
  simp only at hp
  split at hp
  · next col hfind =>
    cases hp
    exact h.goTo h.row (hlib.findAt (h.line _) (Nat.min_le_right _ _) hfind)
  · obtain ⟨hmem, hhit⟩ := scanRows_hit hp
    obtain ⟨i, -, hi⟩ := List.mem_map.mp hmem
    refine h.goTo ?_ (hlib.findAt (h.line _) (Nat.zero_le _) hhit)
    rw [← hi]
    exact Nat.mod_lt _ (Nat.zero_lt_of_lt h.row)

def cutSafe (b : Buffer) (includeCursor : Bool) : Bool :=
  boundary (b.line b.row) (Search.cutoff b includeCursor)

/-- A search backwards that is safe finds the start of a character. -/
theorem backwardPos_sound (hlib : lib.Lawful) (h : Sound b)
    {includeCursor : Bool} (hsafe : cutSafe b includeCursor = true) :
    ∃ found, Search.backwardPos lib re b includeCursor = some found
      ∧ ∀ p, found = some p → Sound (Motion.goTo b p) := by
  have hrows : ∀ r c, Search.scanRows
      (fun r => Search.lastMatchIn lib re (b.line r)) b.row
      (Search.rowsAbove b.row b.lines.length) = some (r, c) →
      Sound (Motion.goTo b (r, c)) := by
    intro r c hscan
    obtain ⟨hmem, hhit⟩ := scanRows_hit hscan
    obtain ⟨i, -, hi⟩ := List.mem_map.mp hmem
    refine h.goTo ?_ (hlib.findIter (h.line _) (List.mem_of_getLast? hhit))
    rw [← hi]
    exact Nat.mod_lt _ (Nat.zero_lt_of_lt h.row)
  have hhere : ∃ here, Search.backwardHere lib re b
      (Search.cutoff b includeCursor) = some here
      ∧ ∀ c, here = some c → Sound (Motion.goTo b (b.row, c)) := by
    unfold Search.backwardHere
    split
    · have hcut : prefixTo (b.line b.row) (Search.cutoff b includeCursor)
          = some ((b.line b.row).take (Search.cutoff b includeCursor)) :=
        if_pos hsafe
      rw [hcut]
      refine ⟨_, rfl, fun c hc => h.goTo h.row ?_⟩
      apply boundary_of_take ?_ hsafe
      exact hlib.findIter ((h.line _).take _) (List.mem_of_getLast? hc)
    · refine ⟨none, rfl, fun c hc => ?_⟩
      cases hc
  obtain ⟨here, heq, hsound⟩ := hhere
  unfold Search.backwardPos
  rw [heq, Option.map_some]
  cases here with
  | some col =>
    refine ⟨_, rfl, fun p hp => ?_⟩
    cases hp
    exact hsound col rfl
  | none => exact ⟨_, rfl, fun p hp => hrows p.1 p.2 hp⟩

theorem find_sound (hlib : lib.Lawful) (h : Sound b) (s : Search ρ)
    {forward includeCursor : Bool}
    (hsafe : forward = false → cutSafe b includeCursor = true) :
    ∃ r, Search.find lib s b forward includeCursor = some r ∧ Sound r.2 := by
  unfold Search.find
  cases s.compiled with
  | none => exact ⟨_, rfl, h⟩
  | some re =>
    cases forward with
    | true =>
      refine ⟨_, rfl, ?_⟩
      cases hfound : Search.forwardPos lib re b includeCursor with
      | none => exact h
      | some p => exact forwardPos_sound hlib h hfound
    | false =>
      obtain ⟨found, heq, hsound⟩ :=
        backwardPos_sound hlib h (hsafe rfl)
      simp only [Bool.false_eq_true, if_false]
      rw [heq, Option.map_some]
      refine ⟨_, rfl, ?_⟩
      cases found with
      | none => exact h
      | some p => exact hsound p rfl

theorem findAgain_sound (hlib : lib.Lawful) (h : Sound b) (s : Search ρ)
    (forward : Bool) :
    ∃ r, Search.find lib s b forward false = some r ∧ Sound r.2 :=
  find_sound hlib h s fun _ => h.col

end Searches

end LinuxRs.Vi
