/-
The `read` builtin (`builtin_read` in user_program/src/bin/sh/builtin.rs).

# The builtin

The line is cut at every character of `IFS`, the empty parts at both ends go,
and the parts are handed out one to a name; the last name gets the others
with blanks between them. `drain` panics behind the end of the parts.

# The fields of a line

A field ends at a delimiter: a character of `IFS` with the white space of
`IFS` around it, or such white space alone. What is left after the fields of
the other names, as it stands and without white space at its end, is for the
last name.
-/
import LinuxRs.Shell.State
import Mathlib.Data.List.DropRight

namespace LinuxRs.Shell

-- ======== builtin_read

def readParts (ifs line : Text) : List Text :=
  let parts :=
    if ifs = [] then [line] else line.splitOnP fun c => decide (c ∈ ifs)
  (parts.dropWhile (·.isEmpty)).rdropWhile (·.isEmpty)

/-- The names and values that are set from some index on; `none` is the panic
of `drain`. -/
def readLoop (parts : List Text) : Nat → List Text →
    Option (List (Text × Text))
  | _, [] => some []
  | i, name :: names =>
    if names = [] then
      if i ≤ parts.length then
        some [(name, [' '].intercalate (parts.drop i))]
      else none
    else
      (readLoop parts (i + 1) names).map ((name, parts[i]?.getD []) :: ·)

def readIfs (st : State) : Text :=
  (st.get "IFS".toList).getD " \t".toList

def chomp (line : Text) : Text :=
  if line.getLast? = some '\n' then line.dropLast else line

/-- `builtin_read` on the line that is read, its end included; nothing is read
at the end of the input. The calls of `set` come with the state. -/
def builtinRead (args : List Text) (line : Text) (st : State) :
    Option (Int × List (Text × Text) × State) :=
  if args = [] then some (0, [], st)
  else if line = [] then some (1, [], st)
  else
    (readLoop (readParts (readIfs st) (chomp line)) 0 args).map fun calls =>
      (0, calls, calls.foldl (fun st call => st.set call.1 call.2) st)

-- ======== fields

def isWhite (ifs : Text) (c : Char) : Bool :=
  decide (c ∈ ifs) && (c == ' ' || c == '\t' || c == '\n')

def skipDelim (ifs : Text) (s : Text) : Text :=
  match s.dropWhile (isWhite ifs) with
  | [] => []
  | c :: rest =>
    if c ∈ ifs then rest.dropWhile (isWhite ifs) else c :: rest

def fields (ifs : Text) : Nat → Text → List Text
  | 0, s => [s.rdropWhile (isWhite ifs)]
  | n + 1, s =>
    s.takeWhile (fun c => decide (c ∉ ifs)) ::
      fields ifs n (skipDelim ifs (s.dropWhile fun c => decide (c ∉ ifs)))

def readFields (ifs : Text) (n : Nat) (line : Text) : List Text :=
  fields ifs n (line.dropWhile (isWhite ifs))

-- ======== parts

variable {ifs : Text}

/-- The separators, as `split` is given them. -/
def isSep (ifs : Text) (c : Char) : Bool := decide (c ∈ ifs)

def EndsPlain (ifs s : Text) : Prop := ∃ c, s.getLast? = some c ∧ c ∉ ifs

theorem EndsPlain.ne_nil {s : Text} (h : EndsPlain ifs s) : s ≠ [] := by
  obtain ⟨c, hc, _⟩ := h
  intro hnil
  rw [hnil] at hc
  cases hc

theorem EndsPlain.of_append {u s : Text} (h : EndsPlain ifs (u ++ s))
    (hs : s ≠ []) : EndsPlain ifs s := by
  obtain ⟨c, hc, hplain⟩ := h
  rw [List.getLast?_append_of_ne_nil u hs] at hc
  exact ⟨c, hc, hplain⟩

theorem EndsPlain.of_seps {u s : Text} (h : EndsPlain ifs (u ++ s))
    (hu : ∀ c ∈ u, c ∈ ifs) : EndsPlain ifs s := by
  apply h.of_append
  intro hnil
  rw [hnil, List.append_nil] at h
  obtain ⟨c, hc, hplain⟩ := h
  exact hplain (hu c (List.mem_of_getLast? hc))

theorem splitOnP_append_seps (s trail : Text) (h : ∀ c ∈ trail, c ∈ ifs) :
    (s ++ trail).splitOnP (isSep ifs) =
      s.splitOnP (isSep ifs) ++ trail.map fun _ => [] := by
  induction s with
  | nil =>
    induction trail with
    | nil => rfl
    | cons c trail ih =>
      obtain ⟨hc, htrail⟩ := List.forall_mem_cons.mp h
      have hsep : isSep ifs c = true := decide_eq_true hc
      rw [List.nil_append] at ih ⊢
      rw [List.splitOnP_cons_eq_if_modifyHead, if_pos hsep, ih htrail]
      rfl
  | cons c s ih =>
    rw [List.cons_append, List.splitOnP_cons_eq_if_modifyHead,
      List.splitOnP_cons_eq_if_modifyHead, ih]
    split
    next => rfl
    next =>
      cases hparts : s.splitOnP (isSep ifs) with
      | nil => exact absurd hparts (List.splitOnP_ne_nil _ _)
      | cons p ps => rfl

theorem dropWhile_splitOnP (s : Text) :
    (s.splitOnP (isSep ifs)).dropWhile (·.isEmpty) =
      if s.dropWhile (isSep ifs) = [] then []
      else (s.dropWhile (isSep ifs)).splitOnP (isSep ifs) := by
  induction s with
  | nil => rfl
  | cons c s ih =>
    rw [List.splitOnP_cons_eq_if_modifyHead]
    cases hc : isSep ifs c with
    | true =>
      rw [if_pos rfl, List.dropWhile_cons_of_pos hc]
      exact ih
    | false =>
      rw [if_neg Bool.false_ne_true,
        List.dropWhile_cons_of_neg (by rw [hc]; exact Bool.false_ne_true),
        if_neg (List.cons_ne_nil _ _), List.splitOnP_cons_eq_if_modifyHead, hc,
        if_neg Bool.false_ne_true]
      cases hparts : s.splitOnP (isSep ifs) with
      | nil => exact absurd hparts (List.splitOnP_ne_nil _ _)
      | cons p ps => rfl

theorem rdropWhile_splitOnP {s : Text} (h : EndsPlain ifs s) :
    (s.splitOnP (isSep ifs)).rdropWhile (·.isEmpty) =
      s.splitOnP (isSep ifs) := by
  rw [List.rdropWhile_eq_self_iff]
  intro hne
  suffices hlast : ∃ p, (s.splitOnP (isSep ifs)).getLast? = some p ∧ p ≠ [] by
    obtain ⟨p, hp, hpne⟩ := hlast
    rw [List.getLast?_eq_getLast_of_ne_nil hne] at hp
    rw [Option.some.inj hp]
    simpa using hpne
  clear hne
  induction s with
  | nil => exact absurd rfl h.ne_nil
  | cons c s ih =>
    rw [List.splitOnP_cons_eq_if_modifyHead]
    by_cases hs : s = []
    · rw [hs] at h ⊢
      obtain ⟨d, hd, hplain⟩ := h
      cases hd
      rw [if_neg (by simpa [isSep] using hplain)]
      exact ⟨[c], rfl, List.cons_ne_nil _ _⟩
    · obtain ⟨p, hp, hne⟩ := ih (EndsPlain.of_append (u := [c]) h hs)
      cases hparts : s.splitOnP (isSep ifs) with
      | nil => exact absurd hparts (List.splitOnP_ne_nil _ _)
      | cons q ps =>
        rw [hparts] at hp
        split
        next => exact ⟨p, by rw [List.getLast?_cons_cons, hp], hne⟩
        next =>
          cases ps with
          | nil => exact ⟨c :: q, rfl, List.cons_ne_nil _ _⟩
          | cons r ps =>
            refine ⟨p, ?_, hne⟩
            rw [List.modifyHead_cons, List.getLast?_cons_cons]
            rw [List.getLast?_cons_cons] at hp
            exact hp

def joined (ifs : Text) (c : Char) : Char := if isSep ifs c then ' ' else c

theorem intercalate_splitOnP (s : Text) :
    [' '].intercalate (s.splitOnP (isSep ifs)) = s.map (joined ifs) := by
  induction s with
  | nil => rfl
  | cons c s ih =>
    rw [List.splitOnP_cons_eq_if_modifyHead]
    cases hparts : s.splitOnP (isSep ifs) with
    | nil => exact absurd hparts (List.splitOnP_ne_nil _ _)
    | cons p ps =>
      rw [hparts] at ih
      rw [List.map_cons, ← ih]
      unfold joined
      split
      next => simp [List.intercalate]
      next =>
        cases ps with
        | nil => simp [List.intercalate]
        | cons q ps => simp [List.intercalate]

def handOut : Nat → List Text → Option (List Text)
  | 0, parts => some [[' '].intercalate parts]
  | _ + 1, [] => none
  | n + 1, p :: parts => (handOut n parts).map (p :: ·)

theorem handOut_nil {n : Nat} : handOut (n + 1) [] = none := rfl

theorem readLoop_eq (parts : List Text) (i : Nat) (name : Text)
    (names : List Text) : readLoop parts i (name :: names) =
      if i ≤ parts.length then
        (handOut names.length (parts.drop i)).map (name :: names).zip
      else none := by
  induction names generalizing i name with
  | nil =>
    unfold readLoop
    rw [if_pos rfl]
    rfl
  | cons next names ih =>
    unfold readLoop
    rw [if_neg (List.cons_ne_nil _ _), ih]
    by_cases hi : i + 1 ≤ parts.length
    · rw [if_pos hi, if_pos (Nat.le_of_succ_le hi), List.drop_eq_getElem_cons hi,
        List.getElem?_eq_getElem hi]
      simp only [List.length_cons, handOut, Option.map_map]
      rfl
    · rw [if_neg (by omega), Option.map_none]
      split
      next hle =>
        rw [List.drop_eq_nil_of_le (by omega), List.length_cons,
          handOut_nil, Option.map_none]
      next => rfl

end LinuxRs.Shell
