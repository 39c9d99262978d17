/-
What `Path::components` yields and what it is documented to yield.

The documentation keeps a `.` only at the very front of a path without a
root. The iterator keeps the first `.` of such a path wherever it stands,
so the two agree exactly on paths with a root, with a `.` in front, or
without any. Building a path from its components loses nothing in either
case.
-/
import LinuxRs.User.Path

namespace LinuxRs.User

variable {path other name : List Char} {stay : Bool} {pieces : List (List Char)}

-- ======== the document

/-- The documented sequence: pieces `.` are dropped except in front of a
path without a root. -/
def normalized (path : List Char) : List Component :=
  if hasRoot path then
    .rootDir :: ((Fs.components path).filter (· ≠ Fs.dot)).map .ofName
  else
    match Fs.components path with
    | [] => []
    | name :: rest =>
      .ofName name :: (rest.filter (· ≠ Fs.dot)).map .ofName

/-- `components` as documented: the normalised sequence, and a path that is
built from it has it again. -/
structure Documented (path : List Char) : Prop where
  sequence : pathComponents path = normalized path
  rebuilt : pathComponents (collectPath (pathComponents path)) =
    pathComponents path

/-- A path with a root, with a `.` in front, or without any. -/
def LeadingDot (path : List Char) : Prop :=
  hasRoot path = true ∨ (Fs.components path).head? = some Fs.dot ∨
    Fs.dot ∉ Fs.components path

-- ======== keeping

theorem keepDots_false (pieces : List (List Char)) :
    keepDots false pieces = pieces.filter (· ≠ Fs.dot) := by
  induction pieces with
  | nil => rfl
  | cons name rest ih =>
    unfold keepDots
    by_cases hdot : name = Fs.dot
    · simp [hdot, ih]
    · simp [hdot, ih]

theorem keepDots_of_not_mem (h : Fs.dot ∉ pieces) :
    keepDots stay pieces = pieces := by
  induction pieces with
  | nil => rfl
  | cons name rest ih =>
    have hdot : name ≠ Fs.dot := fun heq => h (heq ▸ List.mem_cons_self)
    unfold keepDots
    rw [if_neg hdot, ih fun hmem => h (List.mem_cons_of_mem name hmem)]

theorem keepDots_idem (stay : Bool) (pieces : List (List Char)) :
    keepDots stay (keepDots stay pieces) = keepDots stay pieces := by
  induction pieces generalizing stay with
  | nil => rfl
  | cons name rest ih =>
    conv_lhs => rw [keepDots]
    conv_rhs => rw [keepDots]
    by_cases hdot : name = Fs.dot
    · cases stay with
      | false =>
        simp only [hdot, if_true, Bool.false_eq_true, if_false]
        exact ih false
      | true =>
        simp only [hdot, if_true]
        rw [keepDots, if_pos rfl, if_pos rfl, ih false]
    · rw [if_neg hdot, keepDots, if_neg hdot, ih stay]

theorem keepDots_subset (h : name ∈ keepDots stay pieces) : name ∈ pieces := by
  induction pieces generalizing stay with
  | nil => exact h
  | cons other rest ih =>
    unfold keepDots at h
    split at h
    next =>
      split at h
      next =>
        rcases List.mem_cons.mp h with rfl | h
        · exact List.mem_cons_self
        · exact List.mem_cons_of_mem _ (ih h)
      next => exact List.mem_cons_of_mem _ (ih h)
    next =>
      rcases List.mem_cons.mp h with rfl | h
      · exact List.mem_cons_self
      · exact List.mem_cons_of_mem _ (ih h)

theorem keepDots_true_iff (name : List Char) (rest : List (List Char)) :
    keepDots true (name :: rest) = name :: rest.filter (· ≠ Fs.dot) ↔
      name = Fs.dot ∨ Fs.dot ∉ name :: rest := by
  unfold keepDots
  by_cases hdot : name = Fs.dot
  · simp [hdot, keepDots_false]
  · rw [if_neg hdot]
    constructor
    · intro heq
      refine .inr fun hmem => ?_
      have hkept : keepDots true rest = rest.filter (· ≠ Fs.dot) :=
        (List.cons.inj heq).2
      have hrest : Fs.dot ∈ rest := by
        rcases List.mem_cons.mp hmem with h | h
        · exact absurd h.symm hdot
        · exact h
      have hstays : ∀ l : List (List Char), Fs.dot ∈ l → Fs.dot ∈ keepDots true l := by
        intro l hl
        induction l with
        | nil => cases hl
        | cons other l ih =>
          unfold keepDots
          by_cases ho : other = Fs.dot
          · rw [if_pos ho, if_pos rfl, ho]
            exact List.mem_cons_self
          · rw [if_neg ho]
            rcases List.mem_cons.mp hl with h | h
            · exact absurd h.symm ho
            · exact List.mem_cons_of_mem _ (ih h)
      have hin := hstays rest hrest
      rw [hkept] at hin
      simp at hin
    · rintro (h | h)
      · exact absurd h hdot
      · have hrest : Fs.dot ∉ rest := fun hmem => h (List.mem_cons_of_mem _ hmem)
        have hfilter : rest.filter (· ≠ Fs.dot) = rest := by
          apply List.filter_eq_self.mpr
          intro x hx
          exact decide_eq_true fun heq => hrest (heq ▸ hx)
        rw [keepDots_of_not_mem hrest, hfilter]

-- ======== rebuilding

def IsPiece (name : List Char) : Prop := name ≠ [] ∧ '/' ∉ name

theorem isPiece_of_mem (h : name ∈ Fs.components path) : IsPiece name := by
  obtain ⟨n, hn⟩ : ∃ n, path.length ≤ n := ⟨_, Nat.le_refl _⟩
  induction n generalizing path with
  | zero =>
    obtain rfl := List.length_eq_zero_iff.mp (Nat.le_zero.mp hn)
    cases h
  | succ n ih =>
    by_cases hnil : path = []
    · subst hnil
      cases h
    · have hlt := length_skip_lt hnil
      rw [components_head] at h
      rcases List.mem_append.mp h with h | h
      · split at h
        next => cases h
        next hne =>
          obtain rfl := List.mem_singleton.mp h
          refine ⟨hne, fun hmem => ?_⟩
          have hsep := List.mem_takeWhile_imp hmem
          simp at hsep
      · exact ih h (by omega)

theorem IsPiece.hasRoot (h : IsPiece name) : hasRoot name = false := by
  cases name with
  | nil => exact absurd rfl h.1
  | cons c rest =>
    apply decide_eq_false
    intro heq
    cases heq
    exact h.2 List.mem_cons_self

theorem hasRoot_append {a : List Char} (h : a ≠ []) (b : List Char) :
    hasRoot (a ++ b) = hasRoot a := by
  cases a with
  | nil => exact absurd rfl h
  | cons c rest => rfl

theorem push_piece (buf : List Char) (h : IsPiece name) :
    Fs.components (push buf name) = Fs.components buf ++ [name] ∧
      hasRoot (push buf name) = hasRoot buf := by
  have hone : Fs.components name = [name] :=
    Fs.components_of_not_mem h.2 h.1
  unfold push
  rw [h.hasRoot, if_neg Bool.false_ne_true]
  by_cases hbuf : buf = []
  · subst hbuf
    rw [if_neg fun hn => hn.1 rfl]
    exact ⟨hone, h.hasRoot⟩
  · by_cases hlast : buf.getLast? = some '/'
    · rw [if_neg fun hn => hn.2 hlast]
      obtain ⟨front, rfl⟩ := List.getLast?_eq_some_iff.mp hlast
      refine ⟨?_, hasRoot_append hbuf name⟩
      rw [Fs.components_append, List.append_assoc, List.singleton_append,
        Fs.components_append, hone]
      exact congrArg (· ++ [name]) (List.append_nil _).symm
    · rw [if_pos ⟨hbuf, hlast⟩, Fs.components_append, hone]
      exact ⟨rfl, hasRoot_append hbuf _⟩

theorem foldl_push (pieces : List (List Char)) (buf : List Char)
    (h : ∀ name ∈ pieces, IsPiece name) :
    Fs.components ((pieces.map Component.ofName).foldl
        (fun buf x => push buf x.asStr) buf) = Fs.components buf ++ pieces ∧
      hasRoot ((pieces.map Component.ofName).foldl
        (fun buf x => push buf x.asStr) buf) = hasRoot buf := by
  induction pieces generalizing buf with
  | nil => exact ⟨(List.append_nil _).symm, rfl⟩
  | cons name rest ih =>
    obtain ⟨hname, hrest⟩ := List.forall_mem_cons.mp h
    obtain ⟨hpieces, hroot⟩ := push_piece buf hname
    obtain ⟨hpieces', hroot'⟩ := ih (push buf name) hrest
    rw [List.map_cons, List.foldl_cons, asStr_ofName]
    refine ⟨?_, hroot'.trans hroot⟩
    rw [hpieces', hpieces, List.append_assoc, List.singleton_append]

/-- Components that are put together again give the same components. -/
theorem pathComponents_collect (path : List Char) :
    pathComponents (collectPath (pathComponents path)) = pathComponents path := by
  have hkept : ∀ stay, ∀ name ∈ keepDots stay (Fs.components path), IsPiece name :=
    fun stay name hname => isPiece_of_mem (keepDots_subset hname)
  have hpieces := pathComponents_eq path
  cases hroot : hasRoot path with
  | true =>
    rw [hroot, if_pos rfl] at hpieces
    obtain ⟨hcomp, hr⟩ := foldl_push (keepDots false (Fs.components path)) ['/']
      (hkept false)
    have hbuf : collectPath (pathComponents path) =
        ((keepDots false (Fs.components path)).map Component.ofName).foldl
          (fun buf x => push buf x.asStr) ['/'] := by
      rw [hpieces]
      rfl
    rw [pathComponents_eq, hbuf, hr, hcomp, hpieces]
    show Component.rootDir :: (keepDots false
      (keepDots false (Fs.components path))).map .ofName = _
    rw [keepDots_idem]
  | false =>
    rw [hroot, if_neg Bool.false_ne_true] at hpieces
    obtain ⟨hcomp, hr⟩ := foldl_push (keepDots true (Fs.components path)) []
      (hkept true)
    have hbuf : collectPath (pathComponents path) =
        ((keepDots true (Fs.components path)).map Component.ofName).foldl
          (fun buf x => push buf x.asStr) [] := by
      rw [hpieces]
      rfl
    rw [pathComponents_eq, hbuf, hr, hcomp, hpieces]
    show (keepDots true (keepDots true (Fs.components path))).map
      Component.ofName = _
    rw [keepDots_idem]

-- ======== the law

/-- The components are the normalised ones exactly if no dot stands behind
another name. -/
theorem sequence_iff (path : List Char) :
    pathComponents path = normalized path ↔ LeadingDot path := by
  have hinj := List.map_injective_iff.mpr ofName_injective
  rw [pathComponents_eq]
  unfold normalized LeadingDot
  cases hasRoot path with
  | true =>
    rw [if_pos rfl, if_pos rfl, keepDots_false]
    exact iff_of_true rfl (.inl rfl)
  | false =>
    rw [if_neg Bool.false_ne_true, if_neg Bool.false_ne_true]
    cases hpieces : Fs.components path with
    | nil => exact iff_of_true rfl (.inr (.inr List.not_mem_nil))
    | cons name rest =>
      have hmap : Component.ofName name ::
          (rest.filter (· ≠ Fs.dot)).map Component.ofName
            = (name :: rest.filter (· ≠ Fs.dot)).map .ofName := rfl
      dsimp only
      rw [hmap, hinj.eq_iff, keepDots_true_iff]
      constructor
      · rintro (h | h)
        · exact .inr (.inl (congrArg some h))
        · exact .inr (.inr h)
      · rintro (h | h | h)
        · cases h
        · exact .inl (Option.some.inj h)
        · exact .inr h

/-- Two paths have the documented components, and compare equal exactly when
these are equal, if and only if neither has a `.` behind a piece without a
root or a `.` in front. -/
theorem components_documented_iff (path other : List Char) :
    (Documented path ∧ Documented other ∧
        (pathEq path other = true ↔ normalized path = normalized other)) ↔
      LeadingDot path ∧ LeadingDot other := by
  constructor
  · intro h
    obtain ⟨hpath, hother, -⟩ := h
    exact ⟨(sequence_iff path).mp hpath.sequence,
      (sequence_iff other).mp hother.sequence⟩
  · intro h
    obtain ⟨hpath, hother⟩ := h
    have hseq := (sequence_iff path).mpr hpath
    have hseq' := (sequence_iff other).mpr hother
    refine ⟨⟨hseq, pathComponents_collect path⟩,
      ⟨hseq', pathComponents_collect other⟩, ?_⟩
    unfold pathEq
    rw [decide_eq_true_iff, hseq, hseq']

/-- `a/./b` has a component `.` in the middle and is not equal to `a/b`. -/
theorem interior_dot_kept : pathComponents "a/./b".toList =
        [.normal ['a'], .curDir, .normal ['b']] ∧
      normalized "a/./b".toList = [.normal ['a'], .normal ['b']] ∧
      pathEq "a/./b".toList "a/b".toList = false := by
  decide

end LinuxRs.User
