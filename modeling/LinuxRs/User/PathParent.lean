/-
`Path::parent`, `Path::file_name` and `PathBuf::pop`.

# What they do

A path with a separator in front of its last piece loses that piece, unless
it is `..` (`parent_cases`). The other three cases are where the source and
its documentation part: the root is its own parent, and a path of one piece
has none.

# Going up

The parent of a path without a root has fewer pieces, so going up comes to
an end. With a root it ends at a piece `..` or not at all.
-/
import LinuxRs.User.PathParts

namespace LinuxRs.User

variable {path p name : List Char}

-- ======== trimming

theorem trimReversed_cases (l : List Char) :
    ∃ seps, (∀ c ∈ seps, c = '/') ∧ l = seps ++ trimReversed l ∧
      (l = [] ∨ trimReversed l = ['/'] ∨
        ∃ c rest, c ≠ '/' ∧ trimReversed l = c :: rest) := by
  fun_induction trimReversed l with
  | case1 d rest ih =>
    obtain ⟨seps, hseps, heq, hcases⟩ := ih
    refine ⟨'/' :: seps, List.forall_mem_cons.mpr ⟨rfl, hseps⟩, ?_, .inr ?_⟩
    · rw [List.cons_append, ← heq]
    · rcases hcases with h | h
      · cases h
      · exact h
  | case2 c d rest hc =>
    exact ⟨[], nofun, rfl, .inr (.inr ⟨c, _, hc, rfl⟩)⟩
  | case3 l hshort =>
    refine ⟨[], nofun, rfl, ?_⟩
    cases l with
    | nil => exact .inl rfl
    | cons c rest =>
      cases rest with
      | nil =>
        by_cases hc : c = '/'
        · exact .inr (.inl (by rw [hc]))
        · exact .inr (.inr ⟨c, [], hc, rfl⟩)
      | cons d rest => exact absurd rfl (hshort c d rest)

theorem components_append_seps {seps : List Char} (h : ∀ c ∈ seps, c = '/')
    (s : List Char) : Fs.components (s ++ seps) = Fs.components s := by
  have hseps : ∀ l : List Char, (∀ c ∈ l, c = '/') → Fs.components l = [] := by
    intro l hl
    induction l with
    | nil => rfl
    | cons c l ih =>
      obtain ⟨rfl, hrest⟩ := List.forall_mem_cons.mp hl
      rw [components_sep_cons, ih hrest]
  cases seps with
  | nil => rw [List.append_nil]
  | cons c seps =>
    obtain ⟨rfl, hrest⟩ := List.forall_mem_cons.mp h
    rw [Fs.components_append, hseps seps hrest, List.append_nil]

/-- A path is its trimmed part and separators. -/
theorem trim_cases (path : List Char) :
    path = [] ∨ (∃ seps, path = '/' :: seps ∧ (∀ c ∈ seps, c = '/') ∧
        trimTrailingSeps path = ['/']) ∨
      ∃ seps, path = trimTrailingSeps path ++ seps ∧ (∀ c ∈ seps, c = '/') ∧
        trimTrailingSeps path ≠ [] ∧
        Fs.hasTrailingSlash (trimTrailingSeps path) = false := by
  obtain ⟨seps, hseps, heq, hcases⟩ := trimReversed_cases path.reverse
  have hpath : path = trimTrailingSeps path ++ seps.reverse := by
    have hrev := congrArg List.reverse heq
    rw [List.reverse_reverse, List.reverse_append] at hrev
    exact hrev
  have hseps : ∀ c ∈ seps.reverse, c = '/' :=
    fun c hc => hseps c (List.mem_reverse.mp hc)
  rcases hcases with h | h | ⟨c, rest, hc, h⟩
  · exact .inl (List.reverse_eq_nil_iff.mp h)
  · have htrim : trimTrailingSeps path = ['/'] := by
      unfold trimTrailingSeps
      rw [h]
      rfl
    refine .inr (.inl ⟨seps.reverse, ?_, hseps, htrim⟩)
    rw [htrim] at hpath
    exact hpath
  · have htrim : trimTrailingSeps path = rest.reverse ++ [c] := by
      unfold trimTrailingSeps
      rw [h, List.reverse_cons]
    refine .inr (.inr ⟨seps.reverse, hpath, hseps, ?_, ?_⟩)
    · rw [htrim]
      simp
    · rw [htrim]
      simp [Fs.hasTrailingSlash, hc]

-- ======== the cases

def asFileName (name : List Char) : Option (List Char) :=
  if name = Fs.dot ∨ name = Fs.dotdot then none else some name

/-- A path with more than its last piece: the parent is what is in front of
that piece. -/
structure Splits (path p name : List Char) : Prop where
  piece : IsPiece name
  pieces : Fs.components path = Fs.components p ++ [name]
  root : hasRoot p = hasRoot path
  front : hasRoot p = false → Fs.components p ≠ []
  parent : parent path = if name = Fs.dotdot then none else some p
  lies : p <+: path

/-- A path of separators only. -/
structure RootOnly (path : List Char) : Prop where
  pieces : Fs.components path = []
  root : hasRoot path = true
  parent : parent path = some ['/']
  fileName : fileName path = none
  lies : ['/'] <+: path

/-- A path of one name. -/
structure Single (path name : List Char) : Prop where
  piece : IsPiece name
  pieces : Fs.components path = [name]
  root : hasRoot path = false
  parent : parent path = none

/-- What stands in front of a name: nothing, or text up to a separator. -/
def IsFront (pre : List Char) : Prop := pre = [] ∨ ∃ before, pre = before ++ ['/']

theorem rfind_piece (pre : List Char) (h : IsPiece name) :
    rfind (· = '/') (pre ++ name) = rfind (· = '/') pre := by
  apply rfind_append
  intro c hc
  exact decide_eq_false fun heq => h.2 (heq ▸ hc)

theorem rfind_front (before : List Char) :
    rfind (· = '/') (before ++ ['/']) = some before.length := by
  rw [rfind_concat, if_pos (by decide)]

theorem rfind_start {pre name : List Char} (hpre : IsFront pre)
    (h : IsPiece name) :
    ((rfind (· = '/') (pre ++ name)).map (· + 1)).getD 0 = pre.length := by
  rw [rfind_piece pre h]
  rcases hpre with rfl | ⟨before, rfl⟩
  · rfl
  · rw [rfind_front]
    simp

theorem fileName_of_trimmed {front : List Char}
    (htrim : trimTrailingSeps path = front ++ name) (hpiece : IsPiece name)
    (hstart : ((rfind (· = '/') (trimTrailingSeps path)).map (· + 1)).getD 0
      = front.length) : fileName path = asFileName name := by
  unfold fileName asFileName
  dsimp only
  rw [hstart, htrim, if_neg (by simp [hpiece.1]), List.drop_left]
  by_cases hdot : name = Fs.dot ∨ name = Fs.dotdot
  · rw [if_pos hdot, if_pos (.inr hdot)]
  · rw [if_neg hdot, if_neg fun h => h.elim hpiece.1 hdot]

/-- The text before the last separator, without the separators at its end;
one stays of nothing but separators. -/
structure StripsTo (before p : List Char) : Prop where
  pieces : Fs.components p = Fs.components before
  root : ∀ rest, hasRoot (before ++ '/' :: rest) = hasRoot p
  front : hasRoot p = false → Fs.components p ≠ []
  lies : ∀ rest, p <+: before ++ '/' :: rest

/-- Separators before the last one go with it. -/
theorem stripsTo (before : List Char) : StripsTo before
    (if before.rdropWhile (· = '/') = [] then ['/']
      else before.rdropWhile (· = '/')) := by
  have hsplit : before = before.rdropWhile (· = '/')
      ++ (before.reverse.takeWhile (· = '/')).reverse := by
    have hboth := List.takeWhile_append_dropWhile
      (p := fun c : Char => decide (c = '/')) (l := before.reverse)
    have hrev := congrArg List.reverse hboth
    rw [List.reverse_reverse, List.reverse_append] at hrev
    exact hrev.symm
  have hseps : ∀ c ∈ (before.reverse.takeWhile (· = '/')).reverse, c = '/' := by
    intro c hc
    have hsep := List.mem_takeWhile_imp (List.mem_reverse.mp hc)
    simpa using hsep
  generalize (before.reverse.takeWhile (· = '/')).reverse = seps at hsplit hseps
  generalize hstrip : before.rdropWhile (· = '/') = stripped at hsplit
  by_cases hnil : stripped = []
  · rw [if_pos hnil]
    rw [hnil, List.nil_append] at hsplit
    subst hsplit
    have hhead : ∀ rest, ∃ tail, before ++ '/' :: rest = '/' :: tail := by
      intro rest
      cases before with
      | nil => exact ⟨rest, rfl⟩
      | cons c before =>
        obtain ⟨rfl, -⟩ := List.forall_mem_cons.mp hseps
        exact ⟨before ++ '/' :: rest, rfl⟩
    refine ⟨(components_append_seps hseps []).symm, fun rest => ?_,
      nofun, fun rest => ?_⟩
    · obtain ⟨tail, htail⟩ := hhead rest
      rw [htail]
      rfl
    · obtain ⟨tail, htail⟩ := hhead rest
      rw [htail]
      exact ⟨tail, rfl⟩
  · rw [if_neg hnil]
    refine ⟨?_, fun rest => ?_, fun _ hpieces => ?_, fun rest => ?_⟩
    · rw [hsplit, components_append_seps hseps]
    · rw [hsplit, List.append_assoc]
      exact hasRoot_append hnil _
    · have hlast : Fs.hasTrailingSlash stripped = false := by
        have hne := List.rdropWhile_last_not (fun c : Char => decide (c = '/'))
          before (by rw [hstrip]; exact hnil)
        rw [← hstrip]
        apply decide_eq_false
        intro hl
        rw [List.getLast?_eq_getLast_of_ne_nil (by rw [hstrip]; exact hnil)] at hl
        exact hne (decide_eq_true (Option.some.inj hl))
      obtain ⟨front, last, -, -, -, -, -, -, hcomp⟩ := Fs.components_eq_concat hnil hlast
      rw [hpieces] at hcomp
      simp at hcomp
    · rw [hsplit, List.append_assoc]
      exact List.prefix_append _ _

/-- The kinds of paths: none, the root, one name, or a name behind a
parent. -/
theorem parent_cases (path : List Char) : path = [] ∨ RootOnly path ∨
      (∃ name, Single path name ∧ fileName path = asFileName name) ∨
      ∃ p name, Splits path p name ∧ fileName path = asFileName name := by
  rcases trim_cases path with h | ⟨seps, hpath, hseps, htrim⟩ |
    ⟨seps, hpath, hseps, hne, hlast⟩
  · exact .inl h
  · refine .inr (.inl ⟨?_, ?_, ?_, ?_, ?_⟩)
    · rw [hpath, components_sep_cons]
      exact components_append_seps hseps []
    · rw [hpath]
      rfl
    · unfold parent
      rw [htrim]
      rfl
    · unfold fileName
      rw [htrim]
      rfl
    · exact ⟨seps, hpath.symm⟩
  · obtain ⟨front, name, -, -, htrim, hsep, hname, hfront, hpieces⟩ :=
      Fs.components_eq_concat hne hlast
    have hpiece : IsPiece name := ⟨hname, hsep⟩
    have hfile := fileName_of_trimmed htrim hpiece
      (htrim ▸ rfind_start hfront hpiece)
    have hall : Fs.components path = Fs.components front ++ [name] := by
      rw [hpath, components_append_seps hseps, hpieces]
    have hroot : hasRoot path = hasRoot (trimTrailingSeps path) := by
      conv_lhs => rw [hpath]
      exact hasRoot_append hne seps
    rcases hfront with rfl | ⟨before, rfl⟩
    · refine .inr (.inr (.inl ⟨name, ⟨hpiece, hall, ?_, ?_⟩, hfile⟩))
      · rw [hroot, htrim]
        exact hpiece.hasRoot
      · unfold parent
        dsimp only
        rw [htrim, rfind_piece [] hpiece]
        rfl
    · have hr : rfind (· = '/') (trimTrailingSeps path) = some before.length := by
        rw [htrim, rfind_piece _ hpiece, rfind_front]
      have hcut : trimTrailingSeps path = before ++ '/' :: name := by
        rw [htrim, List.append_assoc, List.singleton_append]
      have hdrop : (trimTrailingSeps path).drop (before.length + 1) = name := by
        rw [hcut, ← List.drop_drop, List.drop_left, List.drop_succ_cons,
          List.drop_zero]
      have hbefore : (trimTrailingSeps path).take before.length = before := by
        rw [hcut, List.take_left]
      have hpre : Fs.components path = Fs.components before ++ [name] := by
        conv_lhs => rw [hpath]
        rw [components_append_seps hseps, hcut, Fs.components_append,
          Fs.components_of_not_mem hsep hname]
      obtain ⟨p, hp, hparent⟩ : ∃ p, StripsTo before p ∧
          parent path = if name = Fs.dotdot then none else some p := by
        refine ⟨_, stripsTo before, ?_⟩
        unfold parent
        dsimp only
        rw [hr, Option.bind_some, hdrop, hbefore]
        by_cases hzero : before.length = 0
        · obtain rfl := List.length_eq_zero_iff.mp hzero
          rfl
        · rw [if_neg hzero]
          split_ifs <;> rfl
      have hlies : trimTrailingSeps path <+: path := ⟨seps, hpath.symm⟩
      refine .inr (.inr (.inr ⟨p, name, ⟨hpiece, ?_, ?_, ?_, hparent, ?_⟩, hfile⟩))
      · rw [hpre, hp.pieces]
      · rw [hroot, hcut, hp.root]
      · exact hp.front
      · rw [hcut] at hlies
        exact (hp.lies name).trans hlies

-- ======== the law

/-- `pop` takes the parent, if there is one. -/
theorem pop_eq (path : List Char) :
    pop path = ((parent path).getD path, (parent path).isSome) := by
  have hlies : ∀ p, parent path = some p → p <+: path := by
    intro p hp
    rcases parent_cases path with rfl | h | ⟨name, h, -⟩ | ⟨q, name, h, -⟩
    · cases hp
    · rw [h.parent] at hp
      cases hp
      exact h.lies
    · rw [h.parent] at hp
      cases hp
    · rw [h.parent] at hp
      split at hp
      next => cases hp
      next =>
        cases hp
        exact h.lies
  unfold pop
  cases hp : parent path with
  | none => rfl
  | some p =>
    obtain ⟨rest, rfl⟩ := hlies p hp
    dsimp only
    rw [List.take_left]
    rfl

def ascend : Nat → List Char → Option (List Char)
  | 0, path => some path
  | n + 1, path => (parent path).bind (ascend n)

/-- The root, the empty path, and a path whose last component is `..`. -/
def Topmost (path : List Char) : Prop :=
  pathComponents path = [.rootDir] ∨ pathComponents path = [] ∨
    (pathComponents path).getLast? = some .parentDir

/-- `parent` descends as documented, `pop` with it, and with `file_name` it
takes a path apart. -/
structure Descends (path : List Char) : Prop where
  none_iff : parent path = none ↔ Topmost path
  fewer : ∀ p, parent path = some p →
    (pathComponents p).length < (pathComponents path).length
  ends : ∃ n, ascend n path = none
  rejoined : ∀ name, fileName path = some name → ∃ p, parent path = some p ∧
    pathComponents (join p name) = pathComponents path
  popped : pop path = ((parent path).getD path, (parent path).isSome)

/-- The paths that `parent` takes apart: with a root, there is a last piece
other than `.`, and a piece `..` to stop at; without, there is no piece, or
one `..`, or two and more, and a `.` at the end is the first one. -/
def Parted (path : List Char) : Prop :=
  if hasRoot path then
    Fs.components path ≠ [] ∧ (Fs.components path).getLast? ≠ some Fs.dot ∧
      Fs.dotdot ∈ Fs.components path
  else
    Fs.components path = [] ∨ Fs.components path = [Fs.dotdot] ∨
      2 ≤ (Fs.components path).length ∧
        ((Fs.components path).getLast? = some Fs.dot →
          Fs.dot ∉ (Fs.components path).dropLast)

-- ======== going up

/-- The way up ends in none unless the path is absolute and free of `..`. -/
theorem ends_iff (path : List Char) : (∃ n, ascend n path = none) ↔
    hasRoot path = false ∨ Fs.dotdot ∈ Fs.components path := by
  constructor
  · intro h
    obtain ⟨n, hn⟩ := h
    induction n generalizing path with
    | zero => cases hn
    | succ n ih =>
      unfold ascend at hn
      rcases parent_cases path with rfl | h | ⟨name, h, -⟩ | ⟨p, name, h, -⟩
      · exact .inl rfl
      · rw [h.parent, Option.bind_some] at hn
        rcases ih _ hn with hroot | hmem
        · cases hroot
        · cases hmem
      · exact .inl h.root
      · rw [h.parent] at hn
        rw [← h.root, h.pieces]
        split at hn
        next hup => exact .inr (by rw [hup]; simp)
        next =>
          rcases ih _ hn with hroot | hmem
          · exact .inl hroot
          · exact .inr (List.mem_append_left _ hmem)
  · intro h
    generalize hlen : (Fs.components path).length = len
    induction len generalizing path with
    | zero =>
      have hnil := List.length_eq_zero_iff.mp hlen
      rcases parent_cases path with rfl | hr | ⟨name, hr, -⟩ | ⟨p, name, hr, -⟩
      · exact ⟨1, rfl⟩
      · rw [hnil, hr.root] at h
        rcases h with h | h
        · cases h
        · cases h
      · rw [hr.pieces] at hnil
        cases hnil
      · rw [hr.pieces] at hnil
        simp at hnil
    | succ len ih =>
      rcases parent_cases path with rfl | hr | ⟨name, hr, -⟩ | ⟨p, name, hr, -⟩
      · exact ⟨1, rfl⟩
      · rw [hr.pieces] at hlen
        cases hlen
      · refine ⟨1, ?_⟩
        unfold ascend
        rw [hr.parent]
        rfl
      · by_cases hup : name = Fs.dotdot
        · refine ⟨1, ?_⟩
          unfold ascend
          rw [hr.parent, if_pos hup]
          rfl
        · rw [hr.pieces, List.length_append, List.length_singleton] at hlen
          have hp : hasRoot p = false ∨ Fs.dotdot ∈ Fs.components p := by
            rw [← hr.root, hr.pieces] at h
            rcases h with h | h
            · exact .inl h
            · rcases List.mem_append.mp h with h | h
              · exact .inr h
              · exact absurd (List.mem_singleton.mp h).symm hup
          obtain ⟨n, hn⟩ := ih p hp (by omega)
          refine ⟨n + 1, ?_⟩
          unfold ascend
          rw [hr.parent, if_neg hup]
          exact hn

-- ======== components

theorem keepDots_append (stay : Bool) (l : List (List Char)) (name : List Char) :
    keepDots stay (l ++ [name]) = keepDots stay l ++
      if name = Fs.dot ∧ (stay = false ∨ Fs.dot ∈ l) then [] else [name] := by
  induction l generalizing stay with
  | nil =>
    cases stay <;> by_cases hdot : name = Fs.dot <;> simp [keepDots, hdot]
  | cons other l ih =>
    rw [List.cons_append]
    unfold keepDots
    by_cases hother : other = Fs.dot
    · cases stay <;> simp [hother, ih]
    · have hmem : Fs.dot ∈ other :: l ↔ Fs.dot ∈ l := by
        simp [Ne.symm hother]
      simp [hother, ih, hmem]

theorem Splits.components (h : Splits path p name) :
    pathComponents path = pathComponents p ++
      if name = Fs.dot ∧ (hasRoot path = true ∨ Fs.dot ∈ Fs.components p)
        then [] else [Component.ofName name] := by
  rw [pathComponents_eq, pathComponents_eq, h.root, h.pieces]
  cases hasRoot path with
  | true =>
    rw [if_pos rfl, if_pos rfl, keepDots_append, List.map_append]
    split_ifs <;> simp_all
  | false =>
    rw [if_neg Bool.false_ne_true, if_neg Bool.false_ne_true, keepDots_append,
      List.map_append]
    split_ifs <;> simp_all

theorem Splits.join (h : Splits path p name) :
    pathComponents (join p name) = pathComponents path := by
  obtain ⟨hpieces, hroot⟩ := push_piece p h.piece
  unfold LinuxRs.User.join
  rw [pathComponents_eq, pathComponents_eq, hpieces, hroot, h.pieces, h.root]

theorem ofName_eq_parentDir :
    Component.ofName name = .parentDir ↔ name = Fs.dotdot := by
  constructor
  · intro h
    have hstr := congrArg Component.asStr h
    rw [asStr_ofName] at hstr
    exact hstr
  · rintro rfl
    rfl

theorem Single.descends (h : Single path name)
    (hfile : fileName path = asFileName name) :
    Descends path ↔ Parted path := by
  have hcomp : pathComponents path = [Component.ofName name] := by
    rw [pathComponents_eq, h.root, if_neg Bool.false_ne_true, h.pieces]
    by_cases hdot : name = Fs.dot <;> simp [keepDots, hdot]
  have htop : Topmost path ↔ name = Fs.dotdot := by
    unfold Topmost
    rw [hcomp, List.getLast?_singleton, ← ofName_eq_parentDir]
    simp [ofName_ne_rootDir]
  have hparted : Parted path ↔ name = Fs.dotdot := by
    unfold Parted
    rw [h.root, if_neg Bool.false_ne_true, h.pieces]
    simp
  rw [hparted]
  constructor
  · intro hd
    exact htop.mp (hd.none_iff.mp h.parent)
  · intro hup
    refine ⟨iff_of_true h.parent (htop.mpr hup), fun p hp => ?_,
      (ends_iff path).mpr (.inl h.root), fun n hn => ?_, pop_eq path⟩
    · rw [h.parent] at hp
      cases hp
    · rw [hfile, asFileName, if_pos (.inr hup)] at hn
      cases hn

theorem Splits.not_descends (h : Splits path p name) (hdot : name = Fs.dot)
    (hdropped : hasRoot path = true ∨ Fs.dot ∈ Fs.components p) :
    ¬ Descends path ∧ ¬ Parted path := by
  constructor
  · intro hd
    have hparent : User.parent path = some p := by
      rw [h.parent, if_neg]
      rw [hdot]
      decide
    have hlt := hd.fewer p hparent
    rw [h.components, if_pos ⟨hdot, hdropped⟩, List.append_nil] at hlt
    exact Nat.lt_irrefl _ hlt
  · intro hparted
    unfold Parted at hparted
    rw [h.pieces, hdot] at hparted
    cases hroot : hasRoot path with
    | true =>
      rw [hroot, if_pos rfl] at hparted
      exact hparted.2.1 (by simp)
    | false =>
      rw [hroot, if_neg Bool.false_ne_true] at hparted
      rcases hparted with hnil | hone | ⟨-, hfirst⟩
      · simp at hnil
      · have hlast := congrArg List.getLast? hone
        rw [List.getLast?_concat, List.getLast?_singleton] at hlast
        cases Option.some.inj hlast
      · have hno := hfirst (by simp)
        rw [List.dropLast_concat] at hno
        rcases hdropped with hr | hmem
        · rw [hroot] at hr
          cases hr
        · exact hno hmem

/-- A path that is split is the name below its parent. -/
theorem Splits.descends (h : Splits path p name)
    (hfile : fileName path = asFileName name) (hkept : ¬ (name = Fs.dot ∧
      (hasRoot path = true ∨ Fs.dot ∈ Fs.components p))) :
    Descends path ↔ Parted path := by
  have hcomp := h.components
  rw [if_neg hkept] at hcomp
  have htop : Topmost path ↔ name = Fs.dotdot := by
    unfold Topmost
    rw [hcomp, List.getLast?_concat, Option.some_inj, ofName_eq_parentDir]
    constructor
    · rintro (heq | heq | heq)
      · have hlast := congrArg List.getLast? heq
        rw [List.getLast?_concat, List.getLast?_singleton] at hlast
        exact absurd (Option.some.inj hlast) (ofName_ne_rootDir name)
      · simp at heq
      · exact heq
    · exact fun heq => .inr (.inr heq)
  have hnone : User.parent path = none ↔ name = Fs.dotdot := by
    rw [h.parent]
    split_ifs with hup <;> simp [hup]
  have hends : Descends path ↔ ∃ n, ascend n path = none := by
    refine ⟨fun hd => hd.ends, fun he => ⟨hnone.trans htop.symm, ?_, he, ?_,
      pop_eq path⟩⟩
    · intro q hq
      rw [h.parent] at hq
      split at hq
      next => cases hq
      next =>
        cases hq
        rw [hcomp, List.length_append, List.length_singleton]
        exact Nat.lt_succ_self _
    · intro n hn
      rw [hfile, asFileName] at hn
      split at hn
      next => cases hn
      next hname =>
        cases hn
        refine ⟨p, ?_, h.join⟩
        rw [h.parent, if_neg fun hup => hname (.inr hup)]
  rw [hends, ends_iff]
  unfold Parted
  rw [h.pieces]
  cases hroot : hasRoot path with
  | true =>
    have hname : name ≠ Fs.dot := fun hdot => hkept ⟨hdot, .inl hroot⟩
    rw [if_pos rfl]
    constructor
    · rintro (hr | hmem)
      · cases hr
      · exact ⟨by simp, by simpa using hname, hmem⟩
    · exact fun hall => .inr hall.2.2
  | false =>
    rw [if_neg Bool.false_ne_true]
    refine iff_of_true (.inl rfl) (.inr (.inr ⟨?_, fun hdot => ?_⟩))
    · have hpos := List.length_pos_iff.mpr (h.front (h.root.trans hroot))
      rw [List.length_append, List.length_singleton]
      omega
    · rw [List.getLast?_concat] at hdot
      rw [List.dropLast_concat]
      exact fun hmem => hkept ⟨Option.some.inj hdot, .inr hmem⟩

/-- `parent` descends on exactly the paths it takes apart. -/
theorem descends_iff (path : List Char) : Descends path ↔ Parted path := by
  rcases parent_cases path with rfl | h | ⟨name, h, hfile⟩ | ⟨p, name, h, hfile⟩
  · refine iff_of_true ⟨iff_of_true rfl (.inr (.inl rfl)), fun p hp => ?_,
      ⟨1, rfl⟩, fun n hn => ?_, pop_eq _⟩ (.inl rfl)
    · cases hp
    · cases hn
  · refine iff_of_false (fun hd => ?_) fun hparted => ?_
    · have htop : Topmost path := by
        refine .inl ?_
        rw [pathComponents_eq, h.root, if_pos rfl, h.pieces]
        rfl
      have hnone := hd.none_iff.mpr htop
      rw [h.parent] at hnone
      cases hnone
    · unfold Parted at hparted
      rw [h.root, if_pos rfl] at hparted
      exact hparted.1 h.pieces
  · exact h.descends hfile
  · by_cases hdropped : name = Fs.dot ∧
        (hasRoot path = true ∨ Fs.dot ∈ Fs.components p)
    · obtain ⟨hnd, hnp⟩ := h.not_descends hdropped.1 hdropped.2
      exact iff_of_false hnd hnp
    · exact h.descends hfile hdropped

/-- The root is its own parent, so going up from it never ends. -/
theorem root_parent : parent ['/'] = some ['/'] ∧ Topmost ['/'] ∧
      ¬ ∃ n, ascend n ['/'] = none := by
  refine ⟨by decide, .inl (by decide), fun h => ?_⟩
  obtain ⟨n, hn⟩ := h
  induction n with
  | zero => cases hn
  | succ n ih => exact ih hn

end LinuxRs.User
