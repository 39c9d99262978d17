/-
Editing the file name of a path (`file_stem`, `extension`,
`set_file_name` and `set_extension`).

Every edit keeps the text in front of the file name, and what `parent` and
`file_name` say depends on that text and the name alone
(`parent_concat`, `fileName_concat`). `String::truncate` counts bytes and
asserts that it cuts between characters.
-/
import LinuxRs.User.PathParent
import Mathlib.Algebra.Ring.Nat

namespace LinuxRs.User

variable {path pre name rest n e : List Char}

-- ======== the source

/-- `rsplit_at_dot`; `rsplitn(2, '.')` yields what is after the last dot and
then what is before it. -/
def rsplitAtDot (name : List Char) : Option (List Char) × Option (List Char) :=
  if name = Fs.dotdot then (some name, none)
  else
    let split := match rfind (· = '.') name with
      | some i => (some (name.take i), some (name.drop (i + 1)))
      | none => (none, some name)
    if split.1 = some [] then (some name, none) else split

def fileStem (path : List Char) : Option (List Char) :=
  (fileName path).bind fun name => (rsplitAtDot name).1

def extension (path : List Char) : Option (List Char) :=
  (fileName path).bind fun name => (rsplitAtDot name).2

/-- `PathBuf::set_file_name`; the assertion that `pop` succeeds is checked in
debug builds only. -/
def setFileName (buf fileName' : List Char) : List Char :=
  let buf := if (fileName buf).isSome then (pop buf).1 else buf
  push buf fileName'

def byteLen (s : List Char) : Nat := (s.map Char.utf8Size).sum

/-- `String::truncate`; `none` is the panic within a character. -/
def truncate : Nat → List Char → Option (List Char)
  | 0, _ => some []
  | _ + 1, [] => some []
  | len + 1, c :: rest =>
    if c.utf8Size ≤ len + 1 then
      (truncate (len + 1 - c.utf8Size) rest).map (c :: ·)
    else none

/-- `PathBuf::set_extension`; `none` is a panic. -/
def setExtension (buf ext : List Char) : Option (List Char × Bool) :=
  if '/' ∈ ext then none
  else
    match fileStem buf with
    | none => some (buf, false)
    | some stem =>
      let endFileStem := byteLen buf - byteLen ((fileName buf).getD [])
        + byteLen stem
      (truncate endFileStem buf).map fun buf =>
        (if ext ≠ [] then buf ++ '.' :: ext else buf, true)

-- ======== slicing

@[simp] theorem byteLen_append (s t : List Char) :
    byteLen (s ++ t) = byteLen s + byteLen t := by
  unfold byteLen
  rw [List.map_append, List.sum_append]

theorem truncate_append (s t : List Char) :
    truncate (byteLen s) (s ++ t) = some s := by
  induction s with
  | nil => cases t <;> rfl
  | cons c s ih =>
    have hpos := c.utf8Size_pos
    obtain ⟨len, hlen⟩ : ∃ len, byteLen (c :: s) = len + 1 := by
      refine ⟨byteLen (c :: s) - 1, ?_⟩
      have hcons : byteLen (c :: s) = c.utf8Size + byteLen s := by
        simp [byteLen]
      omega
    have hcons : byteLen (c :: s) = c.utf8Size + byteLen s := by simp [byteLen]
    have hrest : len + 1 - c.utf8Size = byteLen s := by omega
    rw [hlen, List.cons_append]
    unfold truncate
    rw [if_pos (by omega), hrest, ih]
    rfl

-- ======== the front

def above (pre : List Char) : Option (List Char) :=
  if pre = [] then none
  else
    let front := pre.dropLast.rdropWhile (· = '/')
    if front = [] then some ['/'] else some front

def IsName (name : List Char) : Prop :=
  IsPiece name ∧ name ≠ Fs.dot ∧ name ≠ Fs.dotdot

theorem trimReversed_append {seps : List Char} (hseps : ∀ c ∈ seps, c = '/')
    {c : Char} (hc : c ≠ '/') (rest : List Char) :
    trimReversed (seps ++ c :: rest) = c :: rest := by
  induction seps with
  | nil =>
    cases rest with
    | nil => rfl
    | cons d rest =>
      show (if c = '/' then _ else _) = _
      rw [if_neg hc]
  | cons s seps ih =>
    obtain ⟨rfl, htail⟩ := List.forall_mem_cons.mp hseps
    have hmore := ih htail
    cases seps with
    | nil => exact hmore
    | cons d seps => exact hmore

theorem trimTrailingSeps_concat (h : IsPiece name) (pre : List Char)
    {seps : List Char} (hseps : ∀ c ∈ seps, c = '/') :
    trimTrailingSeps (pre ++ name ++ seps) = pre ++ name := by
  have hrev : ∀ c ∈ seps.reverse, c = '/' :=
    fun c hc => hseps c (List.mem_reverse.mp hc)
  obtain ⟨c, rest, hname⟩ := List.exists_cons_of_ne_nil
    (List.reverse_ne_nil_iff.mpr h.1)
  have hc : c ≠ '/' := by
    intro heq
    apply h.2
    rw [← heq, ← List.mem_reverse, hname]
    exact List.mem_cons_self
  unfold trimTrailingSeps
  rw [List.reverse_append, List.reverse_append, hname, List.cons_append,
    trimReversed_append hrev hc, ← List.cons_append, ← hname,
    ← List.reverse_append, List.reverse_reverse]

theorem parent_concat (hpre : IsFront pre) (h : IsPiece name)
    (hup : name ≠ Fs.dotdot) {seps : List Char} (hseps : ∀ c ∈ seps, c = '/') :
    parent (pre ++ name ++ seps) = above pre := by
  unfold parent above
  dsimp only
  rw [trimTrailingSeps_concat h pre hseps, rfind_piece pre h]
  rcases hpre with rfl | ⟨before, rfl⟩
  · rw [if_pos rfl]
    rfl
  · have hdrop : (before ++ ['/'] ++ name).drop (before.length + 1) = name := by
      have hlen : before.length + 1 = (before ++ ['/']).length := by simp
      rw [hlen, List.drop_left]
    have htake : (before ++ ['/'] ++ name).take before.length = before := by
      rw [List.append_assoc, List.take_left]
    have hne : before ++ ['/'] ≠ [] := by simp
    rw [rfind_front, Option.bind_some, hdrop, if_neg hup, htake, if_neg hne,
      List.dropLast_concat]
    by_cases hzero : before.length = 0
    · obtain rfl := List.length_eq_zero_iff.mp hzero
      rfl
    · rw [if_neg hzero]

theorem fileName_concat (hpre : IsFront pre) (h : IsPiece name)
    {seps : List Char} (hseps : ∀ c ∈ seps, c = '/') :
    fileName (pre ++ name ++ seps) = asFileName name := by
  have htrim := trimTrailingSeps_concat h pre hseps
  apply fileName_of_trimmed htrim h
  rw [htrim, rfind_start hpre h]

theorem fileName_cases (h : fileName path = some name) :
    ∃ pre seps, path = pre ++ name ++ seps ∧ IsFront pre ∧ IsName name ∧
      ∀ c ∈ seps, c = '/' := by
  rcases trim_cases path with rfl | ⟨seps, -, -, htrim⟩ |
    ⟨seps, hpath, hseps, hne, hlast⟩
  · cases h
  · unfold fileName at h
    rw [htrim] at h
    cases h
  · obtain ⟨pre, piece, -, -, htrim, hsep, hpiece, hfront, -⟩ :=
      Fs.components_eq_concat hne hlast
    have hfile := fileName_of_trimmed htrim ⟨hpiece, hsep⟩
      (htrim ▸ rfind_start hfront ⟨hpiece, hsep⟩)
    rw [hfile, asFileName] at h
    split at h
    next => cases h
    next hname =>
      cases h
      rw [htrim] at hpath
      exact ⟨pre, seps, hpath, hfront, ⟨⟨hpiece, hsep⟩,
        fun heq => hname (.inl heq), fun heq => hname (.inr heq)⟩, hseps⟩

-- ======== dots

theorem rsplitAtDot_concat {before after : List Char} (hafter : '.' ∉ after)
    (hname : before ++ '.' :: after ≠ Fs.dotdot) :
    rsplitAtDot (before ++ '.' :: after) =
      if before = [] then (some ('.' :: after), none)
      else (some before, some after) := by
  have hr : rfind (· = '.') (before ++ '.' :: after) = some before.length := by
    have hno : ∀ c ∈ after, decide (c = '.') = false :=
      fun c hc => decide_eq_false fun heq => hafter (heq ▸ hc)
    have hsplit : before ++ '.' :: after = (before ++ ['.']) ++ after := by simp
    rw [hsplit, rfind_append _ hno, rfind_concat, if_pos (by decide)]
  unfold rsplitAtDot
  rw [if_neg hname]
  simp only [hr, List.take_left, Option.some.injEq]
  by_cases hnil : before = []
  · subst hnil
    rfl
  · have hdrop : (before ++ '.' :: after).drop (before.length + 1) = after := by
      have hlen : before.length + 1 = (before ++ ['.']).length := by simp
      have hsplit : before ++ '.' :: after = (before ++ ['.']) ++ after := by simp
      rw [hlen, hsplit, List.drop_left]
    rw [if_neg hnil, if_neg hnil, hdrop]

theorem exists_last_dot (h : '.' ∈ name) :
    ∃ before after, name = before ++ '.' :: after ∧ '.' ∉ after := by
  cases hr : rfind (· = '.') name with
  | none =>
    have hno := rfind_eq_none hr '.' h
    simp at hno
  | some i =>
    obtain ⟨c, hc, hcut, hrest⟩ := rfind_eq_some hr
    obtain rfl : c = '.' := by simpa using hc
    refine ⟨_, _, hcut, fun hmem => ?_⟩
    have hno := hrest '.' hmem
    simp at hno

theorem rsplitAtDot_cases (h : IsName name) (hdot : '.' ∈ name) :
    rsplitAtDot name = (some name, none) ∨
      ∃ stem ext, name = stem ++ '.' :: ext ∧ stem ≠ [] ∧
        rsplitAtDot name = (some stem, some ext) := by
  obtain ⟨before, after, rfl, hafter⟩ := exists_last_dot hdot
  have hsplit := rsplitAtDot_concat hafter h.2.2
  by_cases hnil : before = []
  · subst hnil
    exact .inl hsplit
  · rw [if_neg hnil] at hsplit
    exact .inr ⟨before, after, rfl, hnil, hsplit⟩

-- ======== laws

theorem push_front (buf : List Char) (h : IsPiece n) :
    ∃ pre, push buf n = pre ++ n ∧ IsFront pre := by
  unfold push
  rw [h.hasRoot, if_neg Bool.false_ne_true]
  by_cases hnil : buf = []
  · subst hnil
    exact ⟨[], rfl, .inl rfl⟩
  · by_cases hlast : buf.getLast? = some '/'
    · rw [if_neg fun hn => hn.2 hlast]
      obtain ⟨before, rfl⟩ := List.getLast?_eq_some_iff.mp hlast
      exact ⟨_, rfl, .inr ⟨before, rfl⟩⟩
    · rw [if_pos ⟨hnil, hlast⟩]
      exact ⟨buf ++ ['/'], by simp, .inr ⟨buf, rfl⟩⟩

/-- What was pushed is taken off again. -/
theorem parent_push (habove : above pre = some path) (h : IsPiece n)
    (hup : n ≠ Fs.dotdot) : parent (push path n) = some path := by
  have hfront : ∃ front, push path n = front ++ n ∧ IsFront front ∧
      above front = some path := by
    unfold above at habove
    split at habove
    next => cases habove
    next =>
      dsimp only at habove
      unfold push
      rw [h.hasRoot, if_neg Bool.false_ne_true]
      split at habove
      next =>
        cases habove
        exact ⟨['/'], rfl, .inr ⟨[], rfl⟩, by decide⟩
      next hne =>
        obtain hpath := Option.some.inj habove
        have hlast : path.getLast? ≠ some '/' := by
          intro hl
          have hnot := List.rdropWhile_last_not (fun c : Char => decide (c = '/'))
            pre.dropLast hne
          subst hpath
          rw [List.getLast?_eq_getLast_of_ne_nil hne] at hl
          exact hnot (decide_eq_true (Option.some.inj hl))
        have hnil : path ≠ [] := hpath ▸ hne
        rw [if_pos ⟨hnil, hlast⟩]
        refine ⟨path ++ ['/'], by simp, .inr ⟨path, rfl⟩, ?_⟩
        unfold above
        have hstay : path.rdropWhile (fun c => decide (c = '/')) = path := by
          rw [← hpath]
          exact List.rdropWhile_idempotent _ _
        rw [if_neg (by simp), List.dropLast_concat]
        rw [hstay, if_neg hnil]
  obtain ⟨front, hpush, hfront, habove⟩ := hfront
  have hnone : ∀ c ∈ ([] : List Char), c = '/' := nofun
  have hparent := parent_concat hfront h hup hnone
  rw [hpush, ← habove, ← hparent, List.append_nil]

/-- What is set or pushed is found again, and the rest is as it was. -/
structure Edits (path n e : List Char) : Prop where
  /-- A file name with a dot is its stem and its extension. -/
  split : ∀ name, fileName path = some name → '.' ∈ name →
    ∃ stem, fileStem path = some stem ∧
      (∀ ext, extension path = some ext → name = stem ++ '.' :: ext) ∧
      (extension path = none → name = stem)
  /-- A file name that is set is there. -/
  named : IsName n → fileName (setFileName path n) = some n
  /-- It takes the place of one that has something in front. -/
  beside : IsName n → fileName path ≠ none → parent path ≠ none →
    parent (setFileName path n) = parent path
  /-- It is pushed where there is none. -/
  pushed : fileName path = none → setFileName path n = push path n
  /-- An extension takes the place of what is behind the stem. -/
  extended : e ≠ [] → '.' ∉ e → '/' ∉ e →
    ∀ name, fileName path = some name → '.' ∈ name → path.getLast? ≠ some '/' →
        ∃ path', setExtension path e = some (path', true) ∧
          extension path' = some e ∧ fileStem path' = fileStem path ∧
          parent path' = parent path

theorem fileStem_eq (h : fileName path = some name) :
    fileStem path = (rsplitAtDot name).1 ∧
      extension path = (rsplitAtDot name).2 := by
  unfold fileStem extension
  rw [h]
  exact ⟨rfl, rfl⟩

theorem stem_split (h : fileName path = some name) (hdot : '.' ∈ name) :
    ∃ stem, fileStem path = some stem ∧ stem ≠ [] ∧
      ((extension path = none ∧ name = stem) ∨
        ∃ ext, extension path = some ext ∧ name = stem ++ '.' :: ext) := by
  obtain ⟨-, -, -, -, hname, -⟩ := fileName_cases h
  obtain ⟨hstem, hext⟩ := fileStem_eq h
  rcases rsplitAtDot_cases hname hdot with hs | ⟨stem, ext, heq, hne, hs⟩
  · rw [hs] at hstem hext
    exact ⟨name, hstem, hname.1.1, .inl ⟨hext, rfl⟩⟩
  · rw [hs] at hstem hext
    exact ⟨stem, hstem, hne, .inr ⟨ext, hext, heq⟩⟩

/-- The extension behind the stem is replaced. -/
theorem setExtension_spec {stem : List Char} (hpre : IsFront pre)
    (hname : IsName (stem ++ rest)) (hstem : stem ≠ []) (he : e ≠ [])
    (hdots : '.' ∉ e) (hsep : '/' ∉ e)
    (hold : fileStem (pre ++ (stem ++ rest)) = some stem) :
    setExtension (pre ++ (stem ++ rest)) e
        = some (pre ++ (stem ++ '.' :: e), true) ∧
      extension (pre ++ (stem ++ '.' :: e)) = some e ∧
      fileStem (pre ++ (stem ++ '.' :: e)) = some stem ∧
      parent (pre ++ (stem ++ '.' :: e)) = parent (pre ++ (stem ++ rest)) := by
  have hnone : ∀ c ∈ ([] : List Char), c = '/' := nofun
  have hfile : fileName (pre ++ (stem ++ rest)) = some (stem ++ rest) := by
    have hf := fileName_concat hpre hname.1 hnone
    rw [List.append_nil, asFileName, if_neg] at hf
    · exact hf
    · exact fun h => h.elim hname.2.1 hname.2.2
  have hnodot : stem ++ '.' :: e ≠ Fs.dot ∧ stem ++ '.' :: e ≠ Fs.dotdot := by
    have hshort : 3 ≤ (stem ++ '.' :: e).length := by
      have hs := List.length_pos_iff.mpr hstem
      have hl := List.length_pos_iff.mpr he
      simp only [List.length_append, List.length_cons]
      omega
    constructor
    · intro heq
      rw [heq] at hshort
      revert hshort
      decide
    · intro heq
      rw [heq] at hshort
      revert hshort
      decide
  have hpiece : IsPiece (stem ++ '.' :: e) := by
    refine ⟨by simp, fun hmem => ?_⟩
    rcases List.mem_append.mp hmem with hm | hm
    · exact hname.1.2 (List.mem_append_left _ hm)
    · rcases List.mem_cons.mp hm with hm | hm
      · cases hm
      · exact hsep hm
  have hnew : fileName (pre ++ (stem ++ '.' :: e)) = some (stem ++ '.' :: e) := by
    have hf := fileName_concat hpre hpiece hnone
    rw [List.append_nil, asFileName, if_neg] at hf
    · exact hf
    · exact fun h => h.elim hnodot.1 hnodot.2
  have hsplit := rsplitAtDot_concat hdots hnodot.2
  rw [if_neg hstem] at hsplit
  obtain ⟨hs, hx⟩ := fileStem_eq hnew
  refine ⟨?_, by rw [hx, hsplit], by rw [hs, hsplit], ?_⟩
  · have hend : byteLen (pre ++ (stem ++ rest)) - byteLen (stem ++ rest)
        + byteLen stem = byteLen (pre ++ stem) := by
      rw [byteLen_append, byteLen_append pre]
      omega
    unfold setExtension
    rw [if_neg hsep, hold]
    dsimp only
    rw [hfile, Option.getD_some, hend, ← List.append_assoc, truncate_append,
      Option.map_some, if_pos he, List.append_assoc]
  · have hp := parent_concat hpre hpiece hnodot.2 hnone
    have hp' := parent_concat hpre hname.1 hname.2.2 hnone
    rw [List.append_nil] at hp hp'
    rw [hp, hp']

/-- The laws of editing a file name hold for every path, name and
extension. -/
theorem path_edits (path n e : List Char) : Edits path n e where
  split name hname hdot := by
    obtain ⟨stem, hstem, -, hcases⟩ := stem_split hname hdot
    refine ⟨stem, hstem, fun ext hext => ?_, fun hext => ?_⟩
    · rcases hcases with ⟨hnone, -⟩ | ⟨ext', hsome, heq⟩
      · rw [hnone] at hext
        cases hext
      · obtain rfl := Option.some.inj (hsome.symm.trans hext)
        exact heq
    · rcases hcases with ⟨-, heq⟩ | ⟨ext', hsome, -⟩
      · exact heq
      · rw [hsome] at hext
        cases hext
  named hn := by
    unfold setFileName
    obtain ⟨pre, hpush, hpre⟩ := push_front
      (if (fileName path).isSome then (pop path).1 else path) hn.1
    have hnone : ∀ c ∈ ([] : List Char), c = '/' := nofun
    have hfile := fileName_concat hpre hn.1 hnone
    rw [hpush, ← List.append_nil (pre ++ n), hfile, asFileName, if_neg]
    exact fun h => h.elim hn.2.1 hn.2.2
  beside hn hfile hparent := by
    obtain ⟨name, hname⟩ := Option.ne_none_iff_exists'.mp hfile
    obtain ⟨p, hp⟩ := Option.ne_none_iff_exists'.mp hparent
    obtain ⟨pre, seps, rfl, hpre, hisName, hseps⟩ := fileName_cases hname
    have habove := parent_concat hpre hisName.1 hisName.2.2 hseps
    rw [habove] at hp
    have hset : setFileName (pre ++ name ++ seps) n = push p n := by
      unfold setFileName
      rw [hname, pop_eq, habove, hp]
      rfl
    rw [hset, habove, hp, parent_push hp hn.1 hn.2.2]
  pushed hnone := by
    unfold setFileName
    rw [hnone]
    rfl
  extended he hdots hsep name hname hdot hlast := by
    obtain ⟨stem, hstem, hne, hcases⟩ := stem_split hname hdot
    obtain ⟨pre, seps, rfl, hpre, hisName, hseps⟩ := fileName_cases hname
    have hnil : seps = [] := by
      rcases List.eq_nil_or_concat' seps with h | ⟨front, c, rfl⟩
      · exact h
      · exfalso
        apply hlast
        rw [← List.append_assoc, List.getLast?_concat, hseps c (by simp)]
    subst hnil
    obtain ⟨rest, rfl⟩ : ∃ rest, name = stem ++ rest := by
      rcases hcases with ⟨-, heq⟩ | ⟨ext, -, heq⟩
      · exact ⟨[], by rw [heq, List.append_nil]⟩
      · exact ⟨_, heq⟩
    rw [List.append_nil] at hstem ⊢
    obtain ⟨hset, hext, hstem', hparent⟩ :=
      setExtension_spec hpre hisName hne he hdots hsep hstem
    exact ⟨_, hset, hext, hstem'.trans hstem.symm, hparent⟩

/-- A name that is pushed onto `..` gives the path a parent, and of an
extension with a dot only the last part is the extension. -/
theorem edits_by_design : parent "..".toList = none ∧
      parent (setFileName "..".toList "n".toList) = some "..".toList ∧
      ((setExtension "a.b".toList "tar.gz".toList).bind fun r =>
        extension r.1) = some "gz".toList := by
  decide

end LinuxRs.User
