/-
Paths of a user program (user_lib/src/path.rs).

# Text

A path is its list of characters. Separators are ASCII, so a slice that the
source takes at a separator's byte is a slice of the list.

# Components

`Components` walks over the text and keeps three flags. What it yields
depends on the text only through its root and its non-empty pieces
(`pathComponents_eq`): pieces `.` are dropped, but for the first one of a
path without a root.
-/
import LinuxRs.Fs.Path
import Mathlib.Data.List.DropRight

namespace LinuxRs.User

/-- The last index whose character satisfies `p`. -/
def rfind (p : Char → Bool) : List Char → Option Nat
  | [] => none
  | c :: cs =>
    match rfind p cs with
    | some i => some (i + 1)
    | none => if p c then some 0 else none

-- ======== components

inductive Component
  | rootDir
  | curDir
  | parentDir
  | normal (s : List Char)
  deriving DecidableEq

def Component.asStr : Component → List Char
  | .rootDir => ['/']
  | .curDir => ['.']
  | .parentDir => ['.', '.']
  | .normal s => s

structure Components where
  rest : List Char
  yieldedRoot : Bool
  yieldedCur : Bool
  initial : Bool

def skipSeps (rest : List Char) : List Char := rest.dropWhile (· = '/')

/-- The loop of `Components::next`, for a number of rounds. -/
def Components.loop : Nat → Components → Option (Component × Components)
  | 0, _ => none
  | rounds + 1, c =>
    if c.rest = [] then none
    else
      let head := c.rest.takeWhile (· ≠ '/')
      let c := { c with rest := skipSeps (c.rest.dropWhile (· ≠ '/')) }
      if head = [] then loop rounds c
      else if head = Fs.dot then
        if !c.yieldedRoot && !c.yieldedCur then
          some (.curDir, { c with yieldedCur := true })
        else loop rounds c
      else if head = Fs.dotdot then some (.parentDir, c)
      else some (.normal head, c)

/-- `Components::next`. Every round takes a character. -/
def Components.next (c : Components) : Option (Component × Components) :=
  if c.initial ∧ c.rest.head? = some '/' then
    some (.rootDir, { c with
      initial := false
      rest := skipSeps c.rest
      yieldedRoot := true })
  else loop (c.rest.length + 1) { c with initial := false }

def Components.collect : Nat → Components → List Component
  | 0, _ => []
  | n + 1, c =>
    match c.next with
    | none => []
    | some (x, c) => x :: collect n c

/-- `Path::components`, as the list of what it yields. -/
def pathComponents (path : List Char) : List Component :=
  Components.collect (path.length + 1) ⟨path, false, false, true⟩

def hasRoot (path : List Char) : Bool := path.head? = some '/'

def pathEq (path other : List Char) : Bool :=
  pathComponents path = pathComponents other

-- ======== edits

def trimReversed : List Char → List Char
  | c :: d :: rest => if c = '/' then trimReversed (d :: rest) else c :: d :: rest
  | l => l

def trimTrailingSeps (s : List Char) : List Char := (trimReversed s.reverse).reverse

def parent (path : List Char) : Option (List Char) :=
  let trimmed := trimTrailingSeps path
  (rfind (· = '/') trimmed).bind fun lastSep =>
    if trimmed.drop (lastSep + 1) = Fs.dotdot then none
    else if lastSep = 0 then some ['/']
    else
      -- Separators before the last one go with it.
      let front := (trimmed.take lastSep).rdropWhile (· = '/')
      if front = [] then some ['/'] else some front

def fileName (path : List Char) : Option (List Char) :=
  let trimmed := trimTrailingSeps path
  if trimmed = [] then none
  else
    let start := ((rfind (· = '/') trimmed).map (· + 1)).getD 0
    let name := trimmed.drop start
    if name = [] ∨ name = Fs.dot ∨ name = Fs.dotdot then none else some name

def push (buf path : List Char) : List Char :=
  if hasRoot path then path
  else if buf ≠ [] ∧ buf.getLast? ≠ some '/' then buf ++ '/' :: path
  else buf ++ path

def join (buf path : List Char) : List Char := push buf path

def pop (buf : List Char) : List Char × Bool :=
  match parent buf with
  | some p => (buf.take p.length, true)
  | none => (buf, false)

def collectPath (l : List Component) : List Char :=
  l.foldl (fun buf x => push buf x.asStr) []

-- ======== pieces

def Component.ofName (name : List Char) : Component :=
  if name = Fs.dot then .curDir
  else if name = Fs.dotdot then .parentDir
  else .normal name

/-- The pieces without those that are `.`, but for the first one if that may
stay. -/
def keepDots : Bool → List (List Char) → List (List Char)
  | _, [] => []
  | stay, name :: rest =>
    if name = Fs.dot then
      if stay then name :: keepDots false rest else keepDots false rest
    else name :: keepDots stay rest

theorem asStr_ofName (name : List Char) :
    (Component.ofName name).asStr = name := by
  unfold Component.ofName
  split
  next h => exact h.symm
  next =>
    split
    next h => exact h.symm
    next => rfl

theorem ofName_injective : Function.Injective Component.ofName := by
  intro name other h
  have hstr := congrArg Component.asStr h
  rw [asStr_ofName, asStr_ofName] at hstr
  exact hstr

theorem ofName_ne_rootDir (name : List Char) :
    Component.ofName name ≠ .rootDir := by
  unfold Component.ofName
  split_ifs <;> exact nofun

theorem components_sep_cons (s : List Char) :
    Fs.components ('/' :: s) = Fs.components s :=
  Fs.components_append [] s

theorem components_skipSeps (s : List Char) :
    Fs.components (skipSeps s) = Fs.components s := by
  induction s with
  | nil => rfl
  | cons c s ih =>
    unfold skipSeps at ih ⊢
    rw [List.dropWhile_cons]
    split
    next hc =>
      obtain rfl : c = '/' := by simpa using hc
      rw [ih, components_sep_cons]
    next => rfl

theorem components_head (s : List Char) : Fs.components s =
      (if s.takeWhile (· ≠ '/') = [] then [] else [s.takeWhile (· ≠ '/')])
        ++ Fs.components (skipSeps (s.dropWhile (· ≠ '/'))) := by
  have hno : '/' ∉ s.takeWhile (· ≠ '/') := by
    intro hmem
    have hne := List.mem_takeWhile_imp hmem
    simp at hne
  have hhead : Fs.components (s.takeWhile (· ≠ '/')) =
      if s.takeWhile (· ≠ '/') = [] then [] else [s.takeWhile (· ≠ '/')] := by
    split
    next h =>
      rw [h]
      rfl
    next h => exact Fs.components_of_not_mem hno h
  rw [← hhead, components_skipSeps]
  have hs : s.takeWhile (· ≠ '/') ++ s.dropWhile (· ≠ '/') = s :=
    List.takeWhile_append_dropWhile
  cases htail : s.dropWhile (· ≠ '/') with
  | nil =>
    rw [htail, List.append_nil] at hs
    rw [hs]
    exact (List.append_nil _).symm
  | cons c tail =>
    have hc : c = '/' := by
      have hhead := List.head?_dropWhile_not (fun c : Char => decide (c ≠ '/')) s
      rw [htail] at hhead
      simpa using hhead
    subst hc
    rw [htail] at hs
    conv_lhs => rw [← hs]
    rw [Fs.components_append, components_sep_cons]

-- ======== the walk

def Components.kept (c : Components) : List (List Char) :=
  keepDots (!c.yieldedRoot && !c.yieldedCur) (Fs.components c.rest)

theorem length_skip_lt {s : List Char} (h : s ≠ []) :
    (skipSeps (s.dropWhile (· ≠ '/'))).length < s.length := by
  cases s with
  | nil => exact absurd rfl h
  | cons c s =>
    by_cases hc : c = '/'
    · subst hc
      have hle := (List.dropWhile_suffix (l := s) (fun c => decide (c = '/'))).length_le
      have hdrop : skipSeps (('/' :: s).dropWhile (· ≠ '/')) = skipSeps s := by
        simp [skipSeps]
      rw [hdrop]
      exact Nat.lt_succ_of_le hle
    · have hdrop : (c :: s).dropWhile (· ≠ '/') = s.dropWhile (· ≠ '/') := by
        simp [hc]
      have hle := (List.dropWhile_suffix (l := s) (fun c => decide (c ≠ '/'))).length_le
      have hle' := (List.dropWhile_suffix (l := s.dropWhile (· ≠ '/'))
        (fun c => decide (c = '/'))).length_le
      rw [hdrop]
      exact Nat.lt_succ_of_le (hle'.trans hle)

/-- The iterator gives the kept names one by one. -/
theorem loop_spec (rounds : Nat) (c : Components)
    (h : c.rest.length < rounds) : (c.kept = [] ∧ c.loop rounds = none) ∨
      ∃ name c', c.kept = name :: c'.kept ∧
        c.loop rounds = some (.ofName name, c') ∧
        c'.rest.length < c.rest.length ∧ c'.initial = c.initial := by
  induction rounds generalizing c with
  | zero => exact absurd h (Nat.not_lt_zero _)
  | succ rounds ih =>
    unfold Components.loop
    by_cases hnil : c.rest = []
    · refine .inl ⟨?_, if_pos hnil⟩
      unfold Components.kept
      rw [hnil]
      rfl
    · rw [if_neg hnil]
      have hlt := length_skip_lt hnil
      have hpieces := components_head c.rest
      have hskip : ∀ c' : Components, c'.rest.length < c.rest.length →
          c'.initial = c.initial → c.kept = c'.kept →
          (c.kept = [] ∧ c'.loop rounds = none) ∨
            ∃ name c'', c.kept = name :: c''.kept ∧
              c'.loop rounds = some (.ofName name, c'') ∧
              c''.rest.length < c.rest.length ∧ c''.initial = c.initial := by
        intro c' hlen hinit hkept
        rcases ih c' (by omega) with ⟨hnone, hloop⟩ | ⟨name, c'', hk, hl, hless, hi⟩
        · exact .inl ⟨hkept.trans hnone, hloop⟩
        · exact .inr ⟨name, c'', hkept.trans hk, hl, by omega, hi.trans hinit⟩
      by_cases hhead : c.rest.takeWhile (· ≠ '/') = []
      · rw [if_pos hhead]
        rw [if_pos hhead, List.nil_append] at hpieces
        apply hskip
        · exact hlt
        · rfl
        · unfold Components.kept
          rw [hpieces]
      · rw [if_neg hhead]
        rw [if_neg hhead, List.singleton_append] at hpieces
        by_cases hdot : c.rest.takeWhile (· ≠ '/') = Fs.dot
        · rw [if_pos hdot]
          by_cases hstay : (!c.yieldedRoot && !c.yieldedCur) = true
          · rw [if_pos hstay]
            refine .inr ⟨Fs.dot, _, ?_, rfl, hlt, rfl⟩
            unfold Components.kept
            rw [hpieces, hdot, keepDots, if_pos rfl, if_pos hstay]
            simp
          · rw [if_neg hstay]
            apply hskip
            · exact hlt
            · rfl
            · unfold Components.kept
              rw [hpieces, hdot, keepDots, if_pos rfl, if_neg hstay]
              rw [Bool.not_eq_true] at hstay
              rw [hstay]
        · rw [if_neg hdot]
          refine .inr ⟨c.rest.takeWhile (· ≠ '/'),
            { c with rest := skipSeps (c.rest.dropWhile (· ≠ '/')) }, ?_, ?_,
            hlt, rfl⟩
          · unfold Components.kept
            rw [hpieces, keepDots, if_neg hdot]
          · unfold Component.ofName
            rw [if_neg hdot]
            split <;> rfl

/-- The iterator yields the components that are kept. -/
theorem collect_spec (n : Nat) (c : Components) (hinit : c.initial = false)
    (h : c.rest.length < n) : c.collect n = c.kept.map .ofName := by
  induction n generalizing c with
  | zero => exact absurd h (Nat.not_lt_zero _)
  | succ n ih =>
    have hstart : ({ c with initial := false } : Components) = c := by
      rw [← hinit]
    have hnext : c.next = c.loop (c.rest.length + 1) := by
      unfold Components.next
      rw [hstart, if_neg]
      intro hi
      rw [hinit] at hi
      cases hi.1
    unfold Components.collect
    rw [hnext]
    rcases loop_spec (c.rest.length + 1) c (Nat.lt_succ_self _) with
      ⟨hkept, hloop⟩ | ⟨name, c', hkept, hloop, hlt, hi⟩
    · rw [hkept, hloop]
      rfl
    · rw [hkept, hloop, List.map_cons]
      dsimp only
      rw [ih c' (hi.trans hinit) (by omega)]

/-- What the iterator gives is the root and the names, without the dots it
drops. -/
theorem pathComponents_eq (path : List Char) : pathComponents path =
      if hasRoot path then
        .rootDir :: (keepDots false (Fs.components path)).map .ofName
      else (keepDots true (Fs.components path)).map .ofName := by
  unfold pathComponents hasRoot
  by_cases hroot : path.head? = some '/'
  · rw [if_pos (decide_eq_true hroot)]
    obtain ⟨rest, rfl⟩ : ∃ rest, path = '/' :: rest := by
      cases path with
      | nil => cases hroot
      | cons c rest =>
        cases hroot
        exact ⟨rest, rfl⟩
    have hskip : skipSeps ('/' :: rest) = skipSeps rest := by simp [skipSeps]
    have hle := (List.dropWhile_suffix (l := rest) (fun c => decide (c = '/'))).length_le
    have hnext : Components.next ⟨'/' :: rest, false, false, true⟩
        = some (.rootDir, ⟨skipSeps rest, true, false, false⟩) := by
      unfold Components.next
      rw [if_pos ⟨rfl, rfl⟩, hskip]
    rw [List.length_cons]
    unfold Components.collect
    rw [hnext]
    dsimp only
    rw [collect_spec _ _ rfl (Nat.lt_succ_of_le hle)]
    unfold Components.kept
    rw [components_skipSeps, components_sep_cons]
    rfl
  · rw [if_neg fun h => hroot (of_decide_eq_true h)]
    have hnext : Components.next ⟨path, false, false, true⟩
        = Components.next ⟨path, false, false, false⟩ := by
      unfold Components.next
      rw [if_neg fun h => hroot h.2, if_neg fun h => hroot h.2]
    have hcollect : Components.collect (path.length + 1) ⟨path, false, false, true⟩
        = Components.collect (path.length + 1) ⟨path, false, false, false⟩ := by
      unfold Components.collect
      rw [hnext]
    have hkept := collect_spec (path.length + 1) ⟨path, false, false, false⟩ rfl
      (Nat.lt_succ_self _)
    rw [hcollect, hkept]
    rfl

-- ======== the last separator

theorem rfind_concat (p : Char → Bool) (l : List Char) (c : Char) :
    rfind p (l ++ [c]) = if p c then some l.length else rfind p l := by
  induction l with
  | nil => rfl
  | cons d l ih =>
    rw [List.cons_append, rfind, ih]
    by_cases hc : p c = true
    · rw [if_pos hc, if_pos hc]
      rfl
    · rw [if_neg hc, if_neg hc, rfind]

theorem rfind_eq_none {p : Char → Bool} {l : List Char}
    (h : rfind p l = none) : ∀ x ∈ l, p x = false := by
  induction l with
  | nil => exact nofun
  | cons c cs ih =>
    unfold rfind at h
    cases hcs : rfind p cs with
    | some j =>
      rw [hcs] at h
      cases h
    | none =>
      rw [hcs] at h
      dsimp only at h
      split at h
      next => cases h
      next hc =>
        intro x hx
        rcases List.mem_cons.mp hx with rfl | hx
        · simpa using hc
        · exact ih hcs x hx

theorem rfind_eq_some {p : Char → Bool} {l : List Char} {i : Nat}
    (h : rfind p l = some i) :
    ∃ c, p c = true ∧ l = l.take i ++ c :: l.drop (i + 1) ∧
      ∀ x ∈ l.drop (i + 1), p x = false := by
  induction l generalizing i with
  | nil => cases h
  | cons c cs ih =>
    unfold rfind at h
    cases hcs : rfind p cs with
    | some j =>
      rw [hcs] at h
      cases h
      obtain ⟨d, hd, hl, hrest⟩ := ih hcs
      refine ⟨d, hd, ?_, hrest⟩
      rw [List.take_succ_cons, List.drop_succ_cons, List.cons_append, ← hl]
    | none =>
      rw [hcs] at h
      dsimp only at h
      split at h
      next hc =>
        cases h
        refine ⟨c, hc, rfl, ?_⟩
        rw [List.drop_succ_cons, List.drop_zero]
        exact rfind_eq_none hcs
      next => cases h

theorem rfind_append {p : Char → Bool} (a : List Char) {b : List Char}
    (h : ∀ c ∈ b, p c = false) : rfind p (a ++ b) = rfind p a := by
  induction b using List.reverseRecOn with
  | nil => rw [List.append_nil]
  | append_singleton b c ih =>
    rw [← List.append_assoc, rfind_concat, if_neg, ih]
    · exact fun d hd => h d (List.mem_append_left _ hd)
    · rw [h c (by simp)]
      exact Bool.false_ne_true

end LinuxRs.User
