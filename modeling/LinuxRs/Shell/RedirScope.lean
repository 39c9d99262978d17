/-
Are redirections scoped (user_program/src/bin/sh/exec.rs,
`with_redirs`)?

# The mechanism

Before a redirection replaces its target it saves it with `dup`, and the
saves are undone newest first. A save that was made is undone exactly
(`Undo.save`), whatever the later redirections did, so only what was
replaced without a save can stay behind.

# The defects

- A target that is closed is not saved, and stays open afterwards.
- The file is opened at the lowest free descriptor. When that is the
  target itself, the `close` of the temporary descriptor closes it again.
- The copy goes to the lowest free descriptor, too, which may be one that
  an earlier redirection was asked to close.
- With all descriptors in use nothing is saved.

`Redir.Safe` says that a redirection does none of this in the state it is
applied in, and `redirs_scoped` that then the redirections are scoped.
-/
import LinuxRs.Lib.Run
import LinuxRs.Shell.Redirect

namespace LinuxRs.Shell

open LinuxRs.Lib
open LinuxRs.Fs (FdContext FileRef)

variable {σ α : Type}

-- ======== the property

/-- What a redirection does when it is applied. -/
inductive Outcome
  | fails
  | opens (file : FileRef)
  | copies (src : BitVec 32)
  | closes

def Redir.outcome (env : ShellEnv σ) (r : Redir) (w : Walk σ) : Outcome :=
  match env.expandWordUnsplit r.sourceWord w.st w.fds with
  | (.error _, _) => .fails
  | (.ok text, st) =>
    match r.op.openArgs with
    | some (mode, options) =>
      if '\x00' ∈ text then .fails
      else
        match env.sysOpen text mode options st with
        | (.error _, _) => .fails
        | (.ok file, _) => .opens file
    | none =>
      if text = ['-'] then .closes
      else
        match parseI32 text with
        | none => .fails
        | some src => .copies (BitVec.ofInt 32 src)

/-- The descriptors named so far, each with what it should refer to. -/
abbrev Want := BitVec 32 → Option (Option FileRef)

def Want.note (want : Want) (fd : BitVec 32) (file : Option FileRef) : Want :=
  Function.update want fd (some file)

/-- A redirection adds the descriptors it names, with what it opened or
duplicated. -/
def Redir.noteMade (env : ShellEnv σ) (r : Redir) (w : Walk σ)
    (want : Want) : Want :=
  let w := w.saveFd r.targetFd
  match r.outcome env w with
  | .fails => want
  | .opens file =>
    if r.op = .outBoth then
      (want.note 1#32 (some file)).note 2#32 (some file)
    else want.note r.targetFd (some file)
  | .copies src => want.note r.targetFd (look w.fds src)
  | .closes => want.note r.targetFd none

/-- What the last redirection naming a descriptor opened or
duplicated. -/
def lastMade (env : ShellEnv σ) : List Redir → Walk σ → Want → Want
  | [], _, want => want
  | r :: rest, w, want =>
    lastMade env rest (applyRedir env r w).2 (r.noteMade env w want)

/-- The redirections of a command are scoped: the command sees them, and
afterwards the descriptors are as they were, for every command that
leaves them as it found them. -/
structure Scoped (env : ShellEnv σ) (redirs : List Redir) (st : σ)
    (c : FdContext) : Prop where
  inside : ∀ w, applyRedirs env redirs ⟨st, c, []⟩ = (.ok (), w) →
    ∀ fd file, lastMade env redirs ⟨st, c, []⟩ (fun _ => none) fd = some file →
      look w.fds fd = file
  after : ∀ (α : Type) (f : σ → FdContext → Except ExecError α × σ × FdContext),
    (∀ st fds, (f st fds).2.2 = fds) → (withRedirs env redirs f st c).2.2 = c

-- ======== the condition

/-- The descriptor has been saved on this walk. -/
def Walk.Held (w : Walk σ) (fd : BitVec 32) : Prop :=
  fd ∈ w.saved.map Prod.fst

/-- If the descriptor is saved now, then not over one that an earlier
redirection named. -/
def Walk.SavesApart (w : Walk σ) (fd : BitVec 32) (want : Want) : Prop :=
  (look w.fds fd).isSome → ∀ s, lowestFree w.fds = some s → want s = none

/-- The file of `&>` is opened at the lowest free descriptor. -/
def Walk.opened (w : Walk σ) (fd : BitVec 32) (file : FileRef) : Walk σ :=
  { w with fds := put w.fds fd (some file) }

/-- A redirection replaces only what is saved, now or by an earlier one;
saves go to descriptors that no redirection names; and a file is not
opened at its own target. -/
def Redir.Safe (env : ShellEnv σ) (r : Redir) (w : Walk σ) (want : Want) :
    Prop :=
  let w' := w.saveFd r.targetFd
  w.SavesApart r.targetFd want ∧ match r.outcome env w' with
    | .fails => True
    | .closes => look w'.fds r.targetFd = none ∨ w'.Held r.targetFd
    | .copies src =>
      look w'.fds src = look w'.fds r.targetFd ∨ w'.Held r.targetFd
    | .opens file =>
      ∀ n, lowestFree w'.fds = some n → if r.op = .outBoth then
          r.targetFd = 1#32 ∧ n ≠ 1#32 ∧ n ≠ 2#32 ∧ w'.Held 1#32 ∧
            (w'.opened n file).SavesApart 2#32 want ∧
            ((w'.opened n file).saveFd 2#32).Held 2#32
        else n ≠ r.targetFd ∧ w'.Held r.targetFd

def redirStep (env : ShellEnv σ) (s : Walk σ × Want) (r : Redir) :
    Option (Walk σ × Want) :=
  match applyRedir env r s.1 with
  | (.error _, _) => none
  | (.ok (), w) => some (w, r.noteMade env s.1 s.2)

/-- Every redirection that succeeds is safe in the state it is applied
in. -/
def RedirsSafe (env : ShellEnv σ) (redirs : List Redir) (st : σ)
    (c : FdContext) : Prop :=
  Guarded (redirStep env) (fun s r => r.Safe env s.1 s.2)
    (⟨st, c, []⟩, fun _ => none) redirs

-- ======== undoing

/-- Undoing the saves, newest first, leads back to `c₀`: each copy is
still there when its turn comes. -/
def Undo (c₀ : FdContext) : List (BitVec 32 × BitVec 32) → FdContext → Prop
  | [], c => c = c₀
  | (target, saved) :: rest, c =>
    ∃ file, look c saved = some file ∧ saved ≠ target ∧
      (FdContext.inRange target).isSome ∧
      Undo c₀ rest (put (put c target (some file)) saved none)

def Shield : List (BitVec 32 × BitVec 32) → BitVec 32 → Prop
  | [], _ => False
  | (target, saved) :: rest, fd =>
    saved ≠ fd ∧ (target = fd ∨ Shield rest fd)

theorem restore_of_undo {c₀ : FdContext} :
    ∀ {saved : List (BitVec 32 × BitVec 32)} {c : FdContext},
      Undo c₀ saved c → restore saved c = c₀ := by
  intro saved
  induction saved with
  | nil => exact fun h => h
  | cons p rest ih =>
    intro c h
    obtain ⟨target, s⟩ := p
    obtain ⟨file, hfile, -, hrange, hrest⟩ := h
    simp only [restore, close_eq]
    rcases dup2_cases c s target with ⟨e, l, hbad, -⟩ | ⟨f, n, l, hf, -, heq⟩
    · rw [hfile] at hbad
      rcases hbad with hbad | hbad
      · cases hbad
      · rw [hbad] at hrange
        cases hrange
    · rw [hfile, Option.some.injEq] at hf
      rw [heq, ← hf]
      exact ih hrest

theorem Undo.save {c₀ c : FdContext} {saved : List (BitVec 32 × BitVec 32)}
    (h : Undo c₀ saved c) {fd s : BitVec 32} {file : FileRef}
    (hfile : look c fd = some file) (hrange : (FdContext.inRange s).isSome)
    (hfree : look c s = none) :
    Undo c₀ ((fd, s) :: saved) (put c s (some file)) := by
  have hne : s ≠ fd := by
    intro heq
    rw [heq, hfile] at hfree
    cases hfree
  refine ⟨file, look_put_self hrange _, hne, inRange_of_look hfile, ?_⟩
  have hback : put (put (put c s (some file)) fd (some file)) s none = c := by
    rw [put_put_comm c hne, put_put_self, ← hfile, put_look, ← hfree, put_look]
  rw [hback]
  exact h

theorem Undo.replace {c₀ : FdContext} {fd : BitVec 32}
    (file : Option FileRef) :
    ∀ {saved : List (BitVec 32 × BitVec 32)} {c : FdContext},
      Shield saved fd → Undo c₀ saved c → Undo c₀ saved (put c fd file) := by
  intro saved
  induction saved with
  | nil => exact fun h _ => h.elim
  | cons p rest ih =>
    intro c hshield h
    obtain ⟨target, s⟩ := p
    obtain ⟨hs, hcov⟩ := hshield
    obtain ⟨f, hf, hne, hrange, hrest⟩ := h
    refine ⟨f, ?_, hne, hrange, ?_⟩
    · rw [look_put_of_ne c hs]
      exact hf
    · by_cases htarget : target = fd
      · subst htarget
        rw [put_put_self]
        exact hrest
      · have hcov : Shield rest fd := hcov.resolve_left htarget
        rw [put_put_comm c (Ne.symm htarget), put_put_comm _ (Ne.symm hs)]
        exact ih hcov hrest

-- ======== the invariant

/-- Along the redirections: the saves can be undone, whatever is saved
was named, and every descriptor named refers to what it should. -/
structure Walk.Inv (c₀ : FdContext) (want : Want) (w : Walk σ) : Prop where
  undo : Undo c₀ w.saved w.fds
  shield : ∀ fd, w.Held fd → Shield w.saved fd
  named : ∀ fd, w.Held fd → (want fd).isSome
  inside : ∀ fd file, want fd = some file → look w.fds fd = file

@[simp] theorem Want.note_self (want : Want) (fd : BitVec 32)
    (file : Option FileRef) : want.note fd file fd = some file := by
  simp [Want.note]

theorem Want.note_of_ne (want : Want) {fd fd' : BitVec 32} (h : fd' ≠ fd)
    (file : Option FileRef) : want.note fd file fd' = want fd' := by
  simp [Want.note, h]

theorem Want.note_note_self (want : Want) (fd : BitVec 32)
    (a b : Option FileRef) : (want.note fd a).note fd b = want.note fd b := by
  simp [Want.note]

theorem Want.note_comm (want : Want) {fd fd' : BitVec 32} (h : fd ≠ fd')
    (a b : Option FileRef) :
    (want.note fd a).note fd' b = (want.note fd' b).note fd a := by
  unfold Want.note
  rw [Function.update_comm h]

theorem Want.note_isSome {want : Want} {fd fd' : BitVec 32}
    (h : (want fd').isSome) (file : Option FileRef) :
    (want.note fd file fd').isSome := by
  by_cases heq : fd' = fd
  · rw [heq, Want.note_self]
    rfl
  · rw [want.note_of_ne heq]
    exact h

theorem Walk.Inv.note {c₀ : FdContext} {want : Want} {w : Walk σ}
    (h : w.Inv c₀ want) {fd : BitVec 32} {file : Option FileRef}
    (hfile : look w.fds fd = file) : w.Inv c₀ (want.note fd file) where
  undo := h.undo
  shield := h.shield
  named := fun fd' hfd => Want.note_isSome (h.named fd' hfd) file
  inside := by
    intro fd' file' hwant
    by_cases heq : fd' = fd
    · rw [heq, Want.note_self, Option.some.injEq] at hwant
      rw [heq, hfile, hwant]
    · rw [want.note_of_ne heq] at hwant
      exact h.inside fd' file' hwant

theorem Walk.Inv.replace {c₀ : FdContext} {want : Want} {w : Walk σ}
    (h : w.Inv c₀ want) {fd : BitVec 32} (hheld : w.Held fd)
    (hrange : (FdContext.inRange fd).isSome) (file : Option FileRef) :
    ({ w with fds := put w.fds fd file } : Walk σ).Inv c₀
      (want.note fd file) where
  undo := h.undo.replace file (h.shield fd hheld)
  shield := h.shield
  named := fun fd' hfd => Want.note_isSome (h.named fd' hfd) file
  inside := by
    intro fd' file' hwant
    by_cases heq : fd' = fd
    · rw [heq, Want.note_self, Option.some.injEq] at hwant
      rw [heq, look_put_self hrange, hwant]
    · rw [want.note_of_ne heq] at hwant
      rw [look_put_of_ne w.fds heq]
      exact h.inside fd' file' hwant

/-- A descriptor is saved above the range of the shell before it is
changed. -/
theorem Walk.Inv.saveAt {c₀ : FdContext} {want : Want} {w : Walk σ}
    (h : w.Inv c₀ want) {fd s : BitVec 32} {file : FileRef}
    (hfile : look w.fds fd = some file) (hrange : (FdContext.inRange s).isSome)
    (hfree : look w.fds s = none) (hwant : want s = none) :
    ({ w with fds := put w.fds s (some file), saved := (fd, s) :: w.saved }
      : Walk σ).Inv c₀ (want.note fd (some file)) where
  undo := h.undo.save hfile hrange hfree
  shield := by
    intro fd' hfd
    rcases List.mem_cons.mp hfd with heq | hmem
    · refine ⟨?_, .inl heq.symm⟩
      intro hs
      rw [hs, heq, hfile] at hfree
      cases hfree
    · refine ⟨?_, .inr (h.shield fd' hmem)⟩
      intro hs
      have hnamed := h.named fd' hmem
      rw [← hs, hwant] at hnamed
      cases hnamed
  named := by
    intro fd' hfd
    rcases List.mem_cons.mp hfd with heq | hmem
    · rw [heq, Want.note_self]
      rfl
    · exact Want.note_isSome (h.named fd' hmem) _
  inside := by
    intro fd' file' hnote
    by_cases heq : fd' = fd
    · have hne : fd ≠ s := by
        intro hs
        rw [hs, hfree] at hfile
        cases hfile
      rw [heq, Want.note_self, Option.some.injEq] at hnote
      rw [heq, look_put_of_ne w.fds hne, hfile, hnote]
    · rw [want.note_of_ne heq] at hnote
      have hne : fd' ≠ s := by
        intro hs
        rw [hs, hwant] at hnote
        cases hnote
      rw [look_put_of_ne w.fds hne]
      exact h.inside fd' file' hnote

-- ======== the step

theorem Walk.saveFd_cases (w : Walk σ) (fd : BitVec 32) :
    w.saveFd fd = w ∨ ∃ file s, look w.fds fd = some file ∧
      lowestFree w.fds = some s ∧ w.saveFd fd = { w with
        fds := put w.fds s (some file), saved := (fd, s) :: w.saved } := by
  unfold Walk.saveFd
  rcases dup_cases w.fds fd with ⟨e, l, -, heq⟩ | ⟨file, n, l, hfile, hs, heq⟩
  · rw [heq]
    exact .inl rfl
  · rw [heq]
    exact .inr ⟨file, _, hfile, hs, rfl⟩

theorem Walk.look_saveFd (w : Walk σ) (fd : BitVec 32) :
    look (w.saveFd fd).fds fd = look w.fds fd := by
  rcases w.saveFd_cases fd with heq | ⟨file, s, hfile, hs, heq⟩
  · rw [heq]
  · have hfree := (lowestFree_spec hs).2
    have hne : fd ≠ s := by
      intro heq
      rw [heq, hfree] at hfile
      cases hfile
    rw [heq]
    exact look_put_of_ne w.fds hne _

theorem Walk.undo_saveFd {c₀ : FdContext} {w : Walk σ}
    (h : Undo c₀ w.saved w.fds) (fd : BitVec 32) :
    Undo c₀ (w.saveFd fd).saved (w.saveFd fd).fds := by
  rcases w.saveFd_cases fd with heq | ⟨file, s, hfile, hs, heq⟩
  · rw [heq]
    exact h
  · obtain ⟨hrange, hfree⟩ := lowestFree_spec hs
    rw [heq]
    exact h.save hfile hrange hfree

theorem Walk.Inv.save {c₀ : FdContext} {want : Want} {w : Walk σ}
    (h : w.Inv c₀ want) {fd : BitVec 32} (hapart : w.SavesApart fd want) :
    (w.saveFd fd).Inv c₀ (want.note fd (look w.fds fd)) := by
  rcases w.saveFd_cases fd with heq | ⟨file, s, hfile, hs, heq⟩
  · rw [heq]
    exact h.note rfl
  · obtain ⟨hrange, hfree⟩ := lowestFree_spec hs
    rw [heq, hfile]
    refine h.saveAt hfile hrange hfree (hapart ?_ s hs)
    rw [hfile]
    rfl

theorem Walk.saved_saveFd_withSt (w : Walk σ) (st : σ) (fd : BitVec 32) :
    (({ w with st := st } : Walk σ).saveFd fd).saved
      = (w.saveFd fd).saved := by
  unfold Walk.saveFd
  cases w.fds.dup fd with
  | mk res p => cases res <;> rfl

/-- What a redirection can do: fail, close, duplicate or open. -/
inductive Redir.Does (env : ShellEnv σ) (r : Redir) (w : Walk σ) :
    Except ExecError Unit × Walk σ → Prop
  | fails (e : ExecError) (st : σ) : Does env r w (.error e, { w with st := st })
  | closes (st : σ) : r.outcome env w = .closes → Does env r w
        (.ok (), { w with st := st, fds := put w.fds r.targetFd none })
  | copies (st : σ) (src : BitVec 32) (file : FileRef) :
      r.outcome env w = .copies src → look w.fds src = some file →
      (FdContext.inRange r.targetFd).isSome → Does env r w
        (.ok (), { w with st := st, fds := put w.fds r.targetFd (some file) })
  | opens (st : σ) (file : FileRef) (n : BitVec 32) :
      r.outcome env w = .opens file → r.op ≠ .outBoth →
      lowestFree w.fds = some n →
      Does env r w (.ok (), ((({ w with st := st } : Walk σ).opened n file).dup2
        n r.targetFd).close n)
  | opensBoth (st : σ) (file : FileRef) (n : BitVec 32) :
      r.outcome env w = .opens file → r.op = .outBoth →
      lowestFree w.fds = some n →
      Does env r w (.ok (), ((((({ w with st := st } : Walk σ).opened n
        file).saveFd 2#32).dup2 n 1#32).dup2 n 2#32).close n)

theorem openPath_cases (env : ShellEnv σ) (path : Text) (mode : AccessMode)
    (options : FsOpenOptions) (w : Walk σ) :
    (∃ e st, openPath env path mode options w
      = (.error e, { w with st := st })) ∨
    ∃ st file n, '\x00' ∉ path ∧
      (env.sysOpen path mode options w.st) = (.ok file, st) ∧
      lowestFree w.fds = some n ∧ openPath env path mode options w
        = (.ok n, ({ w with st := st } : Walk σ).opened n file) := by
  unfold openPath
  by_cases hnul : '\x00' ∈ path
  · rw [if_pos hnul]
    exact .inl ⟨_, w.st, rfl⟩
  · rw [if_neg hnul]
    cases env.sysOpen path mode options w.st with
    | mk res st =>
      cases res with
      | error e => exact .inl ⟨_, st, rfl⟩
      | ok file =>
        dsimp only
        rcases openFile_cases w.fds file with ⟨-, heq⟩ | ⟨n, l, hfree, heq⟩
        · rw [heq]
          exact .inl ⟨_, st, rfl⟩
        · rw [heq]
          exact .inr ⟨st, file, _, hnul, rfl, hfree, rfl⟩

/-- What a redirection does to the descriptors. -/
theorem applyRedir_does (env : ShellEnv σ) (r : Redir) (w : Walk σ) :
    r.Does env (w.saveFd r.targetFd) (applyRedir env r w) := by
  unfold applyRedir
  dsimp only
  generalize w.saveFd r.targetFd = w'
  cases hexp : env.expandWordUnsplit r.sourceWord w'.st w'.fds with
  | mk res st =>
    cases res with
    | error e => exact .fails _ st
    | ok text =>
      cases hargs : r.op.openArgs with
      | none =>
        dsimp only
        unfold applyDup
        by_cases hdash : text = ['-']
        · rw [if_pos hdash]
          have hout : r.outcome env w' = .closes := by
            simp [Redir.outcome, hexp, hargs, hdash]
          have hdo := Redir.Does.closes st hout
          rw [← close_eq] at hdo
          exact hdo
        · rw [if_neg hdash]
          cases hparse : parseI32 text with
          | none => exact .fails _ st
          | some src =>
            have hout : r.outcome env w' = .copies (BitVec.ofInt 32 src) := by
              simp [Redir.outcome, hexp, hargs, hdash, hparse]
            dsimp only
            rcases dup2_cases w'.fds (BitVec.ofInt 32 src) r.targetFd
              with ⟨e, l, -, heq⟩ | ⟨file, n, l, hfile, hrange, heq⟩
            · rw [Redir.targetFd] at heq
              rw [heq]
              exact .fails _ st
            · have hdo := Redir.Does.copies st _ file hout hfile hrange
              rw [Redir.targetFd] at heq hdo
              rw [heq]
              exact hdo
      | some p =>
        obtain ⟨mode, options⟩ := p
        dsimp only
        have hout : ∀ file st', '\x00' ∉ text →
            env.sysOpen text mode options st = (.ok file, st') →
            r.outcome env w' = .opens file := by
          intro file st' hnul hopen
          simp [Redir.outcome, hexp, hargs, hnul, hopen]
        by_cases hboth : r.op = .outBoth
        · rw [if_pos hboth]
          unfold applyOutBoth
          rcases openPath_cases env text mode options
            { w' with st := st } with ⟨e, st', heq⟩ |
              ⟨st', file, n, hnul, hopen, hfree, heq⟩
          · rw [heq]
            exact .fails e st'
          · rw [heq]
            exact .opensBoth st' file n (hout file st' hnul hopen) hboth hfree
        · rw [if_neg hboth]
          unfold openPathTo
          rcases openPath_cases env text mode options
            { w' with st := st } with ⟨e, st', heq⟩ |
              ⟨st', file, n, hnul, hopen, hfree, heq⟩
          · rw [heq]
            exact .fails e st'
          · rw [heq]
            exact .opens st' file n (hout file st' hnul hopen) hboth hfree

theorem Walk.Inv.inRange {c₀ : FdContext} {want : Want} {w : Walk σ}
    (h : w.Inv c₀ want) {fd : BitVec 32} (hheld : w.Held fd) :
    (FdContext.inRange fd).isSome := by
  have hundo := h.undo
  unfold Walk.Held at hheld
  revert hundo hheld
  generalize w.saved = saved
  generalize w.fds = c
  induction saved generalizing c with
  | nil => exact fun hmem _ => by cases hmem
  | cons p rest ih =>
    intro hmem hundo
    obtain ⟨target, s⟩ := p
    obtain ⟨f, -, -, hrange, hrest⟩ := hundo
    rcases List.mem_cons.mp hmem with heq | hmem
    · rw [heq]
      exact hrange
    · exact ih _ hmem hrest

theorem Walk.Inv.withSt {c₀ : FdContext} {want : Want} {w : Walk σ}
    (h : w.Inv c₀ want) (st : σ) : ({ w with st := st } : Walk σ).Inv c₀ want :=
  ⟨h.undo, h.shield, h.named, h.inside⟩

theorem Walk.dup2_eq {w : Walk σ} {oldfd newfd : BitVec 32} {file : FileRef}
    (hfile : look w.fds oldfd = some file)
    (hrange : (FdContext.inRange newfd).isSome) :
    w.dup2 oldfd newfd = { w with fds := put w.fds newfd (some file) } := by
  unfold Walk.dup2
  rcases dup2_cases w.fds oldfd newfd with ⟨e, l, hbad, -⟩ | ⟨f, n, l, hf, -, heq⟩
  · rcases hbad with hbad | hbad
    · rw [hfile] at hbad
      cases hbad
    · rw [hbad] at hrange
      cases hrange
  · rw [hfile, Option.some.injEq] at hf
    rw [heq, hf]

theorem Walk.close_eq (w : Walk σ) (fd : BitVec 32) :
    w.close fd = { w with fds := put w.fds fd none } := by
  unfold Walk.close
  rw [Shell.close_eq]

theorem Walk.moved_eq {w : Walk σ} {n fd : BitVec 32} (file : FileRef)
    (hn : lowestFree w.fds = some n) (hne : n ≠ fd)
    (hrange : (FdContext.inRange fd).isSome) :
    ((w.opened n file).dup2 n fd).close n
      = { w with fds := put w.fds fd (some file) } := by
  obtain ⟨hrangeN, hfree⟩ := lowestFree_spec hn
  have hfile : look (w.opened n file).fds n = some file :=
    look_put_self hrangeN _
  rw [Walk.dup2_eq hfile hrange, Walk.close_eq]
  dsimp only [Walk.opened]
  rw [put_put_comm _ (Ne.symm hne), put_put_self, ← hfree, put_look]

theorem Walk.movedBoth_eq {w : Walk σ} {n : BitVec 32} {file : FileRef}
    (hfile : look w.fds n = some file) (hne1 : n ≠ 1#32) (hne2 : n ≠ 2#32) :
    ((w.dup2 n 1#32).dup2 n 2#32).close n = { w with
      fds := put (put (put w.fds n none) 1#32 (some file)) 2#32
        (some file) } := by
  have hfile1 : look (put w.fds 1#32 (some file)) n = some file := by
    rw [look_put_of_ne _ hne1]
    exact hfile
  rw [Walk.dup2_eq hfile rfl, Walk.dup2_eq hfile1 rfl, Walk.close_eq]
  rw [put_put_comm _ (Ne.symm hne2), put_put_comm _ (Ne.symm hne1)]

theorem Walk.Inv.both {c₀ : FdContext} {want : Want} {w : Walk σ}
    (h : w.Inv c₀ want) {n : BitVec 32} {file : FileRef}
    (hn : lowestFree w.fds = some n) (hne1 : n ≠ 1#32) (hne2 : n ≠ 2#32)
    (hheld : w.Held 1#32) (hapart : (w.opened n file).SavesApart 2#32 want)
    (hheld2 : ((w.opened n file).saveFd 2#32).Held 2#32) :
    (((((w.opened n file).saveFd 2#32).dup2 n 1#32).dup2 n 2#32).close
      n).Inv c₀ ((want.note 1#32 (some file)).note 2#32 (some file)) := by
  obtain ⟨hrange, hfree⟩ := lowestFree_spec hn
  have hgone : put (put w.fds n (some file)) n none = w.fds := by
    rw [put_put_self, ← hfree, put_look]
  have hfile : look (w.opened n file).fds n = some file :=
    look_put_self hrange _
  rcases (w.opened n file).saveFd_cases 2#32 with heq | ⟨g, s, hg, hs, heq⟩
  · rw [heq] at hheld2 ⊢
    rw [Walk.movedBoth_eq hfile hne1 hne2]
    dsimp only [Walk.opened]
    rw [hgone]
    have hout := h.replace hheld rfl (some file)
    exact hout.replace hheld2 rfl (some file)
  · obtain ⟨hrangeS, hfreeS⟩ := lowestFree_spec hs
    have hsn : s ≠ n := by
      intro hsn
      rw [hsn, hfile] at hfreeS
      cases hfreeS
    have hg' : look w.fds 2#32 = some g := by
      rw [← look_put_of_ne w.fds (Ne.symm hne2) (some file)]
      exact hg
    have hfreeS' : look w.fds s = none := by
      rw [← look_put_of_ne w.fds hsn (some file)]
      exact hfreeS
    have hwant : want s = none := hapart (by rw [hg]; rfl) s hs
    have hsave := h.saveAt hg' hrangeS hfreeS' hwant
    have hfile' : look (put (put w.fds n (some file)) s (some g)) n
        = some file := by
      rw [look_put_of_ne _ (Ne.symm hsn)]
      exact hfile
    rw [heq, Walk.movedBoth_eq hfile' hne1 hne2]
    dsimp only [Walk.opened]
    rw [put_put_comm _ hsn, hgone]
    have hout := hsave.replace (List.mem_cons_of_mem _ hheld) rfl (some file)
    rw [← Want.note_note_self (want.note 1#32 (some file)) 2#32 (some g),
      want.note_comm (by decide)]
    exact hout.replace List.mem_cons_self rfl (some file)

/-- A redirection that is safe keeps what was saved. -/
theorem Walk.Inv.step {c₀ : FdContext} {want : Want} {w w₁ : Walk σ}
    (h : w.Inv c₀ want) {env : ShellEnv σ} {r : Redir}
    (hsafe : r.Safe env w want) (happ : applyRedir env r w = (.ok (), w₁)) :
    w₁.Inv c₀ (r.noteMade env w want) := by
  obtain ⟨hapart, hsafe⟩ := hsafe
  have hsaved := h.save hapart
  have hdo := applyRedir_does env r w
  rw [happ] at hdo
  unfold Redir.noteMade
  dsimp only
  cases hdo with
  | closes st hout =>
    rw [hout] at hsafe ⊢
    rcases hsafe with hclosed | hheld
    · have heq : put (w.saveFd r.targetFd).fds r.targetFd none
          = (w.saveFd r.targetFd).fds := by
        rw [← hclosed, put_look]
      rw [heq, ← want.note_note_self r.targetFd (look w.fds r.targetFd)]
      exact (hsaved.note hclosed).withSt st
    · rw [← want.note_note_self r.targetFd (look w.fds r.targetFd)]
      exact (hsaved.replace hheld (hsaved.inRange hheld) none).withSt st
  | copies st src file hout hfile hrange =>
    rw [hout] at hsafe ⊢
    dsimp only at hsafe ⊢
    rw [hfile] at hsafe ⊢
    rcases hsafe with hsame | hheld
    · have heq : put (w.saveFd r.targetFd).fds r.targetFd (some file)
          = (w.saveFd r.targetFd).fds := by
        rw [hsame, put_look]
      rw [heq, ← want.note_note_self r.targetFd (look w.fds r.targetFd)]
      exact (hsaved.note hsame.symm).withSt st
    · rw [← want.note_note_self r.targetFd (look w.fds r.targetFd)]
      exact (hsaved.replace hheld hrange _).withSt st
  | opens st file n hout hop hfree =>
    rw [hout] at hsafe ⊢
    dsimp only at hsafe ⊢
    have hthis := hsafe n hfree
    rw [if_neg hop] at hthis ⊢
    obtain ⟨hne, hheld⟩ := hthis
    have hrange := hsaved.inRange hheld
    have hmoved := Walk.moved_eq (w := { w.saveFd r.targetFd with st := st })
      file hfree hne hrange
    rw [hmoved, ← want.note_note_self r.targetFd (look w.fds r.targetFd)]
    exact (hsaved.replace hheld hrange _).withSt st
  | opensBoth st file n hout hop hfree =>
    rw [hout] at hsafe ⊢
    dsimp only at hsafe ⊢
    have hthis := hsafe n hfree
    rw [if_pos hop] at hthis ⊢
    obtain ⟨htarget, hne1, hne2, hheld, hapart2, hheld2⟩ := hthis
    rw [htarget] at hsaved hheld hapart2 hheld2 hfree hapart ⊢
    rw [← want.note_note_self 1#32 (look w.fds 1#32)]
    have hheld2' : ((({ w.saveFd 1#32 with st := st } : Walk σ).opened n
        file).saveFd 2#32).Held 2#32 := by
      unfold Walk.Held at hheld2 ⊢
      rw [← Walk.saved_saveFd_withSt _ st] at hheld2
      exact hheld2
    refine (hsaved.withSt st).both hfree hne1 hne2 hheld ?_ hheld2'
    -- The second save does not go to a closed standard output either.
    intro hopen s hs
    have hwant := hapart2 hopen s hs
    rw [want.note_of_ne ?_]
    · exact hwant
    · intro heq
      subst heq
      have hclosed := (lowestFree_spec hs).2
      dsimp only [Walk.opened] at hclosed
      rw [look_put_of_ne _ (Ne.symm hne1), Walk.look_saveFd] at hclosed
      rcases w.saveFd_cases 1#32 with hsame | ⟨f, s, hf, -, -⟩
      · rw [hsame] at hheld
        have hnamed := h.named 1#32 hheld
        rw [hwant] at hnamed
        cases hnamed
      · rw [hclosed] at hf
        cases hf

-- ======== the result

theorem undo_applyRedir_error {c₀ : FdContext} {env : ShellEnv σ} {r : Redir}
    {w w₁ : Walk σ} {e : ExecError} (h : Undo c₀ w.saved w.fds)
    (happ : applyRedir env r w = (.error e, w₁)) : Undo c₀ w₁.saved w₁.fds := by
  have hdo := applyRedir_does env r w
  rw [happ] at hdo
  cases hdo with
  | fails e st => exact Walk.undo_saveFd h r.targetFd

/-- One redirection after the other, what was saved can be restored. -/
theorem Walk.Inv.applyRedirs {c₀ : FdContext} (env : ShellEnv σ) :
    ∀ {redirs : List Redir} {w : Walk σ} {want : Want}, w.Inv c₀ want →
      Guarded (redirStep env) (fun s r => r.Safe env s.1 s.2) (w, want)
        redirs →
      (∀ w₁, applyRedirs env redirs w = (.ok (), w₁) →
        w₁.Inv c₀ (lastMade env redirs w want)) ∧
      ∀ e w₁, applyRedirs env redirs w = (.error e, w₁) →
        Undo c₀ w₁.saved w₁.fds := by
  intro redirs
  induction redirs with
  | nil =>
    intro w want h _
    refine ⟨fun w₁ heq => ?_, fun e w₁ heq => ?_⟩
    · simp only [Shell.applyRedirs, Prod.mk.injEq, true_and] at heq
      exact heq ▸ h
    · simp [Shell.applyRedirs] at heq
  | cons r rest ih =>
    intro w want h hguard
    simp only [Guarded, redirStep] at hguard
    simp only [Shell.applyRedirs, lastMade]
    cases happ : applyRedir env r w with
    | mk res w' =>
      cases res with
      | error e =>
        refine ⟨fun w₁ heq => ?_, fun e' w₁ heq => ?_⟩
        · simp at heq
        · simp only [Prod.mk.injEq] at heq
          rw [← heq.2]
          exact undo_applyRedir_error h.undo happ
      | ok u =>
        simp only [happ] at hguard
        obtain ⟨hsafe, hrest⟩ := hguard
        exact ih (h.step hsafe happ) hrest

/-- If every redirection that succeeds is safe in the state it is applied
in, then redirections are scoped. -/
theorem redirs_scoped (env : ShellEnv σ) (redirs : List Redir) (st : σ)
    (c : FdContext) (hsafe : RedirsSafe env redirs st c) :
    Scoped env redirs st c := by
  have hinit : (⟨st, c, []⟩ : Walk σ).Inv c (fun _ => none) := by
    refine ⟨rfl, ?_, ?_, ?_⟩
    · exact nofun
    · exact nofun
    · exact nofun
  obtain ⟨hok, herr⟩ := hinit.applyRedirs env hsafe
  refine ⟨fun w happ fd file hlast => (hok w happ).inside fd file hlast, ?_⟩
  intro α f hf
  unfold withRedirs
  cases happ : applyRedirs env redirs ⟨st, c, []⟩ with
  | mk res w =>
    cases res with
    | error e => exact restore_of_undo (herr e w happ)
    | ok u =>
      dsimp only
      rw [hf]
      exact restore_of_undo (hok w happ).undo

/-- Words without expansions, and a world in which every file can be
opened. -/
def plainEnv : ShellEnv Unit where
  expandWordUnsplit := fun w _ _ =>
    (.ok (w.flatMap fun seg => seg.casesOn (fun text => text) (fun text => text)
      (fun _ => []) (fun _ _ _ _ => []) (fun _ => []) (fun _ => [])
      (fun _ => [])), ())
  sysOpen := fun _ _ _ _ => (.ok 100, ())

def standardFds : FdContext where
  openFiles := fun fd => if fd.val < 3 then some fd.val else none
  closeOnExec := 0#32

/-- `>log 2>&1` -/
theorem redirs_scoped_output_and_error :
    Scoped plainEnv [⟨none, .out, .file [.lit "log".toList]⟩,
      ⟨some 2, .dupOut, .fd [.lit ['1']]⟩] () standardFds := by
  apply redirs_scoped
  -- Output is saved at 3, the log passes through 4, error is saved at 4.
  refine ⟨⟨?_, ?_⟩, ⟨?_, ?_⟩, trivial⟩
  · exact fun _ s _ => rfl
  · intro n hn
    have hfour : some 4#32 = some n := hn
    refine ⟨?_, List.mem_cons_self⟩
    rw [← Option.some.inj hfour]
    decide
  · intro _ s hs
    have hfour : some 4#32 = some s := hs
    rw [← Option.some.inj hfour]
    decide
  · exact .inr List.mem_cons_self

/-- `3>log` opens the log at descriptor 3 and closes it again. -/
theorem redirs_not_scoped_lowest_free :
    ¬ Scoped plainEnv [⟨some 3, .out, .file [.lit "log".toList]⟩] ()
      standardFds := by
  intro h
  have hseen := h.inside _ rfl 3#32 (some 100) (by decide)
  exact absurd hseen (by decide)

end LinuxRs.Shell
