/-
Redirections around a command (user_program/src/bin/sh/exec.rs:
`with_redirs`, `apply_redir`, `open_path_to`), over the descriptor calls
of the kernel (`Fs.Descriptor`).

The second half states the descriptor calls once in terms of `look` and
`put`; nothing above it unfolds the kernel's table again.
-/
import LinuxRs.Fs.Descriptor
import LinuxRs.Shell.Text

namespace LinuxRs.Shell

open LinuxRs.Fs (FdContext FdErrno FileRef Fd taskOpenFilesLimit)

-- ======== the calls

/-- `AccessMode`, as far as redirections use it. -/
inductive AccessMode
  | readOnly
  | writeOnly

/-- `FsOpenOptions`, as far as redirections use it. -/
structure FsOpenOptions where
  create : Bool
  truncate : Bool
  append : Bool

inductive ExecError
  | exit (status : Int)
  | ret (status : Int)
  | brk (n : Nat)
  | cont (n : Nat)
  | fatal (msg : Text)

/-- What redirections call: the expansion of a word, which may look at
the descriptors (a command substitution does) but gives back those it
opens, and `sys_open` up to the descriptor. `σ` is the shell's state and
the rest of the world. -/
structure ShellEnv (σ : Type) where
  expandWordUnsplit : Word → σ → FdContext → Except Text Text × σ
  sysOpen : Text → AccessMode → FsOpenOptions → σ → Except Nat FileRef × σ

/-- Where `with_redirs` stands: `saved` is newest first. -/
structure Walk (σ : Type) where
  st : σ
  fds : FdContext
  saved : List (BitVec 32 × BitVec 32)

variable {σ α : Type}

/-- The errno of a failed `add_file`, `Errno::MFILE`. -/
def errnoMfile : Nat := 24

def cannotOpen (path : Text) (errno : Nat) : ExecError :=
  .fatal ("cannot open ".toList ++ path ++ ": Errno(".toList ++ showNat errno
    ++ ")".toList)

def openPath (env : ShellEnv σ) (path : Text) (mode : AccessMode)
    (options : FsOpenOptions) (w : Walk σ) :
    Except ExecError (BitVec 32) × Walk σ :=
  if '\x00' ∈ path then (.error (.fatal "path has NUL".toList), w)
  else
    match env.sysOpen path mode options w.st with
    | (.error e, st) => (.error (cannotOpen path e), { w with st := st })
    | (.ok file, st) =>
      match w.fds.openFile file with
      | (.error _, fds, _) =>
        (.error (cannotOpen path errnoMfile), { w with st := st, fds := fds })
      | (.ok fd, fds, _) =>
        (.ok (BitVec.ofNat 32 fd), { w with st := st, fds := fds })

/-- `syscall::fs::dup2`, with the result dropped. -/
def Walk.dup2 (w : Walk σ) (oldfd newfd : BitVec 32) : Walk σ :=
  { w with fds := (w.fds.dup2 oldfd newfd).2.1 }

/-- `syscall::fs::close`, with the result dropped. -/
def Walk.close (w : Walk σ) (fd : BitVec 32) : Walk σ :=
  { w with fds := (w.fds.close fd).2 }

def openPathTo (env : ShellEnv σ) (path : Text) (targetFd : BitVec 32)
    (mode : AccessMode) (options : FsOpenOptions) (w : Walk σ) :
    Except ExecError Unit × Walk σ :=
  match openPath env path mode options w with
  | (.error e, w) => (.error e, w)
  | (.ok newFd, w) => (.ok (), (w.dup2 newFd targetFd).close newFd)

/-- `if let Ok(s) = dup(fd) { saved.push((fd, s)) }`. -/
def Walk.saveFd (w : Walk σ) (fd : BitVec 32) : Walk σ :=
  match w.fds.dup fd with
  | (.ok s, fds, _) =>
    { w with fds := fds, saved := (fd, BitVec.ofNat 32 s) :: w.saved }
  | (.error _, fds, _) => { w with fds := fds }

def RedirOp.defaultFd : RedirOp → Nat
  | .read => 0
  | .dupIn => 0
  | .out => 1
  | .append => 1
  | .dupOut => 1
  | .clobber => 1
  | .outBoth => 1

def Redir.targetFd (r : Redir) : BitVec 32 :=
  BitVec.ofNat 32 (r.fd.getD r.op.defaultFd)

def Redir.sourceWord (r : Redir) : Word :=
  match r.target with
  | .file w => w
  | .fd w => w

/-- The access mode and the options of an operator that opens a file. -/
def RedirOp.openArgs : RedirOp → Option (AccessMode × FsOpenOptions)
  | .read => some (.readOnly, ⟨false, false, false⟩)
  | .out => some (.writeOnly, ⟨true, true, false⟩)
  | .clobber => some (.writeOnly, ⟨true, true, false⟩)
  | .append => some (.writeOnly, ⟨true, false, true⟩)
  | .outBoth => some (.writeOnly, ⟨true, true, false⟩)
  | .dupOut => none
  | .dupIn => none

def applyOutBoth (env : ShellEnv σ) (path : Text) (mode : AccessMode)
    (options : FsOpenOptions) (w : Walk σ) : Except ExecError Unit × Walk σ :=
  match openPath env path mode options w with
  | (.error e, w) => (.error e, w)
  | (.ok newFd, w) =>
    let w := w.saveFd 2#32
    let w := w.dup2 newFd 1#32
    let w := w.dup2 newFd 2#32
    (.ok (), w.close newFd)

/-- The arm of `RedirOp::DupOut` and `RedirOp::DupIn`. -/
def applyDup (text : Text) (target : Nat) (w : Walk σ) :
    Except ExecError Unit × Walk σ :=
  if text = ['-'] then (.ok (), w.close (BitVec.ofNat 32 target))
  else
    match parseI32 text with
    | none => (.error (.fatal ("bad fd: ".toList ++ text)), w)
    | some src =>
      match w.fds.dup2 (BitVec.ofInt 32 src) (BitVec.ofNat 32 target) with
      | (.error _, fds, _) =>
        (.error (.fatal (showNat target ++ ": bad fd ".toList
          ++ showInt src)), { w with fds := fds })
      | (.ok _, fds, _) => (.ok (), { w with fds := fds })

def applyRedir (env : ShellEnv σ) (r : Redir) (w : Walk σ) :
    Except ExecError Unit × Walk σ :=
  let w := w.saveFd r.targetFd
  match env.expandWordUnsplit r.sourceWord w.st w.fds with
  | (.error e, st) => (.error (.fatal e), { w with st := st })
  | (.ok text, st) =>
    let w := { w with st := st }
    match r.op.openArgs with
    | some (mode, options) =>
      if r.op = .outBoth then applyOutBoth env text mode options w
      else openPathTo env text r.targetFd mode options w
    | none => applyDup text (r.fd.getD r.op.defaultFd) w

def applyRedirs (env : ShellEnv σ) :
    List Redir → Walk σ → Except ExecError Unit × Walk σ
  | [], w => (.ok (), w)
  | r :: rest, w =>
    match applyRedir env r w with
    | (.error e, w) => (.error e, w)
    | (.ok (), w) => applyRedirs env rest w

def restore : List (BitVec 32 × BitVec 32) → FdContext → FdContext
  | [], c => c
  | (target, saved) :: rest, c =>
    restore rest (((c.dup2 saved target).2.1).close saved).2

def withRedirs (env : ShellEnv σ) (redirs : List Redir)
    (f : σ → FdContext → Except ExecError α × σ × FdContext)
    (st : σ) (c : FdContext) : Except ExecError α × σ × FdContext :=
  match applyRedirs env redirs ⟨st, c, []⟩ with
  | (.error e, w) => (.error e, w.st, restore w.saved w.fds)
  | (.ok (), w) =>
    let (result, st, c) := f w.st w.fds
    (result, st, restore w.saved c)

-- ======== the descriptors

def look (c : FdContext) (fd : BitVec 32) : Option FileRef :=
  (FdContext.inRange fd).bind c.openFiles

def put (c : FdContext) (fd : BitVec 32) (file : Option FileRef) : FdContext :=
  match FdContext.inRange fd with
  | some i => c.install i file
  | none => c

def lowestFree (c : FdContext) : Option (BitVec 32) :=
  (c.firstFree 0).map fun fd => BitVec.ofNat 32 fd.val

theorem inRange_ofNat (i : Fd) :
    FdContext.inRange (BitVec.ofNat 32 i.val) = some i := by
  have hi := i.isLt
  have hval : (BitVec.ofNat 32 i.val).toNat = i.val := by
    rw [BitVec.toNat_ofNat]
    unfold taskOpenFilesLimit at hi
    omega
  unfold FdContext.inRange
  rw [dif_pos (by rw [hval]; exact hi)]
  simp only [Option.some.injEq]
  exact Fin.ext hval

theorem inRange_inj {a b : BitVec 32} {i : Fd}
    (ha : FdContext.inRange a = some i) (hb : FdContext.inRange b = some i) :
    a = b := by
  unfold FdContext.inRange at ha hb
  simp only [Option.dite_none_right_eq_some, Option.some.injEq] at ha hb
  obtain ⟨_, ha⟩ := ha
  obtain ⟨_, hb⟩ := hb
  apply BitVec.eq_of_toNat_eq
  rw [← hb, Fin.mk.injEq] at ha
  exact ha

theorem inRange_of_look {c : FdContext} {fd : BitVec 32} {file : FileRef}
    (h : look c fd = some file) : (FdContext.inRange fd).isSome := by
  obtain ⟨i, hi, -⟩ := Option.bind_eq_some_iff.mp h
  rw [hi]
  rfl

theorem look_put_self {c : FdContext} {fd : BitVec 32}
    (h : (FdContext.inRange fd).isSome) (file : Option FileRef) :
    look (put c fd file) fd = file := by
  obtain ⟨i, hi⟩ := Option.isSome_iff_exists.mp h
  simp [look, put, hi, FdContext.install]

theorem look_put_of_ne (c : FdContext) {fd fd' : BitVec 32} (h : fd' ≠ fd)
    (file : Option FileRef) : look (put c fd file) fd' = look c fd' := by
  unfold look put
  cases hi : FdContext.inRange fd with
  | none => rfl
  | some i =>
    cases hj : FdContext.inRange fd' with
    | none => rfl
    | some j =>
      have hne : j ≠ i := by
        intro heq
        subst heq
        exact h (inRange_inj hj hi)
      simp [FdContext.install, hne]

theorem put_put_self (c : FdContext) (fd : BitVec 32)
    (a b : Option FileRef) : put (put c fd a) fd b = put c fd b := by
  unfold put
  cases FdContext.inRange fd with
  | none => rfl
  | some i => simp [FdContext.install]

theorem put_put_comm (c : FdContext) {fd fd' : BitVec 32} (h : fd ≠ fd')
    (a b : Option FileRef) :
    put (put c fd a) fd' b = put (put c fd' b) fd a := by
  unfold put
  cases hi : FdContext.inRange fd with
  | none => cases FdContext.inRange fd' <;> rfl
  | some i =>
    cases hj : FdContext.inRange fd' with
    | none => rfl
    | some j =>
      have hne : i ≠ j := by
        intro heq
        subst heq
        exact h (inRange_inj hi hj)
      simp only [FdContext.install]
      rw [Function.update_comm hne]

theorem put_look (c : FdContext) (fd : BitVec 32) :
    put c fd (look c fd) = c := by
  unfold put look
  cases FdContext.inRange fd with
  | none => rfl
  | some i => simp [FdContext.install]

theorem lookupFile_eq (c : FdContext) (fd : BitVec 32) :
    (c.lookupFile fd).map Prod.snd = look c fd := by
  unfold FdContext.lookupFile look
  cases FdContext.inRange fd with
  | none => rfl
  | some i => cases hfile : c.openFiles i <;> simp [hfile]

theorem lowestFree_spec {c : FdContext} {fd : BitVec 32}
    (h : lowestFree c = some fd) :
    (FdContext.inRange fd).isSome ∧ look c fd = none := by
  obtain ⟨i, hi, hfd⟩ := Option.map_eq_some_iff.mp h
  subst hfd
  have hfree := List.find?_some hi
  simp only [Nat.zero_le, true_and, Option.isNone_iff_eq_none,
    decide_eq_true_eq] at hfree
  unfold look
  rw [inRange_ofNat]
  exact ⟨rfl, hfree⟩

theorem openFile_cases (c : FdContext) (file : FileRef) :
    (lowestFree c = none ∧ c.openFile file = (.error .mfile, c, [])) ∨
    ∃ n installed, lowestFree c = some (BitVec.ofNat 32 n) ∧
      c.openFile file = (.ok n, put c (BitVec.ofNat 32 n) (some file),
        installed) := by
  unfold FdContext.openFile FdContext.addFile lowestFree
  cases hfree : c.firstFree 0 with
  | none => exact .inl ⟨rfl, rfl⟩
  | some i =>
    refine .inr ⟨i.val, [i], rfl, ?_⟩
    simp only [Option.map_some, put, inRange_ofNat]

theorem dup_cases (c : FdContext) (fd : BitVec 32) :
    (∃ e installed, (look c fd = none ∨ lowestFree c = none) ∧
      c.dup fd = (.error e, c, installed)) ∨
    ∃ file n installed, look c fd = some file ∧
      lowestFree c = some (BitVec.ofNat 32 n) ∧
      c.dup fd = (.ok n, put c (BitVec.ofNat 32 n) (some file),
        installed) := by
  have hlook := lookupFile_eq c fd
  unfold FdContext.dup
  cases hfile : c.lookupFile fd with
  | none =>
    rw [hfile, Option.map_none] at hlook
    exact .inl ⟨.badf, [], .inl hlook.symm, rfl⟩
  | some p =>
    obtain ⟨i, file⟩ := p
    rw [hfile, Option.map_some] at hlook
    rcases openFile_cases c file with ⟨hfree, heq⟩ | ⟨n, l, hfree, heq⟩
    · exact .inl ⟨.mfile, [], .inr hfree, heq⟩
    · exact .inr ⟨file, n, l, hlook.symm, hfree, heq⟩

theorem dup2_cases (c : FdContext) (oldfd newfd : BitVec 32) :
    (∃ e installed, (look c oldfd = none ∨ FdContext.inRange newfd = none) ∧
      c.dup2 oldfd newfd = (.error e, c, installed)) ∨
    ∃ file n installed, look c oldfd = some file ∧
      (FdContext.inRange newfd).isSome ∧
      c.dup2 oldfd newfd = (.ok n, put c newfd (some file), installed) := by
  have hlook := lookupFile_eq c oldfd
  unfold FdContext.dup2
  cases hfile : c.lookupFile oldfd with
  | none =>
    rw [hfile, Option.map_none] at hlook
    exact .inl ⟨.badf, [], .inl hlook.symm, rfl⟩
  | some p =>
    obtain ⟨i, file⟩ := p
    rw [hfile, Option.map_some] at hlook
    dsimp only at hlook ⊢
    by_cases heq : oldfd = newfd
    · rw [if_pos heq]
      refine .inr ⟨file, newfd.toNat, [], hlook.symm, ?_, ?_⟩
      · exact heq ▸ inRange_of_look hlook.symm
      · rw [← heq, hlook, put_look]
    · rw [if_neg heq]
      cases hrange : FdContext.inRange newfd with
      | none => exact .inl ⟨.badf, [], .inr rfl, rfl⟩
      | some j =>
        refine .inr ⟨file, newfd.toNat, [j], hlook.symm, rfl, ?_⟩
        simp only [put, hrange]

theorem close_eq (c : FdContext) (fd : BitVec 32) :
    (c.close fd).2 = put c fd none := by
  unfold FdContext.close FdContext.lookupFile put
  cases hrange : FdContext.inRange fd with
  | none => rfl
  | some i =>
    cases hfile : c.openFiles i with
    | none =>
      simp only [Option.bind_some, hfile, Option.map_none, FdContext.install]
      rw [← hfile, Function.update_eq_self]
    | some file => simp [hfile]

end LinuxRs.Shell
