/-
The executor of the shell (user_program/src/bin/sh/exec.rs: `run_cmd`,
`run_simple`; builtin.rs: `dispatch`).

# The call stack

`run_cmd` calls itself at a dozen places, most of them inside a closure of
`with_redirs`. Here the calls that have not returned are a list of frames,
the innermost first: `begin` is what a call does before its first inner
call, and `Frame.resume` what the caller does with the result. A frame that
runs nothing more is a `Scope`. Each is one place of the source where a
result comes back, and what it does with an error is the `?` or the `match`
of that place.

# What is not here

A fork gives another process: what it does with its copy of the shell, and
what programs and the builtins that always return a status do, is the
environment's. So is the expansion of words (`Expand` is one instance). What
is printed goes to the world.
-/
import LinuxRs.Shell.Alias
import LinuxRs.Shell.Expand
import LinuxRs.Shell.Parser
import LinuxRs.Shell.Redirect

namespace LinuxRs.Shell

open LinuxRs.Fs (FdContext)

-- ======== process

/-- What the process can change: its state, and the world around it. -/
structure Proc (ω : Type) where
  st : State
  world : ω

/-- The shell's state, the world outside and the descriptors. -/
structure Shell (ω : Type) where
  st : State
  world : ω
  fds : FdContext

variable {ω : Type}

namespace Shell

def proc (sh : Shell ω) : Proc ω := ⟨sh.st, sh.world⟩

def withProc (sh : Shell ω) (p : Proc ω) : Shell ω := ⟨p.st, p.world, sh.fds⟩

def modify (sh : Shell ω) (f : State → State) : Shell ω :=
  { sh with st := f sh.st }

end Shell

abbrev Status := Except ExecError Int

/-- What execution asks of the rest of the shell. -/
structure ExecEnv (ω : Type) where
  redir : ShellEnv (Proc ω)
  expandWord : Word → Proc ω → FdContext → Except Text (List Text) × Proc ω
  report : Text → Proc ω → Proc ω
  readToString : Text → Proc ω → Option Text × Proc ω
  builtin : Text → List Text → Shell ω → Option (Int × Shell ω)
  runExternalLookup : Text → List Text → Shell ω → Except Text Int × Shell ω
  runPipeline : List Cmd → Shell ω → Except Text Int × Shell ω
  runInBackground : Cmd → Shell ω → Except Text Nat × Shell ω
  runSubshell : Cmd → List Redir → Shell ω → Except Text Int × Shell ω
  parseRounds : Nat
  message : ParseError → Text

/-- `Expand`'s expansion of a word, as the executor calls it. -/
def expandFields (env : ExpandEnv) (w : Word) (p : Proc ω) (_ : FdContext) :
    Except Text (List Text) × Proc ω :=
  let r := Shell.expandWord env w p.st
  (r.1, { p with st := r.2 })

def expandString (env : ExpandEnv) (w : Word) (p : Proc ω) (_ : FdContext) :
    Except Text Text × Proc ω :=
  let r := Shell.expandWordUnsplit env w p.st
  (r.1, { p with st := r.2 })

-- ======== frames

/-- An entry of `tmp_env`: the name, the new value, and whether it was
set. -/
structure Temporary where
  name : Text
  value : Text
  wasSet : Bool

def revert (tmpEnv : List Temporary) (st : State) : State :=
  tmpEnv.reverse.foldl
    (fun st t => if t.wasSet then st.set t.name t.value else st.unset t.name) st

inductive Scope
  /-- The end of `run_cmd`. -/
  | done
  /-- `!` before a pipeline. -/
  | negate (negated : Bool)
  /-- The end of `with_redirs`. -/
  | redirs (saved : List (BitVec 32 × BitVec 32))
  /-- Around the body of a function. -/
  | catchReturn
  /-- After a function, or a script that has its own parameters. -/
  | positionals (prev : List Text)
  /-- After a builtin that is not special. -/
  | revertBuiltin (tmpEnv : List Temporary)
  /-- After an external command. -/
  | revertExternal (tmpEnv : List Temporary)

/-- A call of `run_cmd` that waits for another. -/
inductive Frame
  | scope (s : Scope)
  | andOr (op : AndOrOp) (right : Cmd)
  | items (rest : List (Cmd × Sep))
  | cond (thenCmd : Cmd) (elifs : List (Cmd × Cmd)) (els : Option Cmd)
  | whileCond (cond body : Cmd) (untilDo : Bool) (last : Int)
  | whileBody (cond body : Cmd) (untilDo : Bool) (last : Int)
  | forBody (var : Text) (body : Cmd) (items : List Text) (last : Int)

def Scope.leave : Scope → Status → Shell ω → Status × Shell ω
  | .done, .ok s, sh => (.ok s, sh.modify fun st => { st with lastStatus := s })
  | .negate negated, .ok s, sh =>
    (.ok (if negated then if s = 0 then 1 else 0 else s), sh)
  | .redirs saved, r, sh => (r, { sh with fds := restore saved sh.fds })
  | .catchReturn, .error (.ret s), sh => (.ok s, sh)
  | .positionals prev, r, sh =>
    (r, sh.modify fun st => { st with params := prev })
  | .revertBuiltin tmpEnv, .ok s, sh => (.ok s, sh.modify (revert tmpEnv))
  | .revertExternal tmpEnv, r, sh => (r, sh.modify (revert tmpEnv))
  | _, r, sh => (r, sh)

/-- What a piece of the executor comes to: a result, another call of
`run_cmd` with what waits for it, or nothing, where the process ends or does
not return. -/
inductive Next (ω : Type)
  | ret (r : Status) (sh : Shell ω)
  | enter (c : Cmd) (frames : List Frame) (sh : Shell ω)
  | gone

def Next.within (n : Next ω) (s : Scope) : Next ω :=
  match n with
  | .ret r sh => .ret (s.leave r sh).1 (s.leave r sh).2
  | .enter c frames sh => .enter c (frames ++ [.scope s]) sh
  | .gone => .gone

def Next.ofResult (r : Except Text Int × Shell ω) : Next ω :=
  .ret (r.1.mapError .fatal) r.2

-- ======== simple parts

def inRedirs (env : ExecEnv ω) (redirs : List Redir) (sh : Shell ω)
    (f : Shell ω → Next ω) : Next ω :=
  match applyRedirs env.redir redirs ⟨sh.proc, sh.fds, []⟩ with
  | (.error e, w) =>
    .ret (.error e) ⟨w.st.st, w.st.world, restore w.saved w.fds⟩
  | (.ok (), w) => (f ⟨w.st.st, w.st.world, w.fds⟩).within (.redirs w.saved)

def expandWords (env : ExecEnv ω) :
    List Word → Shell ω → Except Text (List Text) × Shell ω
  | [], sh => (.ok [], sh)
  | w :: rest, sh =>
    match env.expandWord w sh.proc sh.fds with
    | (.error e, p) => (.error e, sh.withProc p)
    | (.ok fields, p) =>
      match expandWords env rest (sh.withProc p) with
      | (.error e, sh) => (.error e, sh)
      | (.ok more, sh) => (.ok (fields ++ more), sh)

def expandAssignmentValue (env : ExecEnv ω) (value : Word) (sh : Shell ω) :
    Except Text Text × Shell ω :=
  let r := env.redir.expandWordUnsplit value sh.proc sh.fds
  (r.1, sh.withProc r.2)

def assignAll (env : ExecEnv ω) :
    List Assignment → Shell ω → Except Text Unit × Shell ω
  | [], sh => (.ok (), sh)
  | a :: rest, sh =>
    match expandAssignmentValue env a.value sh with
    | (.error e, sh) => (.error e, sh)
    | (.ok v, sh) => assignAll env rest (sh.modify fun st => st.set a.name v)

/-- The assignments of a command with words, and `tmp_env`. -/
def assignTemporary (env : ExecEnv ω) :
    List Assignment → Shell ω → Except Text (List Temporary) × Shell ω
  | [], sh => (.ok [], sh)
  | a :: rest, sh =>
    match expandAssignmentValue env a.value sh with
    | (.error e, sh) => (.error e, sh)
    | (.ok v, sh) =>
      let was := (sh.st.get a.name).isSome
      let sh := sh.modify fun st => (st.set a.name v).exportVar a.name none
      match assignTemporary env rest sh with
      | (.error e, sh) => (.error e, sh)
      | (.ok more, sh) => (.ok (⟨a.name, v, was⟩ :: more), sh)

def isSpecialBuiltin (name : Text) : Bool :=
  ([":", ".", "source", "break", "continue", "eval", "exec", "exit",
    "export", "readonly", "return", "set", "shift", "unset"].map
      String.toList).contains name

def isBuiltin (name : Text) : Bool :=
  (["cd", "pwd", "exit", "export", "unset", "set", "shift", "read",
    "echo", "eval", "exec", ".", "source", ":", "true", "false", "break",
    "continue", "return", "umask", "type", "wait", "command", "test", "[",
    "alias", "unalias"].map String.toList).contains name

def parseStatus (arg : Option Text) (default : Int) : Int :=
  (arg.bind parseI32).getD default

def parseCount (arg : Option Text) : Nat := (max (parseStatus arg 1) 1).toNat

def runSource (env : ExecEnv ω) (src : Text) (sh : Shell ω) : Next ω :=
  match parseText env.parseRounds src with
  | .ok prog => .enter prog [] sh
  | .error .outOfFuel => .gone
  | .error e => .ret (.error (.fatal (env.message e))) sh

def builtinSource (env : ExecEnv ω) (args : List Text) (sh : Shell ω) :
    Next ω :=
  match args with
  | [] =>
    .ret (.ok 2) (sh.withProc
      (env.report ".: filename argument required".toList sh.proc))
  | path :: rest =>
    match env.readToString path sh.proc with
    | (none, p) => .ret (.ok 1) (sh.withProc p)
    | (some src, p) =>
      let sh := sh.withProc p
      if rest = [] then runSource env src sh
      else
        (runSource env src (sh.modify fun st => { st with params := rest })
          ).within (.positionals sh.st.params)

def dispatch (env : ExecEnv ω) (name : Text) (args : List Text)
    (sh : Shell ω) : Next ω :=
  if name = "exit".toList then
    .ret (.error (.exit (parseStatus args.head? sh.st.lastStatus))) sh
  else if name = "eval".toList then
    if args = [] then .ret (.ok 0) sh else runSource env (joinBlank args) sh
  else if name = ".".toList ∨ name = "source".toList then
    builtinSource env args sh
  else if name = ":".toList ∨ name = "true".toList then .ret (.ok 0) sh
  else if name = "false".toList then .ret (.ok 1) sh
  else if name = "break".toList then
    .ret (.error (.brk (parseCount args.head?))) sh
  else if name = "continue".toList then
    .ret (.error (.cont (parseCount args.head?))) sh
  else if name = "return".toList then
    .ret (.error (.ret (parseStatus args.head? sh.st.lastStatus))) sh
  else
    match env.builtin name args sh with
    | some (status, sh) => .ret (.ok status) sh
    | none => .gone

/-- `run_simple` from the choice of the function, builtin or program on. -/
def runNamed (env : ExecEnv ω) (redirs : List Redir) (tmpEnv : List Temporary)
    (name : Text) (args : List Text) (sh : Shell ω) : Next ω :=
  match (if isSpecialBuiltin name then none else sh.st.funcs.get name) with
  | some body =>
    (inRedirs env redirs (sh.modify fun st => { st with params := args })
      fun sh => .enter body [.scope .catchReturn] sh).within
        (.positionals sh.st.params)
  | none =>
    if isBuiltin name then
      let r := inRedirs env redirs sh (dispatch env name args)
      if isSpecialBuiltin name then r else r.within (.revertBuiltin tmpEnv)
    else
      (inRedirs env redirs sh fun sh =>
        .ofResult (env.runExternalLookup name (name :: args) sh)).within
          (.revertExternal tmpEnv)

/-- `run_simple`. An alias may leave no words, and then `argv[0]` panics. -/
def runSimple (env : ExecEnv ω) (cmd : SimpleCmd) (sh : Shell ω) : Next ω :=
  match expandWords env cmd.words sh with
  | (.error e, sh) => .ret (.error (.fatal e)) sh
  | (.ok [], sh) =>
    match assignAll env cmd.assigns sh with
    | (.error e, sh) => .ret (.error (.fatal e)) sh
    | (.ok (), sh) => inRedirs env cmd.redirs sh fun sh => .ret (.ok 0) sh
  | (.ok argv, sh) =>
    let argv := (expandAliases sh.st argv).map Prod.snd
    match assignTemporary env cmd.assigns sh with
    | (.error e, sh) => .ret (.error (.fatal e)) sh
    | (.ok tmpEnv, sh) =>
      match argv with
      | some (name :: args) =>
        let sh :=
          if sh.st.xtrace then
            sh.withProc (env.report
              ("+ ".toList ++ joinBlank (name :: args)) sh.proc)
          else sh
        runNamed env cmd.redirs tmpEnv name args sh
      | _ => .gone

-- ======== run_cmd

def nextItem (env : ExecEnv ω) : List (Cmd × Sep) → Int → Shell ω → Next ω
  | [], last, sh => .ret (.ok last) sh
  | (item, .seq) :: rest, _, sh => .enter item [.items rest] sh
  | (item, .bg) :: rest, _, sh =>
    match env.runInBackground item sh with
    | (.error e, sh) => .ret (.error (.fatal e)) sh
    | (.ok pid, sh) =>
      nextItem env rest 0 (sh.modify fun st => { st with lastBgPid := pid })

def nextFor (var : Text) (body : Cmd) : List Text → Int → Shell ω → Next ω
  | [], last, sh => .ret (.ok last) sh
  | v :: items, last, sh =>
    .enter body [.forBody var body items last]
      (sh.modify fun st => st.set var v)

def nextBranch : List (Cmd × Cmd) → Option Cmd → Shell ω → Next ω
  | (c, b) :: elifs, els, sh => .enter c [.cond b elifs els] sh
  | [], some e, sh => .enter e [] sh
  | [], none, sh => .ret (.ok 0) sh

/-- `run_cmd`, up to the first call of itself. -/
def begin (env : ExecEnv ω) : Cmd → Shell ω → Next ω
  | .empty, sh => .ret (.ok 0) sh
  | .simple s, sh => runSimple env s sh
  | .pipeline negated [part], sh => .enter part [.scope (.negate negated)] sh
  | .pipeline negated parts, sh =>
    (Next.ofResult (env.runPipeline parts sh)).within (.negate negated)
  | .andOr left op right, sh => .enter left [.andOr op right] sh
  | .list items, sh => nextItem env items 0 sh
  | .subshell body redirs, sh => .ofResult (env.runSubshell body redirs sh)
  | .group body redirs, sh =>
    inRedirs env redirs sh fun sh => .enter body [] sh
  | .ifThen test thenCmd elifs els redirs, sh =>
    inRedirs env redirs sh fun sh =>
      .enter test [.cond thenCmd elifs els] sh
  | .whileDo test body untilDo redirs, sh =>
    inRedirs env redirs sh fun sh =>
      .enter test [.whileCond test body untilDo 0] sh
  | .forIn var words body redirs, sh =>
    inRedirs env redirs sh fun sh =>
      match words with
      | some ws =>
        match expandWords env ws sh with
        | (.error e, sh) => .ret (.error (.fatal e)) sh
        | (.ok items, sh) => nextFor var body items 0 sh
      | none => nextFor var body sh.st.params 0 sh
  | .funcDef name body, sh =>
    .ret (.ok 0) (sh.modify fun st => st.defineFunction name body)

/-- `run_cmd` and its closures, from where an inner call has returned. -/
def Frame.resume (env : ExecEnv ω) : Frame → Status → Shell ω → Next ω
  | .scope s, r, sh => .ret (s.leave r sh).1 (s.leave r sh).2
  | .andOr op right, .ok l, sh =>
    let sh := sh.modify fun st => { st with lastStatus := l }
    if (op = .and ∧ l = 0) ∨ (op = .or ∧ l ≠ 0) then .enter right [] sh
    else .ret (.ok l) sh
  | .items rest, .ok s, sh =>
    let sh := sh.modify fun st => { st with lastStatus := s }
    if sh.st.errexit ∧ s ≠ 0 then .ret (.error (.exit s)) sh
    else nextItem env rest s sh
  | .cond thenCmd elifs els, .ok c, sh =>
    let sh := sh.modify fun st => { st with lastStatus := c }
    if c = 0 then .enter thenCmd [] sh else nextBranch elifs els sh
  | .whileCond test body untilDo last, .ok c, sh =>
    let sh := sh.modify fun st => { st with lastStatus := c }
    if (if untilDo then c ≠ 0 else c = 0) then
      .enter body [.whileBody test body untilDo last] sh
    else .ret (.ok last) sh
  | .whileBody test body untilDo last, r, sh =>
    match r with
    | .ok s => .enter test [.whileCond test body untilDo s] sh
    | .error (.brk 1) => .ret (.ok last) sh
    | .error (.brk n) => .ret (.error (.brk (n - 1))) sh
    | .error (.cont 1) => .enter test [.whileCond test body untilDo last] sh
    | .error (.cont n) => .ret (.error (.cont (n - 1))) sh
    | .error e => .ret (.error e) sh
  | .forBody var body left last, r, sh =>
    match r with
    | .ok s => nextFor var body left s sh
    | .error (.brk 1) => .ret (.ok last) sh
    | .error (.brk n) => .ret (.error (.brk (n - 1))) sh
    | .error (.cont 1) => nextFor var body left last sh
    | .error (.cont n) => .ret (.error (.cont (n - 1))) sh
    | .error e => .ret (.error e) sh
  | _, .error e, sh => .ret (.error e) sh

-- ======== running

/-- Where a process stands: a command to run, or the result of one, with the
calls that wait for it. -/
inductive Config (ω : Type)
  | run (c : Cmd) (stack : List Frame) (sh : Shell ω)
  | ret (r : Status) (stack : List Frame) (sh : Shell ω)

def Next.onto (stack : List Frame) : Next ω → Option (Config ω)
  | .ret r sh => some (.ret r stack sh)
  | .enter c frames sh => some (.run c (frames ++ stack) sh)
  | .gone => none

def step (env : ExecEnv ω) : Config ω → Option (Config ω)
  | .run c stack sh => (begin env c sh).onto (.scope .done :: stack)
  | .ret r (f :: stack) sh => (f.resume env r sh).onto stack
  | .ret _ [] _ => none

end LinuxRs.Shell
