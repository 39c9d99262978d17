/-
`break` and `continue` (user_program/src/bin/sh/{exec,builtin}.rs).

# What is asked

`break n` unwinds the calls that wait for it. Every scope, list and branch
hands it outwards, and the `min n k`-th of the `k` loops around it should
answer: end with its last status, or go on with its next iteration.
`Lands` is that, on the machine of the executor.

# Where it fails

The count goes down in the handler of a loop's body. A condition is run with
`?`, so a jump out of it passes its loop uncounted; and a count that is
greater than the number of loops is not cut down to it, so the jump leaves
the outermost loop as an error. `jump_lands_iff` says that these are the
only failures.
-/
import LinuxRs.Shell.Exec
import Mathlib.Logic.Relation

namespace LinuxRs.Shell

open LinuxRs.Fs (FdContext)

variable {ω : Type}

/-- `break` and `continue`. -/
inductive Jump
  | brk
  | cont

def Jump.error : Jump → Nat → ExecError
  | .brk, n => .brk n
  | .cont, n => .cont n

-- ======== loops

def Frame.isLoop : Frame → Bool
  | .whileCond .. => true
  | .whileBody .. => true
  | .forBody .. => true
  | _ => false

def Frame.inBody : Frame → Bool
  | .whileBody .. => true
  | .forBody .. => true
  | _ => false

def loops (stack : List Frame) : List Frame := stack.filter Frame.isLoop

def Frame.ended : Frame → Shell ω → Next ω
  | .whileCond _ _ _ last, sh => .ret (.ok last) sh
  | .whileBody _ _ _ last, sh => .ret (.ok last) sh
  | .forBody _ _ _ last, sh => .ret (.ok last) sh
  | _, _ => .gone

def Frame.again : Frame → Shell ω → Next ω
  | .whileCond test body untilDo last, sh =>
    .enter test [.whileCond test body untilDo last] sh
  | .whileBody test body untilDo last, sh =>
    .enter test [.whileCond test body untilDo last] sh
  | .forBody var body left last, sh => nextFor var body left last sh
  | _, _ => .gone

def Jump.answer : Jump → Frame → Shell ω → Next ω
  | .brk, loop, sh => loop.ended sh
  | .cont, loop, sh => loop.again sh

/-- The jump is handed outwards by a frame. -/
inductive Hands (env : ExecEnv ω) (j : Jump) : Config ω → Config ω → Prop where
  | outwards {n m : Nat} {f : Frame} {stack : List Frame} {sh sh' : Shell ω} :
      step env (.ret (.error (j.error n)) (f :: stack) sh) =
        some (.ret (.error (j.error m)) stack sh') →
      Hands env j (.ret (.error (j.error n)) (f :: stack) sh)
        (.ret (.error (j.error m)) stack sh')

/-- All calls inside of the `min n k`-th loop hand the jump outwards, and
this loop answers it. -/
def Lands (env : ExecEnv ω) (j : Jump) (n : Nat) (stack : List Frame)
    (sh : Shell ω) : Prop :=
  ∃ inner loop outer m sh', stack = inner ++ loop :: outer ∧
    loop.isLoop = true ∧
    (loops inner).length + 1 = min n (loops stack).length ∧
    Relation.ReflTransGen (Hands env j) (.ret (.error (j.error n)) stack sh)
      (.ret (.error (j.error m)) (loop :: outer) sh') ∧
    step env (.ret (.error (j.error m)) (loop :: outer) sh') =
      (j.answer loop sh').onto outer

-- ======== one frame

theorem Scope.leave_jump (s : Scope) (j : Jump) (n : Nat) (sh : Shell ω) :
    (s.leave (.error (j.error n)) sh).1 = .error (j.error n) := by
  cases s <;> cases j <;> rfl

theorem resume_jump (env : ExecEnv ω) {f : Frame} (h : f.inBody = false)
    (j : Jump) (n : Nat) (sh : Shell ω) :
    ∃ sh', f.resume env (.error (j.error n)) sh =
      .ret (.error (j.error n)) sh' := by
  cases f with
  | scope s =>
    refine ⟨(s.leave (.error (j.error n)) sh).2, ?_⟩
    show Next.ret _ _ = _
    rw [Scope.leave_jump]
  | whileBody test body untilDo last => cases h
  | forBody var body left last => cases h
  | _ => exact ⟨sh, rfl⟩

theorem resume_body_one (env : ExecEnv ω) {f : Frame} (h : f.inBody = true)
    (j : Jump) (sh : Shell ω) :
    f.resume env (.error (j.error 1)) sh = j.answer f sh := by
  cases f with
  | whileBody test body untilDo last => cases j <;> rfl
  | forBody var body left last => cases j <;> rfl
  | _ => cases h

theorem resume_body_more (env : ExecEnv ω) {f : Frame} (h : f.inBody = true)
    (j : Jump) (n : Nat) (sh : Shell ω) :
    f.resume env (.error (j.error (n + 2))) sh =
      .ret (.error (j.error (n + 1))) sh := by
  cases f with
  | whileBody test body untilDo last => cases j <;> rfl
  | forBody var body left last => cases j <;> rfl
  | _ => cases h

theorem isLoop_of_inBody {f : Frame} (h : f.inBody = true) :
    f.isLoop = true := by
  cases f <;> first | rfl | cases h

theorem answer_ne_jump {f : Frame} (h : f.isLoop = true) (j : Jump) (n : Nat)
    (sh sh' : Shell ω) : j.answer f sh ≠ .ret (.error (j.error n)) sh' := by
  intro heq
  cases f with
  | whileCond test body untilDo last => cases j <;> cases heq
  | whileBody test body untilDo last => cases j <;> cases heq
  | forBody var body left last =>
    cases j with
    | brk => cases heq
    | cont => cases left <;> cases heq
  | _ => cases h

theorem jump_error_inj {j : Jump} {n m : Nat} (h : j.error n = j.error m) :
    n = m := by
  cases j <;> exact ExecError.noConfusion h id

theorem count_of_hands {env : ExecEnv ω} {j : Jump} {n : Nat} {f : Frame}
    {stack : List Frame} {sh : Shell ω} {c : Config ω} (hn : 0 < n)
    (h : Hands env j (.ret (.error (j.error n)) (f :: stack) sh) c) :
    ∃ m sh', c = .ret (.error (j.error m)) stack sh' ∧ 0 < m ∧
      n = m + (if f.inBody then 1 else 0) := by
  generalize hc : Config.ret (.error (j.error n)) (f :: stack) sh = c₀ at h
  cases h with
  | @outwards n' m g rest sh₀ sh' hstep =>
    injection hc with hr hstack hsh
    obtain ⟨rfl, rfl⟩ := List.cons.inj hstack
    subst hsh
    obtain rfl := jump_error_inj (Except.error.inj hr)
    refine ⟨m, sh', rfl, ?_⟩
    have hresume : (f.resume env (.error (j.error n)) sh).onto stack =
        some (.ret (.error (j.error m)) stack sh') := hstep
    cases hbody : f.inBody with
    | false =>
      obtain ⟨sh₁, heq⟩ := resume_jump env hbody j n sh
      rw [heq] at hresume
      injection Option.some.inj hresume with hr
      obtain rfl := jump_error_inj (Except.error.inj hr)
      exact ⟨hn, rfl⟩
    | true =>
      obtain ⟨k, rfl⟩ | ⟨k, rfl⟩ : (∃ k, n = k + 2) ∨ ∃ k : Nat, n = 1 := by
        rcases Nat.lt_or_ge 1 n with hlt | hle
        · exact .inl ⟨n - 2, by omega⟩
        · exact .inr ⟨0, by omega⟩
      · rw [resume_body_more env hbody] at hresume
        injection Option.some.inj hresume with hr
        obtain rfl := jump_error_inj (Except.error.inj hr)
        exact ⟨Nat.succ_pos k, rfl⟩
      · exfalso
        rw [resume_body_one env hbody] at hresume
        have hloop := isLoop_of_inBody hbody
        cases hans : j.answer f sh with
        | ret r sh₁ =>
          rw [hans] at hresume
          injection Option.some.inj hresume with hr
          subst hr
          exact answer_ne_jump hloop j m sh sh₁ hans
        | enter c frames sh₁ =>
          rw [hans] at hresume
          injection Option.some.inj hresume
        | gone =>
          rw [hans] at hresume
          cases hresume

-- ======== whole stacks

def Config.stack : Config ω → List Frame
  | .run _ stack _ => stack
  | .ret _ stack _ => stack

theorem hands_pops {env : ExecEnv ω} {j : Jump} {c c' : Config ω}
    (h : Hands env j c c') : c.stack.length = c'.stack.length + 1 := by
  cases h with
  | outwards => rfl

theorem hands_shrinks {env : ExecEnv ω} {j : Jump} {c c' : Config ω}
    (h : Relation.ReflTransGen (Hands env j) c c') :
    c'.stack.length ≤ c.stack.length := by
  induction h with
  | refl => exact Nat.le_refl _
  | tail _ hstep ih =>
    have hpop := hands_pops hstep
    omega

/-- Every loop on the way takes one from the count. -/
theorem count_of_passed {env : ExecEnv ω} {j : Jump} {inner rest : List Frame}
    {n m : Nat} {sh sh' : Shell ω} (hn : 0 < n)
    (h : Relation.ReflTransGen (Hands env j)
      (.ret (.error (j.error n)) (inner ++ rest) sh)
      (.ret (.error (j.error m)) rest sh')) :
    0 < m ∧ n = m + (inner.filter Frame.inBody).length := by
  induction inner generalizing n sh with
  | nil =>
    rcases h.cases_head with heq | ⟨c, hstep, hrest⟩
    · injection heq with hr
      obtain rfl := jump_error_inj (Except.error.inj hr)
      exact ⟨hn, rfl⟩
    · have hpop := hands_pops hstep
      have hlen := hands_shrinks hrest
      simp only [Config.stack, List.nil_append] at hpop hlen
      omega
  | cons f inner ih =>
    rcases h.cases_head with heq | ⟨c, hstep, hrest⟩
    · exfalso
      injection heq with _ hstack
      have hlen := congrArg List.length hstack
      simp only [List.cons_append, List.length_cons, List.length_append]
        at hlen
      omega
    · obtain ⟨m', sh₁, rfl, hpos, rfl⟩ := count_of_hands hn hstep
      obtain ⟨hm, rfl⟩ := ih hpos hrest
      refine ⟨hm, ?_⟩
      rw [List.filter_cons]
      cases f.inBody with
      | true =>
        simp only [if_true, List.length_cons]
        omega
      | false => rfl

/-- A loop that the jump reaches answers it. -/
theorem answers {env : ExecEnv ω} {j : Jump} {loop : Frame}
    {outer : List Frame} {m : Nat} {sh : Shell ω} (hloop : loop.isLoop = true)
    (hm : 0 < m) (h : step env (.ret (.error (j.error m)) (loop :: outer) sh) =
      (j.answer loop sh).onto outer) : loop.inBody = true ∧ m = 1 := by
  have hresume : (loop.resume env (.error (j.error m)) sh).onto outer =
      (j.answer loop sh).onto outer := h
  have hne : ∀ n sh', loop.resume env (.error (j.error m)) sh ≠
      .ret (.error (j.error n)) sh' := by
    intro n sh' heq
    rw [heq] at hresume
    cases hans : j.answer loop sh with
    | ret r sh₁ =>
      rw [hans] at hresume
      injection Option.some.inj hresume with hr
      subst hr
      exact answer_ne_jump hloop j n sh sh₁ hans
    | enter c frames sh₁ =>
      rw [hans] at hresume
      injection Option.some.inj hresume
    | gone =>
      rw [hans] at hresume
      cases hresume
  cases hbody : loop.inBody with
  | false =>
    obtain ⟨sh', heq⟩ := resume_jump env hbody j m sh
    exact absurd heq (hne m sh')
  | true =>
    refine ⟨rfl, ?_⟩
    rcases Nat.lt_or_ge 1 m with hlt | hle
    · obtain ⟨k, rfl⟩ : ∃ k, m = k + 2 := ⟨m - 2, by omega⟩
      exact absurd (resume_body_more env hbody j k sh) (hne (k + 1) sh)
    · omega

theorem loops_append (inner rest : List Frame) :
    loops (inner ++ rest) = loops inner ++ loops rest := List.filter_append _ _

theorem loops_cons_of_loop {f : Frame} (h : f.isLoop = true)
    (rest : List Frame) : loops (f :: rest) = f :: loops rest := by
  simp [loops, h]

theorem loops_cons_of_not {f : Frame} (h : f.isLoop = false)
    (rest : List Frame) : loops (f :: rest) = loops rest := by
  simp [loops, h]

theorem filter_inBody (stack : List Frame) :
    stack.filter Frame.inBody = (loops stack).filter Frame.inBody := by
  unfold loops
  rw [List.filter_filter]
  apply List.filter_congr
  intro f _
  cases hbody : f.inBody with
  | true => simp [isLoop_of_inBody hbody]
  | false => simp

/-- From the inside of that many loops the jump lands at the one it names. -/
theorem lands_of_bodies (env : ExecEnv ω) (j : Jump) {n : Nat}
    {stack : List Frame} (hn : n + 1 ≤ (loops stack).length)
    (hbody : ∀ f ∈ (loops stack).take (n + 1), f.inBody = true)
    (sh : Shell ω) : ∃ inner loop outer sh', stack = inner ++ loop :: outer ∧
      loop.isLoop = true ∧ (loops inner).length + 1 = n + 1 ∧
      Relation.ReflTransGen (Hands env j)
        (.ret (.error (j.error (n + 1))) stack sh)
        (.ret (.error (j.error 1)) (loop :: outer) sh') ∧
      step env (.ret (.error (j.error 1)) (loop :: outer) sh') =
        (j.answer loop sh').onto outer := by
  induction stack generalizing n sh with
  | nil => simp [loops] at hn
  | cons f stack ih =>
    cases hloop : f.isLoop with
    | false =>
      have hnot : f.inBody = false := by
        cases hb : f.inBody with
        | false => rfl
        | true => rw [isLoop_of_inBody hb] at hloop; cases hloop
      rw [loops_cons_of_not hloop] at hn hbody
      obtain ⟨sh₁, heq⟩ := resume_jump env hnot j (n + 1) sh
      have hstep : step env (.ret (.error (j.error (n + 1))) (f :: stack) sh)
          = some (.ret (.error (j.error (n + 1))) stack sh₁) := by
        show (f.resume env _ sh).onto stack = _
        rw [heq]
        rfl
      obtain ⟨inner, loop, outer, sh', rfl, hl, hcount, hpass, hans⟩ :=
        ih hn hbody sh₁
      exact ⟨f :: inner, loop, outer, sh', rfl, hl,
        by rw [loops_cons_of_not hloop]; exact hcount,
        .head (.outwards hstep) hpass, hans⟩
    | true =>
      rw [loops_cons_of_loop hloop] at hn hbody
      have hf : f.inBody = true := hbody f (by simp)
      cases n with
      | zero =>
        refine ⟨[], f, stack, sh, rfl, hloop, rfl, .refl, ?_⟩
        show (f.resume env _ sh).onto stack = _
        rw [resume_body_one env hf]
      | succ n =>
        have hstep : step env
            (.ret (.error (j.error (n + 2))) (f :: stack) sh) =
              some (.ret (.error (j.error (n + 1))) stack sh) := by
          show (f.resume env _ sh).onto stack = _
          rw [resume_body_more env hf]
          rfl
        have hrest : ∀ g ∈ (loops stack).take (n + 1), g.inBody = true := by
          intro g hg
          exact hbody g (by rw [List.take_succ_cons]; exact .tail f hg)
        rw [List.length_cons] at hn
        obtain ⟨inner, loop, outer, sh', rfl, hl, hcount, hpass, hans⟩ :=
          ih (by omega) hrest sh
        refine ⟨f :: inner, loop, outer, sh', rfl, hl, ?_,
          .head (.outwards hstep) hpass, hans⟩
        rw [loops_cons_of_loop hloop, List.length_cons]
        omega

/-- A jump that a command raises inside of loops lands where its count asks
exactly when there are that many loops around it, and it stands in the body
of each of them. -/
theorem jump_lands_iff (env : ExecEnv ω) (j : Jump) (n : Nat) (hn : 0 < n)
    (s : SimpleCmd) (stack : List Frame) (hloops : loops stack ≠ [])
    (sh sh' : Shell ω) (hrun : step env (.run (.simple s) stack sh) =
      some (.ret (.error (j.error n)) (.scope .done :: stack) sh')) :
    Lands env j n (.scope .done :: stack) sh' ↔ n ≤ (loops stack).length ∧
        ∀ f ∈ (loops stack).take n, f.inBody = true := by
  have hdone : loops (.scope .done :: stack) = loops stack :=
    loops_cons_of_not rfl stack
  constructor
  · rintro ⟨inner, loop, outer, m, sh₁, hstack, hloop, hcount, hpass, hans⟩
    rw [hstack] at hpass
    obtain ⟨hm, hcounted⟩ := count_of_passed hn hpass
    obtain ⟨hbody, rfl⟩ := answers hloop hm hans
    have hsplit : loops stack = loops inner ++ loop :: loops outer := by
      rw [← hdone, hstack, loops_append, loops_cons_of_loop hloop]
    rw [hdone] at hcount
    rw [filter_inBody] at hcounted
    have hle := List.length_filter_le Frame.inBody (loops inner)
    have hall : ∀ f ∈ loops inner, f.inBody = true := by
      apply List.length_filter_eq_length_iff.mp
      omega
    have htake : (loops stack).take n = loops inner ++ [loop] := by
      rw [hsplit, show n = (loops inner).length + 1 by omega,
        List.take_length_add_append]
      rfl
    refine ⟨by omega, fun f hf => ?_⟩
    rw [htake] at hf
    rcases List.mem_append.mp hf with hf | hf
    · exact hall f hf
    · obtain rfl := List.mem_singleton.mp hf
      exact hbody
  · rintro ⟨hle, hbody⟩
    obtain ⟨k, rfl⟩ : ∃ k, n = k + 1 := ⟨n - 1, by omega⟩
    rw [← hdone] at hle hbody
    obtain ⟨inner, loop, outer, sh₁, hstack, hloop, hcount, hpass, hans⟩ :=
      lands_of_bodies env j hle hbody sh'
    refine ⟨inner, loop, outer, 1, sh₁, hstack, hloop, ?_, hpass, hans⟩
    rw [hcount, Nat.min_eq_left hle]

def bareExec : ExecEnv Unit where
  redir :=
    { expandWordUnsplit := expandString ⟨1, fun _ st => (.ok [], st),
        fun _ st => (.ok 0, st), fun _ => []⟩
      sysOpen := fun _ _ _ p => (.error 2, p) }
  expandWord := expandFields ⟨1, fun _ st => (.ok [], st),
    fun _ st => (.ok 0, st), fun _ => []⟩
  report := fun _ p => p
  readToString := fun _ p => (none, p)
  builtin := fun _ _ sh => some (0, sh)
  runExternalLookup := fun name _ sh => (.error (name ++ ": not found".toList), sh)
  runPipeline := fun _ sh => (.error "fork: Errno(11)".toList, sh)
  runInBackground := fun _ sh => (.error "fork: Errno(11)".toList, sh)
  runSubshell := fun _ _ sh => (.error "fork: Errno(11)".toList, sh)
  parseRounds := 100
  message := fun _ => "parse error".toList

def bareShell : Shell Unit where
  st := State.fromEnv [] "sh".toList []
  world := ()
  fds := ⟨fun _ => none, 0⟩

def plainCommand (words : List String) : SimpleCmd :=
  ⟨[], words.map fun w => [.lit w.toList], []⟩

/-- The body of `while true; do break; done`. -/
def breakingBody : Frame :=
  .whileBody (.simple (plainCommand ["true"])) (.simple (plainCommand ["break"]))
    false 0

/-- Its loop ends. -/
theorem break_in_body :
    Lands bareExec .brk 1 [.scope .done, breakingBody] bareShell := by
  refine Iff.mpr (jump_lands_iff bareExec .brk 1 (by decide)
    (plainCommand ["break"]) [breakingBody] (List.cons_ne_nil _ _)
    bareShell bareShell rfl) ⟨Nat.le_refl 1, fun f hf => ?_⟩
  obtain rfl : f = breakingBody := List.mem_singleton.mp hf
  rfl

/-- `while break; do true; done`: the jump leaves the loop as an error. -/
theorem break_in_condition :
    ¬ ∀ (env : ExecEnv Unit) (j : Jump) (n : Nat), 0 < n → ∀ (s : SimpleCmd)
      (stack : List Frame), loops stack ≠ [] → ∀ sh sh' : Shell Unit,
        step env (.run (.simple s) stack sh) =
          some (.ret (.error (j.error n)) (.scope .done :: stack) sh') →
        Lands env j n (.scope .done :: stack) sh' := by
  intro h
  obtain ⟨inner, loop, outer, m, sh', hstack, hloop, -, hpass, hans⟩ :=
    h bareExec .brk 1 (by decide) (plainCommand ["break"])
      [.whileCond (.simple (plainCommand ["break"]))
        (.simple (plainCommand ["true"])) false 0]
      (by simp [loops, Frame.isLoop]) bareShell bareShell rfl
  rw [hstack] at hpass
  obtain ⟨hm, -⟩ := count_of_passed (by decide) hpass
  obtain ⟨hbody, -⟩ := answers hloop hm hans
  -- no frame of this stack is the body of a loop
  have hmem : loop ∈ inner ++ loop :: outer := by simp
  rw [← hstack] at hmem
  rcases List.mem_cons.mp hmem with rfl | hmem
  · cases hloop
  · obtain rfl := List.mem_singleton.mp hmem
    cases hbody

end LinuxRs.Shell
