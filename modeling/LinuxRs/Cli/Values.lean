/-
Whose value an option gets.

# The reading

`readStep` reads an argument list without a parser in between: its state is
what is left of a cluster and of the arguments, whether `--` was read, and
whether a boolean option was given a value with `=` since the last long
option. A value-taking option has the text behind its own `=`, the rest of
its own cluster, or the next argument; nothing else is a value.

# Where the parser parts from it

A boolean option leaves the value behind its `=` in the parser. The next
long option drops it, but a short option that takes a value gets it. As long
as none does, the parser goes step by step with the reading.
-/
import LinuxRs.Cli.Parser

namespace LinuxRs.Cli

variable {ρ : Type} {fields : List (Field ρ)} {out : ρ}

-- ======== the reading

def ownValue : Text → List Text → Option (Text × List Text)
  | [], [] => none
  | [], v :: args => some (v, args)
  | c :: cluster, args => some (c :: cluster, args)

/-- A step of the reading: it ends, or it meets a short option that takes a
value behind a boolean one that was given some, or it goes on. -/
inductive Step (ρ : Type)
  | stop (outcome : Outcome ρ)
  | foreign
  | go (only pending : Bool) (cluster : Text) (args : List Text) (out : ρ)

def Step.give (only pending : Bool) (args : List Text) :
    Except CliError ρ → Step ρ
  | .error e => .stop (.failed e)
  | .ok out => .go only pending [] args out

def positionalStep (fields : List (Field ρ)) (only pending : Bool) (v : Text)
    (args : List Text) (out : ρ) : Step ρ :=
  match sink fields with
  | none => .stop (.failed (.unexpectedPositional v))
  | some push => .give only pending args (push v out)

def shortStep (fields : List (Field ρ)) (only pending : Bool) (c : Char)
    (cluster : Text) (args : List Text) (out : ρ) : Step ρ :=
  match shortAction fields c with
  | none => .stop (if c = 'h' then .help else .failed (.unknownShort c))
  | some (.flag set) => .go only pending cluster args (set out)
  | some (.value set) =>
    if pending then .foreign
    else
      match ownValue cluster args with
      | none => .stop (.failed (.missingValue (formatShort c)))
      | some (v, args) => .give only false args (set (formatShort c) v out)

/-- A long flag with the text behind its `=`. -/
def longStep (fields : List (Field ρ)) (only : Bool) (name : Text)
    (own : Option Text) (args : List Text) (out : ρ) : Step ρ :=
  match longAction fields name with
  | none =>
    .stop (if name = "help".toList then .help
      else if name = "version".toList then .version
      else .failed (.unknownLong name))
  | some (.flag set) => .go only own.isSome [] args (set out)
  | some (.value set) =>
    match own, args with
    | some v, args => .give only false args (set (formatLong name) v out)
    | none, [] => .stop (.failed (.missingValue (formatLong name)))
    | none, v :: args => .give only false args (set (formatLong name) v out)

def readStep (fields : List (Field ρ)) (only pending : Bool) (out : ρ) :
    Text → List Text → Step ρ
  | c :: cluster, args => shortStep fields only pending c cluster args out
  | [], [] => .stop (.parsed out)
  | [], raw :: args =>
    if only then positionalStep fields true pending raw args out
    else
      match raw with
      | ['-', '-'] =>
        match args with
        | [] => .stop (.parsed out)
        | v :: args => positionalStep fields true pending v args out
      | '-' :: '-' :: rest =>
        longStep fields false (Parser.splitLong rest).1
          (Parser.splitLong rest).2 args out
      | '-' :: c :: cluster => shortStep fields false pending c cluster args out
      | raw => positionalStep fields false pending raw args out

/-- The reading, for a number of rounds; the inner `none` is that it met a
short option that would get a value of another one. -/
def readArgs (fields : List (Field ρ)) : Nat → Bool → Bool → Text →
    List Text → ρ → Option (Option (Outcome ρ))
  | 0, _, _, _, _, _ => none
  | rounds + 1, only, pending, cluster, args, out =>
    match readStep fields only pending out cluster args with
    | .stop outcome => some (some outcome)
    | .foreign => some none
    | .go only pending cluster args out =>
      readArgs fields rounds only pending cluster args out

def reading (fields : List (Field ρ)) (default : ρ) (args : List Text) :
    Option (Option (Outcome ρ)) :=
  readArgs fields (roundsFor args) false false [] args default

-- ======== the simulation

/-- A call of `value` that gets a value of its own flag. -/
def Own : Call → Prop
  | (.short _, source) => source ≠ .long
  | (.long _, source) => source ≠ .cluster
  | (.value _, _) => True

/-- The parser stands where the reading does: the same cluster and arguments
are left, and a long value is pending or not. -/
structure Reads (p : Parser) (only pending : Bool) (cluster : Text)
    (args : List Text) : Prop where
  remaining : p.remaining = args
  cluster : (p.shortCluster = none ∧ cluster = []) ∨
    ∃ text idx, p.shortCluster = some (text, idx) ∧ text.drop idx = cluster ∧
      cluster ≠ []
  pending : p.longValue.isSome = pending
  only : p.positionalOnly = only

/-- The loop and the reading of the arguments by the conventions agree on a
step. -/
def Agrees : Step ρ → (Outcome ρ ⊕ (Parser × ρ)) × List Call → Prop
  | .stop outcome, (.inl outcome', calls) => outcome' = outcome ∧ ∀ c ∈ calls, Own c
  | .foreign, (_, calls) => ∃ c ∈ calls, ¬ Own c
  | .go only pending cluster args out, (.inr (p, out'), calls) =>
    Reads p only pending cluster args ∧ out' = out ∧ ∀ c ∈ calls, Own c
  | _, _ => False

def round (fields : List (Field ρ)) (p : Parser) (out : ρ) :
    (Outcome ρ ⊕ (Parser × ρ)) × List Call :=
  match p.nextArg with
  | (none, _) => (.inl (.parsed out), [])
  | (some arg, p) => handle fields arg p out

def proceed (fields : List (Field ρ)) (rounds : Nat) :
    (Outcome ρ ⊕ (Parser × ρ)) × List Call → Option (Outcome ρ × List Call)
  | (.inl outcome, calls) => some (outcome, calls)
  | (.inr (p, out), calls) =>
    (parseLoop fields rounds p out).map fun r => (r.1, calls ++ r.2)

theorem parseLoop_succ (rounds : Nat) (p : Parser) (out : ρ) :
    parseLoop fields (rounds + 1) p out =
      proceed fields rounds (round fields p out) := by
  unfold round
  conv_lhs => unfold parseLoop
  rcases p.nextArg with ⟨_ | arg, q⟩
  · rfl
  · dsimp only
    rcases handle fields arg q out with ⟨_ | _, calls⟩
    · rfl
    · rfl

variable {p : Parser} {only pending : Bool} {cluster : Text} {args : List Text}

def settle (p : Parser) (calls : List Call) :
    Except CliError ρ → (Outcome ρ ⊕ (Parser × ρ)) × List Call
  | .error e => (.inl (.failed e), calls)
  | .ok out => (.inr (p, out), calls)

theorem agrees_settle {answer : Except CliError ρ} {calls : List Call}
    (h : Reads p only pending [] args) (hcalls : ∀ c ∈ calls, Own c) :
    Agrees (Step.give only pending args answer) (settle p calls answer) := by
  cases answer with
  | error e => exact ⟨rfl, hcalls⟩
  | ok out => exact ⟨h, rfl, hcalls⟩

theorem own_nil : ∀ c ∈ ([] : List Call), Own c := fun c hc => by cases hc

theorem handle_value (h : Reads p only pending [] args) (v : Text) (out : ρ) :
    Agrees (positionalStep fields only pending v args out)
      (handle fields (.value v) p out) := by
  unfold positionalStep handle
  cases hsink : sink fields with
  | none => exact ⟨rfl, own_nil⟩
  | some push =>
    have hsettle : Agrees (Step.give only pending args (push v out))
        (settle p [] (push v out)) := agrees_settle h own_nil
    dsimp only
    cases hpush : push v out with
    | error e =>
      rw [hpush] at hsettle
      exact hsettle
    | ok out =>
      rw [hpush] at hsettle
      exact hsettle

def act (arg : Arg) (p : Parser) (out : ρ) (action : Action ρ) :
    (Outcome ρ ⊕ (Parser × ρ)) × List Call :=
  settle (action.run p out).2 (action.calls arg p) (action.run p out).1

theorem handle_short_eq (fields : List (Field ρ)) (c : Char) (p : Parser)
    (out : ρ) : handle fields (.short c) p out =
      (shortAction fields c).elim
        (.inl (if c = 'h' then .help else .failed (.unknownShort c)), [])
        (act (.short c) p out) := by
  unfold handle act
  dsimp only
  cases shortAction fields c with
  | none => rfl
  | some action =>
    dsimp only [Option.elim_some]
    rcases action.run p out with ⟨_ | _, q⟩
    · rfl
    · rfl

theorem handle_long_eq (fields : List (Field ρ)) (name : Text) (p : Parser)
    (out : ρ) : handle fields (.long name) p out =
      (longAction fields name).elim
        (.inl (if name = "help".toList then .help
            else if name = "version".toList then .version
            else .failed (.unknownLong name)), [])
        (act (.long name) p out) := by
  unfold handle act
  dsimp only
  cases longAction fields name with
  | none => rfl
  | some action =>
    dsimp only [Option.elim_some]
    rcases action.run p out with ⟨_ | _, q⟩
    · rfl
    · rfl

/-- `value` gives the flag its own value, or says that it is missing. -/
theorem value_spec (h : Reads p only false cluster args) :
    (ownValue cluster args = none ∧
        p.value = (.error (.missingValue p.lastFlagName), p)) ∨
      ∃ v rest q, ownValue cluster args = some (v, rest) ∧
        p.value = (.ok v, q) ∧ Reads q only false [] rest := by
  obtain ⟨remaining, shortCluster, longValue, lastFlag, positionalOnly⟩ := p
  obtain ⟨rfl, hcluster, hpending, honly⟩ := h
  have hnone : longValue = none := by
    cases longValue with
    | none => rfl
    | some v => cases hpending
  subst hnone
  rcases hcluster with ⟨hcluster, rfl⟩ | ⟨text, idx, hcluster, hdrop, hne⟩
  · cases hcluster
    cases remaining with
    | nil => exact .inl ⟨rfl, rfl⟩
    | cons v rest =>
      exact .inr ⟨v, rest, _, rfl, rfl, rfl, .inl ⟨rfl, rfl⟩, rfl, honly⟩
  · cases hcluster
    obtain ⟨c, more, rfl⟩ := List.exists_cons_of_ne_nil hne
    refine .inr ⟨c :: more, remaining,
      ⟨remaining, none, none, lastFlag, positionalOnly⟩, rfl, ?_, rfl,
      .inl ⟨rfl, rfl⟩, rfl, honly⟩
    show (Except.ok (text.drop idx), _) = _
    rw [hdrop]

theorem source_long (h : Reads p only true cluster args) : p.source = .long :=
  if_pos h.pending

theorem source_ne_long (h : Reads p only false cluster args) :
    p.source ≠ .long := by
  unfold Parser.source
  rw [h.pending, if_neg Bool.false_ne_true]
  split
  · exact fun heq => by cases heq
  · exact fun heq => by cases heq

/-- A short option does what the reading of it does. -/
theorem handle_short (h : Reads p only pending cluster args) {c : Char}
    (hflag : p.lastFlag = some (formatShort c)) (out : ρ) :
    Agrees (shortStep fields only pending c cluster args out)
      (handle fields (.short c) p out) := by
  rw [handle_short_eq]
  unfold shortStep
  have hname : p.lastFlagName = formatShort c := by
    unfold Parser.lastFlagName
    rw [hflag]
    rfl
  cases hact : shortAction fields c with
  | none => exact ⟨rfl, own_nil⟩
  | some action =>
    cases action with
    | flag set => exact ⟨h, rfl, own_nil⟩
    | value set =>
      dsimp only [Option.elim_some]
      cases pending with
      | true =>
        rw [if_pos rfl]
        unfold act
        have hcalls : ∀ q, ∃ x ∈ (settle q
            (Action.calls (.short c) p (.value set))
            (Action.run p out (.value set)).1).2, ¬ Own x := by
          intro q
          refine ⟨(.short c, p.source), ?_, fun hown => ?_⟩
          · cases (Action.run p out (.value set)).1 with
            | error e => exact List.mem_singleton.mpr rfl
            | ok out => exact List.mem_singleton.mpr rfl
          · exact hown (source_long h)
        exact hcalls _
      | false =>
        rw [if_neg Bool.false_ne_true]
        have hown : ∀ x ∈ Action.calls (.short c) p (.value set), Own x := by
          intro x hx
          obtain rfl := List.mem_singleton.mp hx
          exact source_ne_long h
        unfold act Action.run
        rcases value_spec h with ⟨hv, hvalue⟩ | ⟨v, rest, q, hv, hvalue, hq⟩
        · rw [hv, hvalue, hname]
          exact ⟨rfl, hown⟩
        · rw [hv, hvalue, hname]
          exact agrees_settle hq hown

/-- A long option does what the reading of it does. -/
theorem handle_long {name : Text} {own : Option Text}
    (h : Reads p only own.isSome [] args) (hlong : p.longValue = own)
    (hflag : p.lastFlag = some (formatLong name)) (out : ρ) :
    Agrees (longStep fields only name own args out)
      (handle fields (.long name) p out) := by
  rw [handle_long_eq]
  unfold longStep
  have hname : p.lastFlagName = formatLong name := by
    unfold Parser.lastFlagName
    rw [hflag]
    rfl
  have hcluster : p.shortCluster = none := by
    rcases h.cluster with ⟨hc, -⟩ | ⟨text, idx, -, -, hne⟩
    · exact hc
    · exact absurd rfl hne
  cases hact : longAction fields name with
  | none => exact ⟨rfl, own_nil⟩
  | some action =>
    cases action with
    | flag set => exact ⟨h, rfl, own_nil⟩
    | value set =>
      have hown : ∀ x ∈ Action.calls (.long name) p (.value set), Own x := by
        intro x hx
        obtain rfl := List.mem_singleton.mp hx
        show p.source ≠ .cluster
        unfold Parser.source
        rw [hcluster]
        split
        · exact fun heq => by cases heq
        · exact fun heq => by cases heq
      dsimp only [Option.elim_some]
      unfold act Action.run
      cases own with
      | some v =>
        have hvalue : p.value = (.ok v, { p with longValue := none }) := by
          unfold Parser.value
          rw [hlong]
        have hq : Reads { p with longValue := none } only false [] args :=
          ⟨h.remaining, .inl ⟨hcluster, rfl⟩, rfl, h.only⟩
        rw [hvalue, hname]
        exact agrees_settle hq hown
      | none =>
        rcases value_spec h with ⟨hv, hvalue⟩ | ⟨v, rest, q, hv, hvalue, hq⟩
        · rw [hvalue, hname]
          cases args with
          | nil => exact ⟨rfl, hown⟩
          | cons w args => cases hv
        · rw [hvalue, hname]
          cases args with
          | nil => cases hv
          | cons w args =>
            obtain ⟨rfl, rfl⟩ := Prod.mk.inj (Option.some.inj hv)
            exact agrees_settle hq hown

section Forms

variable {raw cl : Text} {c : Char} {longValue flag : Option Text}

theorem readStep_cluster (hc : c ≠ '-') (pending : Bool) (args : List Text)
    (out : ρ) : readStep fields false pending out [] (('-' :: c :: cl) :: args) =
      shortStep fields false pending c cl args out := by
  unfold readStep
  dsimp only
  rw [if_neg Bool.false_ne_true]
  split
  next heq => exact absurd (List.cons.inj (List.cons.inj heq).2).1 hc
  next heq => exact absurd (List.cons.inj (List.cons.inj heq).2).1 hc
  next heq =>
    cases heq
    rfl
  next hno => exact absurd rfl (hno c cl)

theorem nextRaw_cluster (hc : c ≠ '-') (args : List Text) :
    Parser.nextRaw ⟨('-' :: c :: cl) :: args, none, longValue, flag, false⟩ =
      Parser.startCluster ⟨args, none, longValue, flag, false⟩ c cl := by
  unfold Parser.nextRaw
  dsimp only
  rw [if_neg Bool.false_ne_true]
  split
  next heq => exact absurd (List.cons.inj (List.cons.inj heq).2).1 hc
  next heq => exact absurd (List.cons.inj (List.cons.inj heq).2).1 hc
  next heq =>
    cases heq
    rfl
  next hno => exact absurd rfl (hno c cl)

theorem readStep_plain (h : ∀ c cl, raw ≠ '-' :: c :: cl) (pending : Bool)
    (args : List Text) (out : ρ) :
    readStep fields false pending out [] (raw :: args) =
      positionalStep fields false pending raw args out := by
  unfold readStep
  dsimp only
  rw [if_neg Bool.false_ne_true]
  split
  next => exact absurd rfl (h _ _)
  next => exact absurd rfl (h _ _)
  next => exact absurd rfl (h _ _)
  next => rfl

theorem nextRaw_plain (h : ∀ c cl, raw ≠ '-' :: c :: cl) (args : List Text) :
    Parser.nextRaw ⟨raw :: args, none, longValue, flag, false⟩ =
      Parser.yieldValue ⟨args, none, longValue, flag, false⟩ raw := by
  unfold Parser.nextRaw
  dsimp only
  rw [if_neg Bool.false_ne_true]
  split
  next => exact absurd rfl (h _ _)
  next => exact absurd rfl (h _ _)
  next => exact absurd rfl (h _ _)
  next => rfl

end Forms

/-- One turn of the loop of `parse_from` is one step of the reading. -/
theorem round_spec (h : Reads p only pending cluster args) (out : ρ) :
    Agrees (readStep fields only pending out cluster args)
      (round fields p out) := by
  obtain ⟨remaining, shortCluster, longValue, lastFlag, positionalOnly⟩ := p
  obtain ⟨rfl, hcluster, rfl, rfl⟩ := h
  rcases hcluster with ⟨hcluster, rfl⟩ | ⟨text, idx, hcluster, hdrop, hne⟩
  · cases hcluster
    cases remaining with
    | nil => exact ⟨rfl, own_nil⟩
    | cons raw rest =>
      have hstart : ∀ flag : Option Text,
          Reads ⟨rest, none, longValue, flag, positionalOnly⟩ positionalOnly
            longValue.isSome [] rest :=
        fun flag => ⟨rfl, .inl ⟨rfl, rfl⟩, rfl, rfl⟩
      cases positionalOnly with
      | true => exact handle_value (hstart none) raw out
      | false =>
        by_cases hshort : ∃ c cluster, raw = '-' :: c :: cluster
        · obtain ⟨c, cluster, rfl⟩ := hshort
          by_cases hc : c = '-'
          · subst hc
            cases cluster with
            | nil =>
              cases rest with
              | nil => exact ⟨rfl, own_nil⟩
              | cons v rest =>
                refine handle_value (p := ⟨rest, none, longValue, none,
                  true⟩) ⟨rfl, .inl ⟨rfl, rfl⟩, rfl, rfl⟩ v out
            | cons d more =>
              exact handle_long (p := ⟨rest, none,
                  (Parser.splitLong (d :: more)).2,
                  some (formatLong (Parser.splitLong (d :: more)).1), false⟩)
                ⟨rfl, .inl ⟨rfl, rfl⟩, rfl, rfl⟩ rfl rfl out
          · have hround : round fields ⟨('-' :: c :: cluster) :: rest, none,
                longValue, lastFlag, false⟩ out =
                  handle fields (.short c) (Parser.startCluster
                    ⟨rest, none, longValue, lastFlag, false⟩ c cluster).2 out := by
              unfold round Parser.nextArg
              dsimp only
              rw [nextRaw_cluster hc]
              rfl
            rw [readStep_cluster hc, hround]
            apply handle_short (c := c) _ rfl out
            refine ⟨rfl, ?_, rfl, rfl⟩
            show ((if cluster = [] then none else some (c :: cluster, 1))
              = none ∧ cluster = []) ∨ ∃ text idx,
                (if cluster = [] then none else some (c :: cluster, 1))
                  = some (text, idx) ∧ text.drop idx = cluster ∧ cluster ≠ []
            by_cases hnil : cluster = []
            · exact .inl ⟨if_pos hnil, hnil⟩
            · exact .inr ⟨_, _, if_neg hnil, rfl, hnil⟩
        · have hplain : ∀ c cl, raw ≠ '-' :: c :: cl :=
            fun c cl heq => hshort ⟨c, cl, heq⟩
          have hround : round fields ⟨raw :: rest, none, longValue, lastFlag,
              false⟩ out = handle fields (.value raw)
                ⟨rest, none, longValue, none, false⟩ out := by
            unfold round Parser.nextArg
            dsimp only
            rw [nextRaw_plain hplain]
            rfl
          rw [readStep_plain hplain, hround]
          exact handle_value (hstart none) raw out
  · cases hcluster
    obtain ⟨c, more, rfl⟩ := List.exists_cons_of_ne_nil hne
    have hround : round fields ⟨remaining, some (text, idx), longValue, lastFlag,
        positionalOnly⟩ out = handle fields (.short c) ⟨remaining,
          if more = [] then none else some (text, idx + 1), longValue,
          some (formatShort c), positionalOnly⟩ out := by
      unfold round Parser.nextArg
      dsimp only
      rw [hdrop]
    rw [hround]
    apply handle_short (c := c) _ rfl out
    refine ⟨rfl, ?_, rfl, rfl⟩
    dsimp only
    by_cases hnil : more = []
    · exact .inl ⟨if_pos hnil, hnil⟩
    · refine .inr ⟨_, _, if_neg hnil, ?_, hnil⟩
      rw [← List.drop_drop, hdrop]
      rfl

-- ======== runs

/-- The loop and the reading, round by round: as long as no short option is
met behind a pending value, the loop ends as the reading does and every value
is of its own flag; if one is met, it gets a value of another. -/
theorem parseLoop_reads (rounds : Nat) (h : Reads p only pending cluster args)
    (out : ρ) {outcome : Outcome ρ} {calls : List Call}
    (hrun : parseLoop fields rounds p out = some (outcome, calls)) :
    (readArgs fields rounds only pending cluster args out = some (some outcome) ∧
        ∀ c ∈ calls, Own c) ∨
      (readArgs fields rounds only pending cluster args out = some none ∧
        ∃ c ∈ calls, ¬ Own c) := by
  induction rounds generalizing p only pending cluster args out calls with
  | zero => cases hrun
  | succ rounds ih =>
    have hstep : Agrees (readStep fields only pending out cluster args)
        (round fields p out) := round_spec h out
    rw [parseLoop_succ] at hrun
    unfold readArgs
    generalize round fields p out = turn at hstep hrun
    obtain ⟨turn, made⟩ := turn
    cases hread : readStep fields only pending out cluster args with
    | stop outcome' =>
      rw [hread] at hstep
      cases turn with
      | inl outcome'' =>
        obtain ⟨rfl, hown⟩ := hstep
        obtain ⟨rfl, rfl⟩ := Prod.mk.inj (Option.some.inj hrun)
        exact .inl ⟨rfl, hown⟩
      | inr next => exact hstep.elim
    | foreign =>
      rw [hread] at hstep
      obtain ⟨c, hc, hown⟩ := hstep
      refine .inr ⟨rfl, c, ?_, hown⟩
      cases turn with
      | inl outcome'' =>
        obtain ⟨-, rfl⟩ := Prod.mk.inj (Option.some.inj hrun)
        exact hc
      | inr next =>
        obtain ⟨r, -, heq⟩ := Option.map_eq_some_iff.mp hrun
        obtain ⟨-, rfl⟩ := Prod.mk.inj heq
        exact List.mem_append_left _ hc
    | go only' pending' cluster' args' out' =>
      rw [hread] at hstep
      cases turn with
      | inl outcome'' => exact hstep.elim
      | inr next =>
        obtain ⟨hnext, rfl, hown⟩ := hstep
        obtain ⟨⟨o, rest⟩, hr, heq⟩ := Option.map_eq_some_iff.mp hrun
        obtain ⟨rfl, rfl⟩ := Prod.mk.inj heq
        rcases ih hnext next.2 hr with ⟨hok, hall⟩ | ⟨hbad, c, hc, hno⟩
        · refine .inl ⟨hok, fun c hc => ?_⟩
          rcases List.mem_append.mp hc with hc | hc
          · exact hown c hc
          · exact hall c hc
        · exact .inr ⟨hbad, c, List.mem_append_right _ hc, hno⟩

def clusterLeft : Option (Text × Nat) → Nat
  | some (text, idx) => text.length - idx
  | none => 0

def weight (p : Parser) : Nat :=
  clusterLeft p.shortCluster + (p.remaining.map fun arg => arg.length + 1).sum

/-- Taking an argument leaves less to read. -/
theorem nextRaw_weight {q : Parser} {arg : Arg}
    (h : p.nextRaw = (some arg, q)) : weight q < weight p := by
  obtain ⟨remaining, shortCluster, longValue, lastFlag, positionalOnly⟩ := p
  unfold Parser.nextRaw at h
  dsimp only at h
  split at h
  next => cases (Prod.mk.inj h).1
  next raw rest =>
    unfold weight
    rw [List.map_cons, List.sum_cons]
    split at h
    next =>
      obtain ⟨-, rfl⟩ := Prod.mk.inj h
      dsimp only
      omega
    next =>
      split at h
      next =>
        unfold Parser.nextPositional at h
        dsimp only at h
        split at h
        next => cases (Prod.mk.inj h).1
        next v rest =>
          obtain ⟨-, rfl⟩ := Prod.mk.inj h
          dsimp only
          rw [List.map_cons, List.sum_cons]
          omega
      next =>
        obtain ⟨-, rfl⟩ := Prod.mk.inj h
        dsimp only
        omega
      next c cl _ =>
        obtain ⟨-, rfl⟩ := Prod.mk.inj h
        dsimp only
        split
        next =>
          simp only [List.length_cons]
          omega
        next =>
          simp only [clusterLeft, List.length_cons]
          omega
      next =>
        obtain ⟨-, rfl⟩ := Prod.mk.inj h
        dsimp only
        omega

theorem nextArg_weight {q : Parser} {arg : Arg}
    (h : p.nextArg = (some arg, q)) : weight q < weight p := by
  unfold Parser.nextArg at h
  split at h
  next cluster idx hcluster =>
    dsimp only at h
    split at h
    next =>
      have hlt := nextRaw_weight h
      apply Nat.lt_of_lt_of_le hlt
      unfold weight
      dsimp only
      rw [clusterLeft]
      omega
    next ch more hdrop =>
      obtain ⟨-, rfl⟩ := Prod.mk.inj h
      have hlen := congrArg List.length hdrop
      rw [List.length_drop, List.length_cons] at hlen
      unfold weight
      rw [hcluster]
      dsimp only
      split
      next =>
        simp only [clusterLeft]
        omega
      next =>
        simp only [clusterLeft]
        omega
  next => exact nextRaw_weight h

theorem value_weight (p : Parser) : weight p.value.2 ≤ weight p := by
  unfold Parser.value
  split
  next => exact Nat.le_refl _
  next =>
    split
    next =>
      unfold weight
      dsimp only
      rw [clusterLeft]
      omega
    next =>
      split
      next => exact Nat.le_refl _
      next v rest heq =>
        unfold weight
        rw [heq, List.map_cons, List.sum_cons]
        dsimp only
        omega

/-- No action gives back an argument that was taken. -/
theorem act_weight {arg : Arg} {action : Action ρ} {next : Parser × ρ}
    {calls : List Call} (h : act arg p out action = (.inr next, calls)) :
    weight next.1 ≤ weight p := by
  have hsettle : ∀ {q : Parser} {made : List Call} {answer : Except CliError ρ},
      settle q made answer = (.inr next, calls) → next.1 = q := by
    intro q made answer hs
    cases answer with
    | error e => cases (Prod.mk.inj hs).1
    | ok out =>
      cases (Prod.mk.inj hs).1
      rfl
  rw [hsettle h]
  cases action with
  | flag set => exact Nat.le_refl _
  | value set =>
    have hle := value_weight p
    unfold Action.run
    rcases hv : p.value with ⟨_ | raw, q⟩
    · rw [hv] at hle
      exact hle
    · rw [hv] at hle
      exact hle

/-- Handling an argument puts nothing back. -/
theorem handle_weight {arg : Arg} {next : Parser × ρ} {calls : List Call}
    (h : handle fields arg p out = (.inr next, calls)) :
    weight next.1 ≤ weight p := by
  cases arg with
  | value v =>
    unfold handle at h
    dsimp only at h
    split at h
    next => cases (Prod.mk.inj h).1
    next =>
      split at h
      next => cases (Prod.mk.inj h).1
      next =>
        cases (Prod.mk.inj h).1
        exact Nat.le_refl _
  | short c =>
    rw [handle_short_eq] at h
    cases hact : shortAction fields c with
    | none =>
      rw [hact] at h
      cases (Prod.mk.inj h).1
    | some action =>
      rw [hact] at h
      exact act_weight h
  | long name =>
    rw [handle_long_eq] at h
    cases hact : longAction fields name with
    | none =>
      rw [hact] at h
      cases (Prod.mk.inj h).1
    | some action =>
      rw [hact] at h
      exact act_weight h

theorem parseLoop_isSome (rounds : Nat) (p : Parser) (out : ρ)
    (h : weight p < rounds) : (parseLoop fields rounds p out).isSome = true := by
  induction rounds generalizing p out with
  | zero => exact absurd h (Nat.not_lt_zero _)
  | succ rounds ih =>
    rw [parseLoop_succ]
    rcases hturn : round fields p out with ⟨outcome | next, calls⟩
    · rfl
    · unfold proceed
      rw [Option.isSome_map]
      apply ih
      unfold round at hturn
      split at hturn
      next => cases (Prod.mk.inj hturn).1
      next arg q hnext =>
        have hlt := nextArg_weight hnext
        have hle := handle_weight hturn
        omega

/-- `parse_from` ends, and every value it takes is of the flag it is taken
for exactly if no short option that takes a value is read behind a boolean
one that was given some; it then answers as the reading of the arguments
does. -/
theorem values_attached_iff (fields : List (Field ρ)) (default : ρ)
    (args : List Text) : ∃ outcome calls,
      parseFrom fields default args = some (outcome, calls) ∧
        ((∀ c ∈ calls, Own c) ↔ reading fields default args ≠ some none) ∧
        (reading fields default args ≠ some none →
          reading fields default args = some (some outcome)) := by
  have hsome : (parseFrom fields default args).isSome = true := by
    apply parseLoop_isSome
    unfold weight roundsFor
    rw [Nat.lt_succ_iff]
    exact Nat.le_of_eq (Nat.zero_add _)
  obtain ⟨⟨outcome, calls⟩, hrun⟩ := Option.isSome_iff_exists.mp hsome
  refine ⟨outcome, calls, hrun, ?_⟩
  have hstart : Reads (.fromArgs args) false false [] args :=
    ⟨rfl, .inl ⟨rfl, rfl⟩, rfl, rfl⟩
  rcases parseLoop_reads (roundsFor args) hstart default hrun with
    ⟨hread, hown⟩ | ⟨hread, c, hc, hno⟩
  · refine ⟨iff_of_true hown ?_, fun _ => hread⟩
    unfold reading
    rw [hread]
    nofun
  · refine ⟨iff_of_false (fun hall => hno (hall c hc)) ?_, ?_⟩ <;>
      exact fun hne => absurd hread hne

/-- A command with a boolean `-v`, `--verbose` and a text `-n`. -/
def verboseFields : List (Field (Bool × Text)) :=
  [.option ["-v".toList, "--verbose".toList] (.flag fun out => (true, out.2)),
    .option ["-n".toList] (.value fun _ raw out => .ok (out.1, raw))]

/-- In `--verbose=yes -n5` the option `-n` gets the value of `--verbose`, and
its own is read as a flag. -/
theorem value_of_another :
    parseFrom verboseFields (false, [])
        ["--verbose=yes".toList, "-n5".toList] =
      some (.failed (.unknownShort '5'), [(.short 'n', .long)]) ∧
      ¬ Own (.short 'n', .long) ∧
      reading verboseFields (false, [])
        ["--verbose=yes".toList, "-n5".toList] = some none := by
  refine ⟨rfl, fun h => h rfl, rfl⟩

end LinuxRs.Cli
