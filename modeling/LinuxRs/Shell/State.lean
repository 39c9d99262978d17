/-
The state of the shell and its copy for a subshell
(user_program/src/bin/sh/{state,exec}.rs).

`clone_for_subshell` starts from the process environment, as the shell did,
and writes the parent's variables over it. What the environment holds and the
parent no longer does comes back, and a variable that came exported is
exported again; everything else is copied.

# Reachable states

Commands change the state through its methods and its public fields only;
`Change` lists them. No method sets `readonly`.
-/
import LinuxRs.Lib.SortedMap
import LinuxRs.Shell.Ast
import Mathlib.Data.List.Lex
import Mathlib.Data.Char

namespace LinuxRs.Shell

open LinuxRs.Lib

-- ======== state

structure Var where
  value : Text
  exported : Bool
  readonly : Bool
  deriving DecidableEq

/-- The variables, functions, aliases and parameters of a shell. -/
structure State where
  vars : SortedMap Text Var
  funcs : SortedMap Text Cmd
  aliases : SortedMap Text Text
  params : List Text
  arg0 : Text
  lastStatus : Int
  lastBgPid : Nat
  errexit : Bool
  xtrace : Bool
  nounset : Bool

/-- A variable that `from_env` adds where the environment has none. -/
def orDefault (vars : SortedMap Text Var) (name value : Text) (exported : Bool) :
    SortedMap Text Var :=
  if (vars.get name).isSome then vars else vars.insert name ⟨value, exported, false⟩

/-- The variables of `State::from_env`: the environment, then the defaults. -/
def initialVars (env : List (Text × Text)) : SortedMap Text Var :=
  let vars := env.foldl (fun m e => m.insert e.1 ⟨e.2, true, false⟩) .empty
  let vars := orDefault vars "PATH".toList "/bin:/usr/bin:/usr/local/bin".toList true
  let vars := orDefault vars "IFS".toList " \t\n".toList false
  let vars := orDefault vars "PS1".toList "$ ".toList false
  orDefault vars "PS2".toList "> ".toList false

namespace State

/-- `State::from_env`, with what `env::vars` returns. -/
def fromEnv (env : List (Text × Text)) (arg0 : Text) (params : List Text) :
    State where
  vars := initialVars env
  funcs := .empty
  aliases := .empty
  params := params
  arg0 := arg0
  lastStatus := 0
  lastBgPid := 0
  errexit := false
  xtrace := false
  nounset := false

def get (st : State) (name : Text) : Option Text := (st.vars.get name).map Var.value

def set (st : State) (name value : Text) : State :=
  match st.vars.get name with
  | some v =>
    if v.readonly then st
    else { st with vars := st.vars.insert name { v with value := value } }
  | none => { st with vars := st.vars.insert name ⟨value, false, false⟩ }

def exportVar (st : State) (name : Text) (value : Option Text) : State :=
  let entry := (st.vars.get name).getD ⟨[], false, false⟩
  let entry := match value with
    | some v => if entry.readonly then entry else { entry with value := v }
    | none => entry
  { st with vars := st.vars.insert name { entry with exported := true } }

def unset (st : State) (name : Text) : State :=
  match st.vars.get name with
  | some v => if v.readonly then st else { st with vars := st.vars.erase name }
  | none => { st with vars := st.vars.erase name }

def exportedPairs (st : State) : List (Text × Text) :=
  (st.vars.entries.filter fun e => e.2.exported).map fun e => (e.1, e.2.value)

def allPairs (st : State) : List (Text × Text) :=
  st.vars.entries.map fun e => (e.1, e.2.value)

def shift (st : State) (n : Nat) : State :=
  if n > st.params.length then st else { st with params := st.params.drop n }

def defineFunction (st : State) (name : Text) (body : Cmd) : State :=
  { st with funcs := st.funcs.insert name body }

def undefineFunction (st : State) (name : Text) : State :=
  { st with funcs := st.funcs.erase name }

def defineAlias (st : State) (name value : Text) : State :=
  { st with aliases := st.aliases.insert name value }

def undefineAlias (st : State) (name : Text) : State :=
  { st with aliases := st.aliases.erase name }

end State

/-- `clone_for_subshell`; the child has the environment its parent had. -/
def cloneForSubshell (env : List (Text × Text)) (st : State) : State :=
  let new := State.fromEnv env st.arg0 st.params
  let new := st.allPairs.foldl (fun new e => new.set e.1 e.2) new
  let new := st.exportedPairs.foldl (fun new e => new.exportVar e.1 none) new
  let new := st.funcs.entries.foldl (fun new e => new.defineFunction e.1 e.2) new
  let new := st.aliases.entries.foldl (fun new e => new.defineAlias e.1 e.2) new
  { new with
    lastStatus := st.lastStatus
    lastBgPid := st.lastBgPid
    errexit := st.errexit
    xtrace := st.xtrace
    nounset := st.nounset }

/-- One change that a command makes to the state of its shell. -/
inductive Change
  | set (name value : Text)
  | exportVar (name : Text) (value : Option Text)
  | unset (name : Text)
  | setPositionals (params : List Text)
  | shift (n : Nat)
  | defineFunction (name : Text) (body : Cmd)
  | undefineFunction (name : Text)
  | defineAlias (name value : Text)
  | undefineAlias (name : Text)
  | clearAliases
  | arg0 (text : Text)
  | lastStatus (status : Int)
  | lastBgPid (pid : Nat)
  | options (errexit xtrace nounset : Bool)

def Change.apply (st : State) : Change → State
  | .set name value => st.set name value
  | .exportVar name value => st.exportVar name value
  | .unset name => st.unset name
  | .setPositionals params => { st with params := params }
  | .shift n => st.shift n
  | .defineFunction name body => st.defineFunction name body
  | .undefineFunction name => st.undefineFunction name
  | .defineAlias name value => st.defineAlias name value
  | .undefineAlias name => st.undefineAlias name
  | .clearAliases => { st with aliases := .empty }
  | .arg0 text => { st with arg0 := text }
  | .lastStatus status => { st with lastStatus := status }
  | .lastBgPid pid => { st with lastBgPid := pid }
  | .options errexit xtrace nounset =>
    { st with errexit := errexit, xtrace := xtrace, nounset := nounset }

def shellAfter (env : List (Text × Text)) (arg0 : Text) (params : List Text)
    (changes : List Change) : State :=
  changes.foldl Change.apply (.fromEnv env arg0 params)

-- ======== no readonly

def Writable (vars : SortedMap Text Var) : Prop :=
  ∀ name v, vars.get name = some v → v.readonly = false

theorem Writable.insert {vars : SortedMap Text Var} (h : Writable vars)
    {name : Text} {v : Var} (hv : v.readonly = false) :
    Writable (vars.insert name v) := by
  intro other w hw
  rw [SortedMap.get_insert] at hw
  split at hw
  · exact Option.some.inj hw ▸ hv
  · exact h other w hw

theorem Writable.erase {vars : SortedMap Text Var} (h : Writable vars)
    (name : Text) : Writable (vars.erase name) := by
  intro other w hw
  rw [SortedMap.get_erase] at hw
  split at hw
  · cases hw
  · exact h other w hw

theorem Writable.orDefault {vars : SortedMap Text Var} (h : Writable vars)
    (name value : Text) (exported : Bool) :
    Writable (orDefault vars name value exported) := by
  unfold Shell.orDefault
  split
  · exact h
  · exact h.insert rfl

theorem Writable.foldl {vars : SortedMap Text Var} (h : Writable vars)
    (env : List (Text × Text)) :
    Writable (env.foldl (fun m e => m.insert e.1 ⟨e.2, true, false⟩) vars) := by
  induction env generalizing vars with
  | nil => exact h
  | cons e rest ih => exact ih (h.insert rfl)

theorem writable_initialVars (env : List (Text × Text)) :
    Writable (initialVars env) := by
  have hempty : Writable .empty := nofun
  exact ((((hempty.foldl env).orDefault _ _ _).orDefault _ _ _).orDefault
    _ _ _).orDefault _ _ _

theorem State.set_vars {st : State} (h : Writable st.vars) (name value : Text) :
    (st.set name value).vars
      = st.vars.insert name ((st.vars.get name).elim ⟨value, false, false⟩
          fun v => { v with value := value }) := by
  unfold State.set
  cases hv : st.vars.get name with
  | none => rfl
  | some v =>
    dsimp only
    rw [if_neg (by rw [h name v hv]; decide)]
    rfl

theorem Writable.set {st : State} (h : Writable st.vars) (name value : Text) :
    Writable (st.set name value).vars := by
  rw [State.set_vars h]
  refine h.insert ?_
  cases hv : st.vars.get name with
  | none => rfl
  | some v => exact h name v hv

theorem Writable.exportVar {st : State} (h : Writable st.vars) (name : Text)
    (value : Option Text) : Writable (st.exportVar name value).vars := by
  have hentry : ((st.vars.get name).getD ⟨[], false, false⟩).readonly = false := by
    cases hv : st.vars.get name with
    | none => rfl
    | some v => exact h name v hv
  refine h.insert ?_
  cases value with
  | none => exact hentry
  | some v =>
    dsimp only
    rw [if_neg (by rw [hentry]; decide)]
    exact hentry

theorem Writable.unset {st : State} (h : Writable st.vars) (name : Text) :
    Writable (st.unset name).vars := by
  unfold State.unset
  split
  · split
    · exact h
    · exact h.erase name
  · exact h.erase name

theorem Writable.apply {st : State} (h : Writable st.vars) (c : Change) :
    Writable (c.apply st).vars := by
  cases c with
  | set name value => exact h.set name value
  | exportVar name value => exact h.exportVar name value
  | unset name => exact h.unset name
  | shift n =>
    show Writable (st.shift n).vars
    unfold State.shift
    split <;> exact h
  | _ => exact h

theorem writable_shellAfter (env : List (Text × Text)) (arg0 : Text)
    (params : List Text) (changes : List Change) :
    Writable (shellAfter env arg0 params changes).vars := by
  have hrun : ∀ (cs : List Change) (st : State), Writable st.vars →
      Writable (cs.foldl Change.apply st).vars := by
    intro cs
    induction cs with
    | nil => exact fun st h => h
    | cons c cs ih => exact fun st h => ih _ (h.apply c)
  exact hrun changes _ (writable_initialVars env)

-- ======== the copy

/-- What a variable is after the parent's value was written over it. -/
def overwritten (old : Option Var) (value : Text) : Var :=
  old.elim ⟨value, false, false⟩ fun v => { v with value := value }

theorem get_foldl_set {l : List (Text × Var)} (hl : KeysSorted l) :
    ∀ {st : State}, Writable st.vars → ∀ name,
      ((l.map fun e => (e.1, e.2.value)).foldl
          (fun new e => new.set e.1 e.2) st).vars.get name
        = (lookupEntries name l).elim (st.vars.get name)
            fun v => some (overwritten (st.vars.get name) v.value) := by
  induction l with
  | nil => exact fun _ _ => rfl
  | cons e rest ih =>
    intro st hst name
    rw [List.map_cons, List.foldl_cons, ih hl.tail (hst.set _ _),
      State.set_vars hst, SortedMap.get_insert, lookupEntries_cons]
    by_cases hname : e.1 = name
    · subst hname
      rw [hl.lookup_head, if_pos rfl, if_pos rfl]
      rfl
    · rw [if_neg hname, if_neg (Ne.symm hname)]

/-- Exporting keeps the values and marks the names. -/
theorem get_foldl_export {l : List (Text × Text)} :
    ∀ {st : State}, (∀ e ∈ l, (st.vars.get e.1).isSome) → ∀ name,
      (l.foldl (fun new e => new.exportVar e.1 none) st).vars.get name
        = if name ∈ l.map Prod.fst then
            (st.vars.get name).map fun v => { v with exported := true }
          else st.vars.get name := by
  induction l with
  | nil => exact fun _ _ => rfl
  | cons e rest ih =>
    intro st hst name
    have hget : ∀ other, (st.exportVar e.1 none).vars.get other
        = if other = e.1 then (st.vars.get e.1).map
            fun v => { v with exported := true }
          else st.vars.get other := by
      intro other
      obtain ⟨v, hv⟩ := Option.isSome_iff_exists.mp (hst e List.mem_cons_self)
      show (st.vars.insert e.1 _).get other = _
      rw [SortedMap.get_insert, hv]
      by_cases hother : other = e.1
      · rw [if_pos hother, if_pos hother]
        rfl
      · rw [if_neg hother, if_neg hother]
    have hrest : ∀ d ∈ rest, ((st.exportVar e.1 none).vars.get d.1).isSome := by
      intro d hd
      rw [hget]
      split
      next heq =>
        rw [Option.isSome_map]
        exact hst e List.mem_cons_self
      next => exact hst d (List.mem_cons_of_mem e hd)
    rw [List.foldl_cons, ih hrest, hget]
    by_cases hname : name = e.1
    · subst hname
      rw [if_pos rfl, Option.map_map, List.map_cons, if_pos List.mem_cons_self]
      split <;> rfl
    · rw [if_neg hname, List.map_cons]
      simp only [List.mem_cons, hname, false_or]

theorem foldl_fields (funcs : List (Text × Cmd)) (aliases : List (Text × Text)) :
    ∀ st : State, aliases.foldl (fun new e => new.defineAlias e.1 e.2)
          (funcs.foldl (fun new e => new.defineFunction e.1 e.2) st)
        = { st with
            funcs := funcs.foldl (fun m e => m.insert e.1 e.2) st.funcs
            aliases := aliases.foldl (fun m e => m.insert e.1 e.2) st.aliases } := by
  have halias : ∀ (l : List (Text × Text)) (st : State),
      l.foldl (fun new e => new.defineAlias e.1 e.2) st
        = { st with aliases := l.foldl (fun m e => m.insert e.1 e.2) st.aliases } := by
    intro l
    induction l with
    | nil => exact fun _ => rfl
    | cons e rest ih => exact fun st => ih _
  have hfunc : ∀ (l : List (Text × Cmd)) (st : State),
      l.foldl (fun new e => new.defineFunction e.1 e.2) st
        = { st with funcs := l.foldl (fun m e => m.insert e.1 e.2) st.funcs } := by
    intro l
    induction l with
    | nil => exact fun _ => rfl
    | cons e rest ih => exact fun st => ih _
  intro st
  rw [hfunc, halias]

theorem foldl_set_fields (l : List (Text × Text)) :
    ∀ st : State, ∃ vars, l.foldl (fun new e => new.set e.1 e.2) st
      = { st with vars := vars } := by
  induction l with
  | nil => exact fun st => ⟨st.vars, rfl⟩
  | cons e rest ih =>
    intro st
    obtain ⟨vars, hvars⟩ := ih (st.set e.1 e.2)
    have hset : ∃ vars', st.set e.1 e.2 = { st with vars := vars' } := by
      unfold State.set
      split
      · split
        · exact ⟨st.vars, rfl⟩
        · exact ⟨_, rfl⟩
      · exact ⟨_, rfl⟩
    obtain ⟨vars', hset⟩ := hset
    refine ⟨vars, ?_⟩
    rw [List.foldl_cons, hvars, hset]

theorem foldl_export_fields (l : List (Text × Text)) :
    ∀ st : State, ∃ vars, l.foldl (fun new e => new.exportVar e.1 none) st
      = { st with vars := vars } := by
  induction l with
  | nil => exact fun st => ⟨st.vars, rfl⟩
  | cons e rest ih =>
    intro st
    obtain ⟨vars, hvars⟩ := ih (st.exportVar e.1 none)
    exact ⟨vars, hvars⟩

theorem clone_eq (env : List (Text × Text)) (st : State) :
    cloneForSubshell env st = { st with
      vars := (st.exportedPairs.foldl (fun new e => new.exportVar e.1 none)
        (st.allPairs.foldl (fun new e => new.set e.1 e.2)
          (State.fromEnv env st.arg0 st.params))).vars } := by
  obtain ⟨vars, hset⟩ := foldl_set_fields st.allPairs
    (State.fromEnv env st.arg0 st.params)
  obtain ⟨vars', hexport⟩ := foldl_export_fields st.exportedPairs
    { State.fromEnv env st.arg0 st.params with vars := vars }
  unfold cloneForSubshell
  dsimp only
  rw [hset, hexport, foldl_fields]
  dsimp only [State.fromEnv]
  rw [SortedMap.foldl_insert_entries, SortedMap.foldl_insert_entries]

/-- A variable of the copy: that of the parent, or what was in the environment
at the start. -/
theorem get_clone_vars (env : List (Text × Text)) (st : State) (name : Text) :
    (cloneForSubshell env st).vars.get name
      = (st.vars.get name).elim ((initialVars env).get name) fun v =>
          some ⟨v.value, ((initialVars env).get name).elim v.exported
              fun old => old.exported || v.exported, false⟩ := by
  have hbase := writable_initialVars env
  have hset : ∀ other, (st.allPairs.foldl (fun new e => new.set e.1 e.2)
      (State.fromEnv env st.arg0 st.params)).vars.get other
        = (st.vars.get other).elim ((initialVars env).get other)
            fun v => some (overwritten ((initialVars env).get other) v.value) :=
    get_foldl_set st.vars.sorted hbase
  have hmem : name ∈ st.exportedPairs.map Prod.fst ↔
      ∃ v, st.vars.get name = some v ∧ v.exported = true := by
    unfold State.exportedPairs
    rw [List.map_map, List.mem_map]
    constructor
    · rintro ⟨e, he, rfl⟩
      obtain ⟨he, hexp⟩ := List.mem_filter.mp he
      exact ⟨e.2, (st.vars.get_iff _ _).mpr he, hexp⟩
    · rintro ⟨v, hv, hexp⟩
      exact ⟨(name, v), List.mem_filter.mpr ⟨(st.vars.get_iff _ _).mp hv, hexp⟩, rfl⟩
  rw [clone_eq]
  rw [get_foldl_export, hset]
  · cases hv : st.vars.get name with
    | none =>
      rw [if_neg (fun h => by obtain ⟨v, h, _⟩ := hmem.mp h; rw [hv] at h; cases h)]
      rfl
    | some v =>
      have hro : ((initialVars env).get name).elim false Var.readonly = false := by
        cases hb : (initialVars env).get name with
        | none => rfl
        | some old => exact hbase name old hb
      cases hexp : v.exported with
      | true =>
        rw [if_pos (hmem.mpr ⟨v, hv, hexp⟩)]
        cases hb : (initialVars env).get name with
        | none => simp [overwritten, hexp]
        | some old =>
          rw [hb] at hro
          have hro : old.readonly = false := hro
          simp [overwritten, hro, hexp]
      | false =>
        rw [if_neg (fun h => by
          obtain ⟨w, hw, hexp'⟩ := hmem.mp h
          obtain rfl : v = w := Option.some.inj (hv.symm.trans hw)
          rw [hexp] at hexp'
          cases hexp')]
        cases hb : (initialVars env).get name with
        | none => simp [overwritten, hexp]
        | some old =>
          rw [hb] at hro
          have hro : old.readonly = false := hro
          simp [overwritten, hro, hexp]
  · intro e he
    obtain ⟨v, hv, _⟩ : ∃ v, st.vars.get e.1 = some v ∧ v.exported = true := by
      obtain ⟨d, hd, rfl⟩ := List.mem_map.mp he
      obtain ⟨hd, hexp⟩ := List.mem_filter.mp hd
      exact ⟨d.2, (st.vars.get_iff _ _).mpr hd, hexp⟩
    rw [hset, hv]
    rfl

/-- Whatever commands have run, the copy for a subshell is the parent exactly
when every variable the shell started with is still there, and exported if it
came exported. -/
theorem subshell_copy_iff (env : List (Text × Text)) (arg0 : Text)
    (params : List Text) (changes : List Change) :
    cloneForSubshell env (shellAfter env arg0 params changes)
        = shellAfter env arg0 params changes ↔
      ∀ name old, (initialVars env).get name = some old →
        ∃ v, (shellAfter env arg0 params changes).vars.get name = some v ∧
          (old.exported = true → v.exported = true) := by
  have hwritable := writable_shellAfter env arg0 params changes
  generalize shellAfter env arg0 params changes = st at *
  constructor
  · intro heq name old hold
    have hget := get_clone_vars env st name
    rw [heq, hold] at hget
    cases hv : st.vars.get name with
    | none =>
      rw [hv] at hget
      cases hget
    | some v =>
      rw [hv] at hget
      refine ⟨v, rfl, fun hexp => ?_⟩
      have hexported : v.exported = (old.exported || v.exported) :=
        congrArg Var.exported (Option.some.inj hget)
      rw [hexported, hexp]
      rfl
  · intro hall
    have hvars : (cloneForSubshell env st).vars = st.vars := by
      apply SortedMap.ext_get
      intro name
      rw [get_clone_vars]
      cases hold : (initialVars env).get name with
      | none =>
        cases hv : st.vars.get name with
        | none => rfl
        | some v =>
          show some (⟨v.value, v.exported, false⟩ : Var) = some v
          rw [← hwritable name v hv]
      | some old =>
        obtain ⟨v, hv, hexp⟩ := hall name old hold
        rw [hv]
        show some (⟨v.value, old.exported || v.exported, false⟩ : Var) = some v
        have hor : (old.exported || v.exported) = v.exported := by
          cases ho : old.exported with
          | false => rfl
          | true => rw [hexp ho]; rfl
        rw [hor, ← hwritable name v hv]
    rw [clone_eq] at hvars ⊢
    rw [hvars]

/-- After `unset HOME` a subshell has the inherited value again. -/
theorem subshell_copy_unset :
    cloneForSubshell [("HOME".toList, "/root".toList)]
        (shellAfter [("HOME".toList, "/root".toList)] "sh".toList []
          [.unset "HOME".toList])
      ≠ shellAfter [("HOME".toList, "/root".toList)] "sh".toList []
          [.unset "HOME".toList] := by
  intro heq
  have hget := get_clone_vars [("HOME".toList, "/root".toList)]
    (shellAfter [("HOME".toList, "/root".toList)] "sh".toList []
      [.unset "HOME".toList]) "HOME".toList
  rw [heq] at hget
  revert hget
  decide

end LinuxRs.Shell
