/-
What a key of vi asks for: an ex command, a write, a buffer to load.

# Verbs

A typed line has a verb unless it is empty, a number or a substitution.
`VerbRun` says what running a verb comes to; `runVerb_run` is the one
place where the verbs are told apart.
-/
import LinuxRs.Vi.Frames

namespace LinuxRs.Vi

variable {ρ : Type}

-- ======== requests of a key

def exCommand (line : Text) : Option (Text × Text) :=
  let trimmed := trimSpaces line
  if trimmed = [] ∨ (Ex.parseUsize trimmed).isSome
      ∨ Ex.isSubstitution trimmed then none
  else some (Ex.command trimmed)

namespace Editor

def exRequest (ed : Editor ρ) (key : Key) : Option (Text × Text) :=
  if ed.mode = .commandLine .ex ∧ key = .enter then exCommand ed.typedLine
  else none

def isZZ (ed : Editor ρ) (key : Key) : Bool :=
  ed.mode = .normal && ed.pendingFind = none && ed.pendingOp = some .Z
    && key.isChar 'Z'

def writeRequest (ed : Editor ρ) (key : Key) : Option Text :=
  if ed.isZZ key then some []
  else
    (ed.exRequest key).bind fun c =>
      if c.1 = ascii "w" ∨ c.1 = ascii "wq" ∨ c.1 = ascii "x" then some c.2
      else none

/-- The argument of a `:wq` or `:x` that a key runs. -/
def writeQuitRequest (ed : Editor ρ) (key : Key) : Option Text :=
  (ed.exRequest key).bind fun c =>
    if c.1 = ascii "wq" ∨ c.1 = ascii "x" then some c.2 else none

def isForcedQuit (ed : Editor ρ) (key : Key) : Bool :=
  (ed.exRequest key).any fun c => c.1 = ascii "q!"

def loadRequest (io : Io) (ed : Editor ρ) (key : Key) : Option Buffer :=
  (ed.exRequest key).bind fun c =>
    if c.1 = ascii "e" ∧ c.2 ≠ [] then (Buffer.load io c.2).toOption
    else none

end Editor

/-- Where a write goes: to its argument, or to the path of the buffer. -/
def writeTarget (b : Buffer) (arg : Text) : Option Text :=
  if arg = [] then b.path else some arg

/-- Does a write fail: there is no path, or the file system refuses it. -/
def writeFails (io : Io) (b : Buffer) (arg : Text) : Bool :=
  (writeTarget b arg).elim true fun path =>
    !(io.write path b.blob).toBool

-- ======== writing

section Writing

variable {io : Io} {b : Buffer} {arg : Text}

theorem saveTo_fails (h : writeFails io b arg = true) :
    ∃ err, Ex.saveTo io b arg = (.error err, b) := by
  have hsaveAs : ∀ path, (io.write path b.blob).toBool = false →
      ∃ err, b.saveAs io path = (.error err, b) := by
    intro path hwrite
    unfold Buffer.saveAs
    cases hresult : io.write path b.blob with
    | error err => exact ⟨err, rfl⟩
    | ok _ =>
      rw [hresult] at hwrite
      cases hwrite
  unfold writeFails writeTarget at h
  unfold Ex.saveTo
  by_cases harg : arg = []
  · rw [if_pos harg] at h ⊢
    unfold Buffer.save
    cases hpath : b.path with
    | none => exact ⟨_, rfl⟩
    | some path =>
      rw [hpath] at h
      apply hsaveAs path
      simpa using h
  · rw [if_neg harg] at h ⊢
    apply hsaveAs arg
    simpa using h

/-- A save keeps the lines. -/
theorem saveTo_succeeds (h : writeFails io b arg = false) :
    ∃ bytes b', Ex.saveTo io b arg = (.ok bytes, b') ∧ b'.lines = b.lines := by
  have hsaveAs : ∀ path, (io.write path b.blob).toBool = true →
      ∃ bytes b', b.saveAs io path = (.ok bytes, b') ∧ b'.lines = b.lines := by
    intro path hwrite
    unfold Buffer.saveAs
    cases hresult : io.write path b.blob with
    | error err =>
      rw [hresult] at hwrite
      cases hwrite
    | ok _ => exact ⟨_, _, rfl, rfl⟩
  unfold writeFails writeTarget at h
  unfold Ex.saveTo
  by_cases harg : arg = []
  · rw [if_pos harg] at h ⊢
    unfold Buffer.save
    cases hpath : b.path with
    | none =>
      rw [hpath] at h
      cases h
    | some path =>
      rw [hpath] at h
      apply hsaveAs path
      simpa using h
  · rw [if_neg harg] at h ⊢
    apply hsaveAs arg
    simpa using h

theorem saveTo_lines (io : Io) (b : Buffer) (arg : Text) :
    (Ex.saveTo io b arg).2.lines = b.lines := by
  cases hfails : writeFails io b arg with
  | true =>
    obtain ⟨err, h⟩ := saveTo_fails hfails
    rw [h]
  | false =>
    obtain ⟨bytes, b', h, hlines⟩ := saveTo_succeeds hfails
    rw [h]
    exact hlines

end Writing

-- ======== ex commands

section Dispatch

variable {lib : RegexLib ρ} {io : Io} {b : Buffer}

theorem substitute_continues {line : Text} {r : ExResult × Buffer}
    (h : Ex.substitute lib line b = some r) :
    ∃ message, r.1 = .continuing message := by
  unfold Ex.substitute at h
  split at h
  · cases h
    exact ⟨_, rfl⟩
  · split at h
    · cases h
      exact ⟨_, rfl⟩
    · obtain ⟨state, -, h⟩ := Option.bind_eq_some_iff.mp h
      cases h
      exact ⟨_, rfl⟩

theorem dispatch_of_none {line : Text} {showNumbers : Bool}
    {r : ExResult × Buffer × Bool} (hline : exCommand line = none)
    (h : Ex.dispatch lib io line b showNumbers = some r) :
    (∃ message, r.1 = .continuing message) ∧ Tracked b r.2.1 := by
  unfold exCommand at hline
  simp only [ite_eq_left_iff, reduceCtorEq, imp_false, not_not] at hline
  simp only [Ex.dispatch] at h
  by_cases hempty : trimSpaces line = []
  · rw [if_pos hempty] at h
    cases h
    exact ⟨⟨_, rfl⟩, Tracked.refl b⟩
  · rw [if_neg hempty] at h
    cases hnumber : Ex.parseUsize (trimSpaces line) with
    | some n =>
      rw [hnumber] at h
      cases h
      exact ⟨⟨_, rfl⟩, Moved.tracked ⟨(_, 0), rfl⟩⟩
    | none =>
      rw [hnumber] at h hline
      have hsubst : Ex.isSubstitution (trimSpaces line) = true := by
        rcases hline with hnil | hsome | hsubst
        · exact absurd hnil hempty
        · cases hsome
        · exact hsubst
      simp only [if_pos hsubst] at h
      obtain ⟨result, hresult, h⟩ := Option.map_eq_some_iff.mp h
      subst h
      exact ⟨substitute_continues hresult, substitute_tracked hresult⟩

theorem dispatch_of_some (lib : RegexLib ρ) (io : Io) (b : Buffer)
    (showNumbers : Bool) {line : Text} {c : Text × Text}
    (hline : exCommand line = some c) : Ex.dispatch lib io line b showNumbers
      = Ex.runVerb io c.1 c.2 b showNumbers := by
  unfold exCommand at hline
  simp only [Option.ite_none_left_eq_some, not_or] at hline
  obtain ⟨⟨hempty, hnumber, hsubst⟩, hc⟩ := hline
  injection hc with hc
  simp only [Ex.dispatch]
  rw [if_neg hempty]
  cases hparsed : Ex.parseUsize (trimSpaces line) with
  | some n =>
    rw [hparsed] at hnumber
    exact absurd rfl hnumber
  | none =>
    simp only [if_neg hsubst]
    rw [hc]

/-- What a verb of the command line does. -/
inductive VerbRun (io : Io) (b : Buffer) (arg : Text) :
    Text → ExResult → Buffer → Prop where
  | write {message : Text} : VerbRun io b arg (ascii "w")
      (.continuing (some message)) (Ex.saveTo io b arg).2
  | quit (force : Bool) :
      VerbRun io b arg (if force then ascii "q!" else ascii "q")
        (Ex.quit b force) b
  | writeQuit {verb : Text} (hverb : verb = ascii "wq" ∨ verb = ascii "x") :
      VerbRun io b arg verb (.quit 0) (Ex.saveTo io b arg).2
  | edit : VerbRun io b arg (ascii "e") (Ex.edit io arg) b
  | other {verb : Text} {message : Option Text} {b' : Buffer}
      (hwrite : verb ≠ ascii "w" ∧ verb ≠ ascii "wq" ∧ verb ≠ ascii "x")
      (hedit : verb ≠ ascii "e") (htracked : Tracked b b') :
      VerbRun io b arg verb (.continuing message) b'

theorem readInto_continues {arg : Text} {r : ExResult × Buffer}
    (h : Ex.readInto io b arg = some r) :
    ∃ message, r.1 = .continuing message := by
  unfold Ex.readInto at h
  split at h
  · cases h
    exact ⟨_, rfl⟩
  · split at h
    · cases h
      exact ⟨_, rfl⟩
    · obtain ⟨lines, -, h⟩ := Option.bind_eq_some_iff.mp h
      cases h
      exact ⟨_, rfl⟩

theorem setOption_continues (arg : Text) (showNumbers : Bool) :
    ∃ message, (Ex.setOption arg showNumbers).1 = .continuing message := by
  unfold Ex.setOption
  split
  · exact ⟨_, rfl⟩
  · split
    · exact ⟨_, rfl⟩
    · exact ⟨_, rfl⟩

/-- What a verb does, one case for each verb. -/
theorem runVerb_run {verb arg : Text} {showNumbers : Bool}
    {r : ExResult × Buffer × Bool}
    (h : Ex.runVerb io verb arg b showNumbers = some r) :
    VerbRun io b arg verb r.1 r.2.1 := by
  unfold Ex.runVerb at h
  by_cases hw : verb = ascii "w"
  · rw [if_pos hw] at h
    cases h
    rw [hw]
    exact .write
  rw [if_neg hw] at h
  by_cases hq : verb = ascii "q"
  · rw [if_pos hq] at h
    cases h
    rw [hq]
    exact .quit false
  rw [if_neg hq] at h
  by_cases hforce : verb = ascii "q!"
  · rw [if_pos hforce] at h
    cases h
    rw [hforce]
    exact .quit true
  rw [if_neg hforce] at h
  by_cases hwq : verb = ascii "wq" ∨ verb = ascii "x"
  · rw [if_pos hwq] at h
    cases h
    exact .writeQuit hwq
  rw [if_neg hwq] at h
  by_cases he : verb = ascii "e"
  · rw [if_pos he] at h
    cases h
    rw [he]
    exact .edit
  rw [if_neg he] at h
  have hwrite : verb ≠ ascii "w" ∧ verb ≠ ascii "wq" ∧ verb ≠ ascii "x" :=
    ⟨hw, fun h => hwq (.inl h), fun h => hwq (.inr h)⟩
  by_cases hr : verb = ascii "r"
  · rw [if_pos hr] at h
    obtain ⟨result, hresult, h⟩ := Option.map_eq_some_iff.mp h
    subst h
    obtain ⟨message, hmessage⟩ := readInto_continues hresult
    rw [hmessage]
    exact .other hwrite he (readInto_tracked hresult)
  rw [if_neg hr] at h
  by_cases hset : verb = ascii "set"
  · rw [if_pos hset] at h
    cases h
    obtain ⟨message, hmessage⟩ := setOption_continues arg showNumbers
    show VerbRun io b arg verb (Ex.setOption arg showNumbers).1 b
    rw [hmessage]
    exact .other hwrite he (Tracked.refl b)
  rw [if_neg hset] at h
  by_cases hhelp : verb = ascii "help"
  · rw [if_pos hhelp] at h
    cases h
    exact .other hwrite he (Tracked.refl b)
  · rw [if_neg hhelp] at h
    cases h
    exact .other hwrite he (Tracked.refl b)

end Dispatch

end LinuxRs.Vi
