/-
No edit is lost silently when vi is left.

# The saved lines

`Reached` follows a run with the lines that were last loaded or written
(`savedAfter`). A clean buffer has those lines (`Reached.clean`): every
edit sets the dirty flag, undo included, and only a write that succeeds
clears it.

# Where an edit is lost

`:wq` and `:x` take the message of a failing write for a success. Every
other way out looks at the dirty flag, and `ZZ`, which drops the result of
its `wq`, never leaves. So the edits are kept where no `:wq` and no `:x`
meets a failing write, `quit_keeps_edits_iff`.
-/
import LinuxRs.Vi.Tracking

namespace LinuxRs.Vi

variable {ρ : Type}

-- ======== the saved lines

def savedAfter (io : Io) (ed : Editor ρ) (key : Key) (saved : List Text) :
    List Text :=
  match ed.loadRequest io key with
  | some b => b.lines
  | none =>
    match ed.writeRequest key with
    | some arg =>
      if writeFails io ed.buffer arg then saved else ed.buffer.lines
    | none => saved

/-- The states that runs come to, with the lines last loaded or written. -/
inductive Reached (lib : RegexLib ρ) : Editor ρ → List Text → Prop where
  /-- vi without an argument. -/
  | empty : Reached lib (Editor.start Buffer.empty) Buffer.empty.lines
  /-- vi of a file. -/
  | load {io : Io} {path : Text} {b : Buffer}
      (hload : Buffer.load io path = .ok b) :
      Reached lib (Editor.start b) b.lines
  | step {ed ed' : Editor ρ} {saved : List Text} {io : Io} {key : Key}
      (hed : Reached lib ed saved)
      (hstep : Editor.step lib io ed key = some (.running ed')) :
      Reached lib ed' (savedAfter io ed key saved)

/-- What is promised of one key: leaving has nothing unsaved, and a write
that fails leaves the editor as it is. -/
structure KeepsEdits (lib : RegexLib ρ) (io : Io) (ed : Editor ρ)
    (key : Key) (saved : List Text) : Prop where
  leaving : ∀ code, Editor.step lib io ed key = some (.left code) →
    ed.isForcedQuit key = false → ed.buffer.lines = savedAfter io ed key saved
  failing : ∀ arg, ed.writeRequest key = some arg →
    writeFails io ed.buffer arg = true →
    ∃ ed', Editor.step lib io ed key = some (.running ed')
      ∧ ed'.buffer = ed.buffer

-- ======== the runs

section Runs

variable {lib : RegexLib ρ} {io : Io} {e e' : Editor ρ} {key : Key}
  {saved : List Text}

theorem step_clean (h : Editor.step lib io e key = some (.running e'))
    (hclean : e.buffer.dirty = false → e.buffer.lines = saved)
    (hdirty : e'.buffer.dirty = false) :
    e'.buffer.lines = savedAfter io e key saved := by
  unfold savedAfter
  rcases Editor.step_running h with
    ⟨b, hload, hb⟩ | ⟨arg, hload, hwrite, hb⟩ | ⟨hload, hwrite, htracked⟩
  · rw [hload, hb]
  · rw [hload, hwrite, hb, saveTo_lines]
    show e.buffer.lines
      = if writeFails io e.buffer arg then saved else e.buffer.lines
    cases hfails : writeFails io e.buffer arg with
    | false => rfl
    | true =>
      obtain ⟨err, hsave⟩ := saveTo_fails hfails
      rw [hb, hsave] at hdirty
      exact hclean hdirty
  · rw [hload, hwrite]
    obtain ⟨hdirty', hlines⟩ := htracked.clean hdirty
    rw [hlines]
    exact hclean hdirty'

theorem Reached.clean (h : Reached lib e saved)
    (hdirty : e.buffer.dirty = false) : e.buffer.lines = saved := by
  induction h with
  | empty => rfl
  | load hload => rfl
  | step hed hstep ih => exact step_clean hstep ih hdirty

theorem step_of_exRequest (lib : RegexLib ρ) (io : Io) {c : Text × Text}
    (hex : e.exRequest key = some c) : ∃ status, Editor.step lib io e key
      = (Ex.runVerb io c.1 c.2 e.buffer e.showNumbers).bind fun r =>
        some (Editor.finishEx { e with
          mode := .normal, cmdline := [], status := status
          buffer := r.2.1, showNumbers := r.2.2 } r.1) := by
  unfold Editor.exRequest at hex
  rw [Option.ite_none_right_eq_some] at hex
  obtain ⟨⟨hmode, hkey⟩, hcommand⟩ := hex
  obtain ⟨status, hdraw⟩ := e.draw_eq
  refine ⟨status, ?_⟩
  unfold Editor.step
  rw [hdraw, hkey, ← dispatch_of_some lib io e.buffer e.showNumbers hcommand]
  simp only [hmode]
  rfl

theorem writeQuit_leaves (lib : RegexLib ρ) (io : Io) {arg : Text}
    (hrequest : e.writeQuitRequest key = some arg) :
    Editor.step lib io e key = some (.left 0) := by
  obtain ⟨c, hex, hverb⟩ := Option.bind_eq_some_iff.mp hrequest
  rw [Option.ite_none_right_eq_some] at hverb
  obtain ⟨hverb, -⟩ := hverb
  obtain ⟨status, hstep⟩ := step_of_exRequest lib io hex
  rw [hstep]
  rcases hverb with hwq | hx
  · rw [hwq]
    rfl
  · rw [hx]
    rfl

theorem write_goes_on (lib : RegexLib ρ) (io : Io) {arg : Text}
    (hex : e.exRequest key = some (ascii "w", arg)) :
    ∃ e', Editor.step lib io e key = some (.running e')
      ∧ e'.buffer = (Ex.saveTo io e.buffer arg).2 := by
  obtain ⟨status, hstep⟩ := step_of_exRequest lib io hex
  rw [hstep]
  exact ⟨_, rfl, rfl⟩

theorem zz_goes_on (lib : RegexLib ρ) (io : Io) (hzz : e.isZZ key = true) :
    ∃ e', Editor.step lib io e key = some (.running e')
      ∧ e'.buffer = (Ex.saveTo io e.buffer []).2 := by
  have hmode : e.mode = .normal := by
    simp only [Editor.isZZ, Bool.and_eq_true, decide_eq_true_eq] at hzz
    exact hzz.1.1.1
  obtain ⟨status, hdraw⟩ := e.draw_eq
  obtain ⟨e', hnormal, hbuffer⟩ :=
    Editor.handleNormal_zz (e := { e with status := status }) lib io hzz
  refine ⟨e', ?_, hbuffer⟩
  unfold Editor.step
  rw [hdraw]
  simp only [hmode]
  rw [hmode] at hnormal
  rw [hnormal]
  rfl

theorem writeRequest_of_writeQuit {arg : Text}
    (hrequest : e.writeQuitRequest key = some arg) :
    e.writeRequest key = some arg := by
  obtain ⟨c, hex, hverb⟩ := Option.bind_eq_some_iff.mp hrequest
  rw [Option.ite_none_right_eq_some] at hverb
  obtain ⟨hverb, harg⟩ := hverb
  have hmode : e.mode = .commandLine .ex := by
    unfold Editor.exRequest at hex
    rw [Option.ite_none_right_eq_some] at hex
    exact hex.1.1
  have hzz : e.isZZ key = false := by simp [Editor.isZZ, hmode]
  unfold Editor.writeRequest
  rw [hzz, hex]
  simp only [Bool.false_eq_true, if_false, Option.bind_some]
  rw [if_pos (.inr hverb)]
  exact harg

/-- A failed write does not end the editor. -/
theorem failing_write_goes_on (lib : RegexLib ρ) {arg : Text}
    (hrequest : e.writeRequest key = some arg)
    (hfails : writeFails io e.buffer arg = true)
    (hquit : e.writeQuitRequest key = none) :
    ∃ e', Editor.step lib io e key = some (.running e')
      ∧ e'.buffer = e.buffer := by
  obtain ⟨err, hsave⟩ := saveTo_fails hfails
  unfold Editor.writeRequest at hrequest
  by_cases hzz : e.isZZ key = true
  · rw [if_pos hzz] at hrequest
    injection hrequest with harg
    obtain ⟨e', hstep, hbuffer⟩ := zz_goes_on lib io hzz
    refine ⟨e', hstep, ?_⟩
    rw [hbuffer, harg, hsave]
  · rw [if_neg hzz] at hrequest
    obtain ⟨c, hex, hverb⟩ := Option.bind_eq_some_iff.mp hrequest
    rw [Option.ite_none_right_eq_some] at hverb
    obtain ⟨hverb, harg⟩ := hverb
    obtain ⟨verb, arg'⟩ := c
    injection harg with harg
    have harg : arg' = arg := harg
    have hw : verb = ascii "w" := by
      rcases hverb with hw | hwq
      · exact hw
      · unfold Editor.writeQuitRequest at hquit
        rw [hex, Option.bind_some, if_pos hwq] at hquit
        cases hquit
    rw [hw, harg] at hex
    obtain ⟨e', hstep, hbuffer⟩ := write_goes_on lib io hex
    refine ⟨e', hstep, ?_⟩
    rw [hbuffer, hsave]

/-- Who leaves without force leaves what was saved. -/
theorem leaving_saved {code : Int}
    (hclean : e.buffer.dirty = false → e.buffer.lines = saved)
    (hstep : Editor.step lib io e key = some (.left code))
    (hforced : e.isForcedQuit key = false)
    (hwrites : ∀ arg, e.writeQuitRequest key = some arg →
      writeFails io e.buffer arg = false) :
    e.buffer.lines = savedAfter io e key saved := by
  obtain ⟨c, b, hex, hrun⟩ := Editor.step_left hstep
  obtain ⟨verb, arg⟩ := c
  have hmode : e.mode = .commandLine .ex := by
    unfold Editor.exRequest at hex
    rw [Option.ite_none_right_eq_some] at hex
    exact hex.1.1
  have hzz : e.isZZ key = false := by simp [Editor.isZZ, hmode]
  have hrun : VerbRun io e.buffer arg verb (.quit code) b := hrun
  generalize hresult : ExResult.quit code = result at hrun
  cases hrun with
  | write => cases hresult
  | quit force =>
    cases force with
    | true =>
      unfold Editor.isForcedQuit at hforced
      rw [hex] at hforced
      have hforced : decide (ascii "q!" = ascii "q!") = false := hforced
      exact absurd hforced (by decide)
    | false =>
      have hdirty : e.buffer.dirty = false := by
        cases hd : e.buffer.dirty with
        | false => rfl
        | true =>
          unfold Ex.quit at hresult
          rw [if_pos ⟨hd, rfl⟩] at hresult
          cases hresult
      have hload : e.loadRequest io key = none := by
        unfold Editor.loadRequest
        rw [hex, Option.bind_some]
        refine if_neg fun h => ?_
        exact absurd (show ascii "q" = ascii "e" from h.1) (by decide)
      have hwrite : e.writeRequest key = none := by
        unfold Editor.writeRequest
        rw [hzz, hex]
        rfl
      unfold savedAfter
      rw [hload, hwrite]
      exact hclean hdirty
  | writeQuit hverb =>
    have hquit : e.writeQuitRequest key = some arg := by
      unfold Editor.writeQuitRequest
      rw [hex, Option.bind_some, if_pos hverb]
    have hload : e.loadRequest io key = none := by
      unfold Editor.loadRequest
      rw [hex, Option.bind_some]
      refine if_neg fun h => ?_
      have he : verb = ascii "e" := h.1
      rw [he] at hverb
      exact absurd hverb (by decide)
    unfold savedAfter
    rw [hload, writeRequest_of_writeQuit hquit]
    show e.buffer.lines
      = if writeFails io e.buffer arg then saved else e.buffer.lines
    rw [hwrites arg hquit]
    rfl
  | edit =>
    unfold Ex.edit at hresult
    split at hresult
    · cases hresult
    · split at hresult
      · cases hresult
      · cases hresult
  | other hwrite hedit htracked => cases hresult

/-- In every state that is reached, a key keeps the edits exactly if it
does not run a `:wq` or `:x` whose write fails. -/
theorem quit_keeps_edits_iff (h : Reached lib e saved) (io : Io)
    (key : Key) : KeepsEdits lib io e key saved ↔
      ∀ arg, e.writeQuitRequest key = some arg →
        writeFails io e.buffer arg = false := by
  constructor
  case mp =>
    intro hkeeps arg hquit
    cases hfails : writeFails io e.buffer arg with
    | false => rfl
    | true =>
      obtain ⟨e', hstep, -⟩ :=
        hkeeps.failing arg (writeRequest_of_writeQuit hquit) hfails
      rw [writeQuit_leaves lib io hquit] at hstep
      cases hstep
  case mpr =>
    intro hwrites
    constructor
    case leaving =>
      intro code hstep hforced
      exact leaving_saved h.clean hstep hforced hwrites
    case failing =>
      intro arg hrequest hfails
      refine failing_write_goes_on lib hrequest hfails ?_
      cases hquit : e.writeQuitRequest key with
      | none => rfl
      | some arg' =>
        rw [writeRequest_of_writeQuit hquit] at hrequest
        cases hrequest
        rw [hwrites arg hquit] at hfails
        cases hfails

end Runs

-- ======== one lost edit

def noRegex : RegexLib Unit where
  compile := fun _ => .error []
  findAt := fun _ _ _ => none
  findIter := fun _ _ => []
  replaceAll := fun _ line _ => line
  replaceOne := fun _ line _ => line

def fullDisk : Io where
  write := fun _ _ => .error (ascii "No space left on device")
  read := fun _ => .ok (ascii "ab\n")

def runSaved (lib : RegexLib ρ) :
    Editor ρ × List Text → List (Io × Key) → Option (Editor ρ × List Text)
  | s, [] => some s
  | s, (io, key) :: rest =>
    match Editor.step lib io s.1 key with
    | some (.running e) =>
      runSaved lib (e, savedAfter io s.1 key s.2) rest
    | _ => none

theorem Reached.runSaved {lib : RegexLib ρ} {keys : List (Io × Key)}
    {s s' : Editor ρ × List Text} (hs : Reached lib s.1 s.2)
    (h : Vi.runSaved lib s keys = some s') : Reached lib s'.1 s'.2 := by
  induction keys generalizing s with
  | nil =>
    cases h
    exact hs
  | cons k rest ih =>
    obtain ⟨io, key⟩ := k
    unfold Vi.runSaved at h
    split at h
    · next e hstep => exact ih (hs.step hstep) h
    · cases h

def loadedFile : Buffer :=
  ⟨some (ascii "f"), [ascii "ab"], 0, 0, false, false⟩

def afterKeys (keys : String) : Editor Unit × List Text :=
  (runSaved noRegex (Editor.start loadedFile, loadedFile.lines)
    ((typed keys).map fun key => (fullDisk, key))).getD
    (Editor.start loadedFile, loadedFile.lines)

theorem afterKeys_reached (keys : String) :
    Reached noRegex (afterKeys keys).1 (afterKeys keys).2 := by
  have hload : Buffer.load fullDisk (ascii "f") = .ok loadedFile := by rfl
  have hstart : Reached noRegex (Editor.start loadedFile) loadedFile.lines :=
    .load hload
  unfold afterKeys
  cases hrun : runSaved noRegex (Editor.start loadedFile, loadedFile.lines)
      ((typed keys).map fun key => (fullDisk, key)) with
  | none => exact hstart
  | some s => exact Reached.runSaved hstart hrun

/-- `:w` of an edit on a full disk. -/
theorem quit_keeps_edits_w :
    KeepsEdits noRegex fullDisk (afterKeys "x:w").1 .enter
      (afterKeys "x:w").2 :=
  (quit_keeps_edits_iff (afterKeys_reached "x:w") fullDisk .enter).mpr nofun

/-- `:wq` of an edit on a full disk: the editor is left, and the edit is
nowhere. -/
theorem wq_loses_edit :
    Reached noRegex (afterKeys "x:wq").1 (afterKeys "x:wq").2
      ∧ (afterKeys "x:wq").1.buffer.lines = [ascii "b"]
      ∧ savedAfter fullDisk (afterKeys "x:wq").1 .enter (afterKeys "x:wq").2
        = [ascii "ab"]
      ∧ ¬ KeepsEdits noRegex fullDisk (afterKeys "x:wq").1 .enter
        (afterKeys "x:wq").2 := by
  have hleft : Editor.step noRegex fullDisk (afterKeys "x:wq").1 .enter
      = some (.left 0) := by rfl
  refine ⟨afterKeys_reached "x:wq", by decide, by decide, ?_⟩
  intro hkeeps
  obtain ⟨e, hrunning, -⟩ := hkeeps.failing [] (by decide) (by decide)
  rw [hleft] at hrunning
  cases hrunning

end LinuxRs.Vi
