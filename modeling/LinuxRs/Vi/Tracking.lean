/-
Every key of vi tracks its edits.

# One lemma for each mode

A key that neither loads nor writes the buffer changes only the cursor, or
it sets the dirty flag; `Editor.step_running` puts the modes together, and
`Editor.step_left` says that only an ex command leaves the editor.
-/
import LinuxRs.Vi.Requests

namespace LinuxRs.Vi

variable {ρ : Type}

-- ======== the modes

namespace Editor

section Modes

variable {lib : RegexLib ρ} {io : Io} {e e' : Editor ρ} {key : Key}

theorem edit_tracked {f : Buffer → Option Buffer} (h : e.edit f = some e')
    (hf : ∀ b', f e.buffer = some b' → Tracked e.buffer b') :
    Tracked e.buffer e'.buffer := by
  obtain ⟨b', hb', h⟩ := Option.map_eq_some_iff.mp h
  subst h
  exact hf b' hb'

theorem take_tracked {f : Buffer → Option (Text × Buffer)}
    (h : e.take f = some e')
    (hf : ∀ r, f e.buffer = some r → Tracked e.buffer r.2) :
    Tracked e.buffer e'.buffer := by
  obtain ⟨r, hr, h⟩ := Option.map_eq_some_iff.mp h
  subst h
  exact hf r hr

theorem takeLine_tracked {f : Buffer → Option (Text × Buffer)}
    (h : e.takeLine f = some e')
    (hf : ∀ r, f e.buffer = some r → Tracked e.buffer r.2) :
    Tracked e.buffer e'.buffer := by
  refine take_tracked h fun r hr => ?_
  obtain ⟨r', hr', hr⟩ := Option.map_eq_some_iff.mp hr
  subst hr
  exact hf r' hr'

theorem map_tracked {g : Editor ρ → Editor ρ} {o : Option (Editor ρ)}
    {b : Buffer} (h : o.map g = some e') (hg : ∀ x, (g x).buffer = x.buffer)
    (ho : ∀ x, o = some x → Tracked b x.buffer) : Tracked b e'.buffer := by
  obtain ⟨x, hx, h⟩ := Option.map_eq_some_iff.mp h
  subst h
  rw [hg]
  exact ho x hx

theorem paste_tracked {f : Buffer → Text → Option Buffer}
    (h : e.paste f = some e')
    (hf : ∀ b', f e.buffer e.register = some b' → Tracked e.buffer b') :
    Tracked e.buffer e'.buffer := by
  unfold paste at h
  split at h
  · cases h
    exact Tracked.refl _
  · exact edit_tracked (e := e.snapshot) h hf

theorem searched_tracked {result : Option (Bool × Buffer)}
    (h : e.searched result = some e')
    (hmoved : ∀ r, result = some r → Moved e.buffer r.2) :
    Tracked e.buffer e'.buffer := by
  obtain ⟨r, hr, h⟩ := Option.map_eq_some_iff.mp h
  subst h
  have := (hmoved r hr).tracked
  split
  · exact this
  · exact this

theorem undoOne_tracked : Tracked e.buffer e.undoOne.buffer := by
  unfold undoOne Undo.popInto
  cases e.undo.stack.head? with
  | none => exact Tracked.refl _
  | some s => exact .inl rfl

/-- A command that changes the text marks it. -/
theorem runCommand_tracked {count : Nat} {explicit : Bool} {cmd : Command}
    (h : runCommand lib e count explicit cmd = some e') :
    Tracked e.buffer e'.buffer := by
  cases cmd with
  | left =>
    refine edit_tracked h fun b' hb' => (times_moved ?_ hb').tracked
    intro a c hac
    cases hac
    exact left_moved
  | right =>
    exact edit_tracked h fun b' hb' =>
      (times_moved (fun _ _ => right_moved) hb').tracked
  | up =>
    exact edit_tracked h fun b' hb' =>
      (times_moved (fun _ _ => up_moved) hb').tracked
  | down =>
    exact edit_tracked h fun b' hb' =>
      (times_moved (fun _ _ => down_moved) hb').tracked
  | wordNext =>
    refine edit_tracked h fun b' hb' => (times_moved ?_ hb').tracked
    intro a c hac
    cases hac
    exact goTo_moved _
  | wordBack =>
    refine edit_tracked h fun b' hb' => (times_moved ?_ hb').tracked
    intro a c hac
    cases hac
    exact goTo_moved _
  | wordEnd =>
    refine edit_tracked h fun b' hb' => (times_moved ?_ hb').tracked
    intro a c hac
    cases hac
    exact goTo_moved _
  | lineStart =>
    cases h
    exact Moved.tracked ⟨(_, 0), rfl⟩
  | firstNonBlank =>
    exact edit_tracked h fun b' hb' => (firstNonBlank_moved hb').tracked
  | lineEnd =>
    exact edit_tracked h fun b' hb' => (lineEnd_moved hb').tracked
  | gPrefix =>
    cases h
    exact Tracked.refl _
  | goLine => exact edit_tracked h fun b' hb' => (goLine_moved hb').tracked
  | matchingBracket =>
    exact edit_tracked h fun b' hb' => (matchingBracket_moved hb').tracked
  | find verb =>
    cases h
    exact Tracked.refl _
  | pageDown =>
    refine edit_tracked h fun b' hb' => (times_moved ?_ hb').tracked
    exact fun _ _ => times_moved fun _ _ => down_moved
  | pageUp =>
    refine edit_tracked h fun b' hb' => (times_moved ?_ hb').tracked
    exact fun _ _ => times_moved fun _ _ => up_moved
  | insert =>
    cases h
    exact Tracked.refl _
  | insertNonBlank =>
    refine map_tracked h (fun _ => rfl) fun x hx => ?_
    exact edit_tracked hx fun b' hb' => (firstNonBlank_moved hb').tracked
  | append =>
    refine map_tracked h (fun _ => rfl) fun x hx => ?_
    exact edit_tracked hx fun b' hb' => (appendBuffer_moved hb').tracked
  | appendEnd =>
    refine map_tracked h (fun _ => rfl) fun x hx => ?_
    exact edit_tracked hx fun b' hb' => (appendEndBuffer_moved hb').tracked
  | openBelow =>
    exact edit_tracked (e := { e.snapshot with mode := .insert }) h
      fun b' => openBelow_tracked
  | openAbove =>
    exact edit_tracked (e := { e.snapshot with mode := .insert }) h
      fun b' => openAbove_tracked
  | deleteChar =>
    refine edit_tracked (e := e.snapshot) h fun b' => times_tracked ?_
    intro a c hac
    obtain ⟨r, hr, hac⟩ := Option.map_eq_some_iff.mp hac
    subst hac
    exact deleteAtCursor_tracked hr
  | backspaceChar =>
    refine edit_tracked (e := e.snapshot) h fun b' => times_tracked ?_
    intro a c hac
    obtain ⟨r, hr, hac⟩ := Option.map_eq_some_iff.mp hac
    subst hac
    exact backspaceChar_tracked hr
  | replaceOne =>
    cases h
    exact Tracked.refl _
  | deleteToEol =>
    exact take_tracked (e := e.snapshot) h fun r => deleteToEol_tracked
  | joinLines =>
    exact edit_tracked (e := e.snapshot) h
      fun b' => times_tracked fun _ _ => joinLines_tracked
  | operator op =>
    cases h
    exact Tracked.refl _
  | pasteAfter => exact paste_tracked h fun b' => pasteAfter_tracked
  | pasteBefore => exact paste_tracked h fun b' => pasteBefore_tracked
  | undo =>
    cases h
    exact undoOne_tracked
  | line kind =>
    cases h
    exact Tracked.refl _
  | searchNext => exact searched_tracked h fun r => find_moved
  | searchPrev => exact searched_tracked h fun r => find_moved
  | redraw =>
    cases h
    exact Tracked.refl _

theorem executeOperator_tracked {op : Operator}
    (h : executeOperator lib io e op key = some e')
    (hzz : ¬ (op = .Z ∧ key.isChar 'Z')) : Tracked e.buffer e'.buffer := by
  unfold executeOperator at h
  split at h
  · exact takeLine_tracked (e := e.snapshot) h fun r => deleteLine_tracked
  split at h
  · cases h
    exact Tracked.refl _
  split at h
  · exact take_tracked (e := e.snapshot) h fun r => deleteWord_tracked
  split at h
  · refine map_tracked h (fun _ => rfl) fun x hx => ?_
    exact take_tracked (e := e.snapshot) hx fun r => deleteWord_tracked
  split at h
  · refine map_tracked h (fun _ => rfl) fun x hx => ?_
    exact takeLine_tracked (e := e.snapshot) hx
      fun r => clearCurrentLine_tracked
  split at h
  · refine map_tracked h (fun _ => rfl) fun x hx => ?_
    exact take_tracked (e := e.snapshot) hx fun r => deleteToEol_tracked
  · cases h
    exact Tracked.refl _

theorem executeOperator_zz (hkey : key.isChar 'Z' = true) :
    ∃ e', executeOperator lib io e .Z key = some e'
      ∧ e'.buffer = (Ex.saveTo io e.buffer []).2 := by
  unfold executeOperator
  simp only [reduceCtorEq, false_and, if_false, true_and, hkey, if_true]
  exact ⟨_, rfl, rfl⟩

theorem handleInsert_tracked (h : handleInsert e key = some e') :
    Tracked e.buffer e'.buffer := by
  cases key with
  | esc =>
    have h : ({ e with mode := .normal } : Editor ρ).edit
        (Buffer.clampCol · false) = some e' := h
    exact edit_tracked (e := { e with mode := .normal }) h
      fun b' hb' => (clampCol_moved hb').tracked
  | enter =>
    have h : e.edit Buffer.splitLine = some e' := h
    exact edit_tracked h fun b' => splitLine_tracked
  | backspace =>
    have h : e.edit Buffer.backspace = some e' := h
    exact edit_tracked h fun b' => backspace_tracked
  | char b =>
    have h : e.edit (Buffer.insertByte · b.val) = some e' := h
    exact edit_tracked h fun b' => insertByte_tracked
  | tab =>
    have h : e.edit (Buffer.insertByte · (chr '\t')) = some e' := h
    exact edit_tracked h fun b' => insertByte_tracked
  | left =>
    have h : some (e.withBuffer (Motion.left e.buffer)) = some e' := h
    cases h
    exact left_moved.tracked
  | right =>
    have h : e.edit insertRight = some e' := h
    exact edit_tracked h fun b' hb' => (insertRight_moved hb').tracked
  | up =>
    have h : e.edit insertUp = some e' := h
    exact edit_tracked h fun b' hb' => (insertUp_moved hb').tracked
  | down =>
    have h : e.edit insertDown = some e' := h
    exact edit_tracked h fun b' hb' => (insertDown_moved hb').tracked
  | ctrl b =>
    have h : (if b = chr 'w' then e.edit Edit.dropWordLeft else some e)
        = some e' := h
    by_cases hw : b = chr 'w'
    · rw [if_pos hw] at h
      exact edit_tracked h fun b' => dropWordLeft_tracked
    · rw [if_neg hw] at h
      cases h
      exact Tracked.refl _
  | _ =>
    have h : some e = some e' := h
    cases h
    exact Tracked.refl _

theorem handleReplace_tracked (h : handleReplace e key = some e') :
    Tracked e.buffer e'.buffer := by
  unfold handleReplace at h
  split at h
  · exact edit_tracked (e := { e.snapshot with mode := .normal }) h
      fun b' => replaceAtCursor_tracked
  · cases h
    exact Tracked.refl _

theorem enterSearch_tracked {forward : Bool}
    (h : enterSearch lib e forward = some e') :
    Tracked e.buffer e'.buffer := by
  unfold enterSearch at h
  simp only at h
  split at h
  · cases h
    exact Tracked.refl _
  · next search _ =>
    exact searched_tracked
      (e := { e with mode := .normal, cmdline := [], search := search }) h
      fun r => find_moved

theorem handleNormal_zz (lib : RegexLib ρ) (io : Io)
    (hzz : e.isZZ key = true) : ∃ e', handleNormal lib io e key = some e'
      ∧ e'.buffer = (Ex.saveTo io e.buffer []).2 := by
  simp only [isZZ, Bool.and_eq_true, decide_eq_true_eq] at hzz
  obtain ⟨⟨⟨-, hfind⟩, hop⟩, hkey⟩ := hzz
  unfold handleNormal
  rw [hfind]
  cases key with
  | char b =>
    have hb : b.val = chr 'Z' := by simpa [Key.isChar] using hkey
    have hdigit : digitOf e.count (.char b) = none := by
      simp only [digitOf, hb]
      exact if_neg fun h => absurd h.1 (by decide)
    have hg : ¬ (e.gPrefix = true ∧ Key.isChar (.char b) 'g' = true) := by
      intro h
      have : b.val = chr 'g' := by simpa [Key.isChar] using h.2
      rw [hb] at this
      exact absurd this (by decide)
    simp only [hdigit]
    unfold handleVerb
    rw [if_neg hg]
    simp only [hop]
    exact executeOperator_zz (e := { e with
      gPrefix := false, count := 0, pendingOp := none }) hkey
  | _ => cases hkey

/-- A key in normal mode marks what it changes. -/
theorem handleNormal_tracked (hmode : e.mode = .normal)
    (h : handleNormal lib io e key = some e')
    (hzz : e.isZZ key = false) : Tracked e.buffer e'.buffer := by
  unfold handleNormal at h
  cases hfind : e.pendingFind with
  | some verb =>
    rw [hfind] at h
    simp only at h
    split at h
    · obtain ⟨r, hr, h⟩ := Option.bind_eq_some_iff.mp h
      have hmoved := findTarget_moved hr
      cases h
      split
      · exact hmoved.tracked
      · exact hmoved.tracked
    · cases h
      exact Tracked.refl _
  | none =>
    rw [hfind] at h
    simp only at h
    split at h
    · cases h
      exact Tracked.refl _
    · unfold handleVerb at h
      split at h
      · refine edit_tracked (e := { e with gPrefix := false, count := 0 }) h ?_
        intro b' hb'
        exact (Moved.trans ⟨(0, e.buffer.col), rfl⟩
          (firstNonBlank_moved hb')).tracked
      · simp only at h
        cases hop : e.pendingOp with
        | some op =>
          rw [hop] at h
          refine executeOperator_tracked (e := { e with
            gPrefix := false, count := 0, pendingOp := none }) h ?_
          intro hZ
          simp [isZZ, hmode, hfind, hop, hZ.1, hZ.2] at hzz
        | none =>
          rw [hop] at h
          simp only at h
          split at h
          · next cmd _ =>
            exact runCommand_tracked (e := { e with
                gPrefix := false, count := 0, pendingOp := none }) h
          · cases h
            exact Tracked.refl _

theorem draw_eq (e : Editor ρ) :
    ∃ status, e.draw = { e with status := status } := by
  unfold draw
  split
  · exact ⟨e.status, rfl⟩
  · exact ⟨[], rfl⟩

/-- The editor is left by a quit command only. -/
theorem step_left {code : Int} (h : step lib io e key = some (.left code)) :
    ∃ c b, e.exRequest key = some c
      ∧ VerbRun io e.buffer c.2 c.1 (.quit code) b := by
  obtain ⟨status, hdraw⟩ := e.draw_eq
  unfold step at h
  rw [hdraw] at h
  simp only at h
  cases hmode : e.mode with
  | normal =>
    rw [hmode] at h
    obtain ⟨x, -, h⟩ := Option.map_eq_some_iff.mp h
    cases h
  | insert =>
    rw [hmode] at h
    obtain ⟨x, -, h⟩ := Option.map_eq_some_iff.mp h
    cases h
  | replaceOne =>
    rw [hmode] at h
    obtain ⟨x, -, h⟩ := Option.map_eq_some_iff.mp h
    cases h
  | commandLine kind =>
    rw [hmode] at h
    unfold handleCmdline at h
    simp only at h
    split at h
    · split at h
      · obtain ⟨r, hr, h⟩ := Option.bind_eq_some_iff.mp h
        injection h with h
        have hresult : r.1 = .quit code := by
          cases hr1 : r.1 with
          | continuing message =>
            rw [hr1] at h
            cases h
          | quit code' =>
            rw [hr1] at h
            cases h
            rfl
          | replace b message =>
            rw [hr1] at h
            cases h
        unfold exRequest
        rw [if_pos ⟨hmode, rfl⟩]
        have hr : Ex.dispatch lib io e.typedLine e.buffer e.showNumbers
            = some r := hr
        cases hcommand : exCommand e.typedLine with
        | none =>
          obtain ⟨message, hmessage⟩ := (dispatch_of_none hcommand hr).1
          rw [hresult] at hmessage
          cases hmessage
        | some c =>
          rw [dispatch_of_some lib io e.buffer e.showNumbers hcommand] at hr
          have hrun := runVerb_run hr
          rw [hresult] at hrun
          exact ⟨c, r.2.1, rfl, hrun⟩
      · obtain ⟨x, -, h⟩ := Option.map_eq_some_iff.mp h
        cases h
      · obtain ⟨x, -, h⟩ := Option.map_eq_some_iff.mp h
        cases h
    · cases h
    · cases h
    · cases h
    · cases h

theorem step_verb {x : Editor ρ} {verb arg : Text} {result : ExResult}
    (hex : e.exRequest key = some (verb, arg)) (hzz : e.isZZ key = false)
    (hrun : VerbRun io e.buffer arg verb result x.buffer)
    (h : finishEx x result = .running e') :
    (∃ b, e.loadRequest io key = some b ∧ e'.buffer = b)
      ∨ (∃ arg, e.loadRequest io key = none ∧ e.writeRequest key = some arg
        ∧ e'.buffer = (Ex.saveTo io e.buffer arg).2)
      ∨ (e.loadRequest io key = none ∧ e.writeRequest key = none
        ∧ Tracked e.buffer e'.buffer) := by
  unfold loadRequest writeRequest
  rw [hex, hzz]
  simp only [Option.bind_some, Bool.false_eq_true, if_false]
  generalize hb : x.buffer = b' at hrun
  cases hrun with
  | write =>
    cases h
    refine .inr (.inl ⟨arg, ?_, ?_, hb⟩)
    · exact if_neg fun he => absurd he.1 (by decide)
    · exact if_pos (Or.inl rfl)
  | quit force =>
    have hbuffer : e'.buffer = x.buffer := by
      unfold Ex.quit at h
      split at h
      · cases h
        rfl
      · cases h
    rw [hbuffer, hb]
    refine .inr (.inr ⟨?_, ?_, Tracked.refl _⟩)
    · cases force <;> exact if_neg fun he => absurd he.1 (by decide)
    · cases force <;> exact if_neg (by decide)
  | writeQuit hverb => cases h
  | edit =>
    have hwrite : ¬ (ascii "e" = ascii "w" ∨ ascii "e" = ascii "wq"
        ∨ ascii "e" = ascii "x") := by decide
    unfold Ex.edit at h
    by_cases harg : arg = []
    · rw [if_pos harg] at h
      cases h
      refine .inr (.inr ⟨?_, if_neg hwrite, ?_⟩)
      · exact if_neg fun he => he.2 harg
      · rw [← hb]
        exact Tracked.refl _
    · rw [if_neg harg] at h
      rw [if_pos ⟨rfl, harg⟩]
      cases hload : Buffer.load io arg with
      | error err =>
        rw [hload] at h
        cases h
        refine .inr (.inr ⟨rfl, if_neg hwrite, ?_⟩)
        rw [← hb]
        exact Tracked.refl _
      | ok b =>
        rw [hload] at h
        cases h
        exact .inl ⟨b, rfl, rfl⟩
  | other hwrite hedit htracked =>
    cases h
    refine .inr (.inr ⟨?_, ?_, hb ▸ htracked⟩)
    · exact if_neg fun he => hedit he.1
    · refine if_neg fun hverb => ?_
      rcases hverb with hw | hwq | hx
      · exact hwrite.1 hw
      · exact hwrite.2.1 hwq
      · exact hwrite.2.2 hx

/-- What a key can do: load, write, or edit and mark. -/
theorem step_running (h : step lib io e key = some (.running e')) :
    (∃ b, e.loadRequest io key = some b ∧ e'.buffer = b)
      ∨ (∃ arg, e.loadRequest io key = none ∧ e.writeRequest key = some arg
        ∧ e'.buffer = (Ex.saveTo io e.buffer arg).2)
      ∨ (e.loadRequest io key = none ∧ e.writeRequest key = none
        ∧ Tracked e.buffer e'.buffer) := by
  obtain ⟨status, hdraw⟩ := e.draw_eq
  unfold step at h
  rw [hdraw] at h
  simp only at h
  have hquiet : e.exRequest key = none → e.isZZ key = false →
      Tracked e.buffer e'.buffer →
      e.loadRequest io key = none ∧ e.writeRequest key = none
        ∧ Tracked e.buffer e'.buffer := by
    intro hex hzz htracked
    unfold loadRequest writeRequest
    rw [hex, hzz]
    exact ⟨rfl, rfl, htracked⟩
  cases hmode : e.mode with
  | normal =>
    have hex : e.exRequest key = none := by simp [exRequest, hmode]
    rw [hmode] at h
    obtain ⟨x, hx, h⟩ := Option.map_eq_some_iff.mp h
    cases h
    cases hzz : e.isZZ key with
    | true =>
      obtain ⟨y, hy, hbuffer⟩ := handleNormal_zz
        (e := { e with status := status }) lib io hzz
      rw [hmode] at hy
      rw [hx] at hy
      cases hy
      refine .inr (.inl ⟨[], ?_, ?_, hbuffer⟩)
      · simp [loadRequest, hex]
      · simp [writeRequest, hzz]
    | false =>
      refine .inr (.inr (hquiet hex hzz ?_))
      exact handleNormal_tracked
        (e := { e with mode := .normal, status := status }) rfl hx
        (by rw [← hzz]; simp [isZZ, hmode])
  | insert =>
    rw [hmode] at h
    obtain ⟨x, hx, h⟩ := Option.map_eq_some_iff.mp h
    cases h
    refine .inr (.inr (hquiet ?_ ?_ ?_))
    · simp [exRequest, hmode]
    · simp [isZZ, hmode]
    · exact handleInsert_tracked
        (e := { e with mode := .insert, status := status }) hx
  | replaceOne =>
    rw [hmode] at h
    obtain ⟨x, hx, h⟩ := Option.map_eq_some_iff.mp h
    cases h
    refine .inr (.inr (hquiet ?_ ?_ ?_))
    · simp [exRequest, hmode]
    · simp [isZZ, hmode]
    · exact handleReplace_tracked
        (e := { e with mode := .replaceOne, status := status }) hx
  | commandLine kind =>
    have hzz : e.isZZ key = false := by simp [isZZ, hmode]
    rw [hmode] at h
    unfold handleCmdline at h
    simp only at h
    split at h
    · split at h
      · obtain ⟨r, hr, h⟩ := Option.bind_eq_some_iff.mp h
        injection h with h
        have hr : Ex.dispatch lib io e.typedLine e.buffer e.showNumbers
            = some r := hr
        have hex : e.exRequest .enter = exCommand e.typedLine := by
          exact if_pos ⟨hmode, rfl⟩
        cases hcommand : exCommand e.typedLine with
        | none =>
          rw [hcommand] at hex
          obtain ⟨⟨message, hmessage⟩, htracked⟩ :=
            dispatch_of_none hcommand hr
          rw [hmessage] at h
          cases h
          exact .inr (.inr (hquiet hex hzz htracked))
        | some c =>
          rw [hcommand] at hex
          rw [dispatch_of_some lib io e.buffer e.showNumbers hcommand] at hr
          obtain ⟨verb, arg⟩ := c
          obtain ⟨result, b', showNumbers⟩ := r
          have hrun := runVerb_run hr
          exact step_verb hex hzz hrun h
      · obtain ⟨x, hx, h⟩ := Option.map_eq_some_iff.mp h
        cases h
        refine .inr (.inr (hquiet ?_ hzz ?_))
        · simp [exRequest, hmode]
        · exact enterSearch_tracked (e := { e with
            mode := .commandLine .searchForward, status := status }) hx
      · obtain ⟨x, hx, h⟩ := Option.map_eq_some_iff.mp h
        cases h
        refine .inr (.inr (hquiet ?_ hzz ?_))
        · simp [exRequest, hmode]
        · exact enterSearch_tracked (e := { e with
            mode := .commandLine .searchBackward, status := status }) hx
    · cases h
      refine .inr (.inr (hquiet ?_ hzz (Tracked.refl _)))
      simp [exRequest]
    · injection h with h
      injection h with h
      subst h
      refine .inr (.inr (hquiet ?_ hzz ?_))
      · simp [exRequest]
      · split
        · exact Tracked.refl _
        · exact Tracked.refl _
    · cases h
      refine .inr (.inr (hquiet ?_ hzz (Tracked.refl _)))
      simp [exRequest]
    · next hother _ _ _ =>
      cases h
      refine .inr (.inr (hquiet ?_ hzz (Tracked.refl _)))
      exact if_neg fun henter => hother henter.2

end Modes

end Editor

end LinuxRs.Vi
