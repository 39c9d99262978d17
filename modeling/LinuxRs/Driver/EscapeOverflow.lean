/-
Where an escape sequence overflows the console's arithmetic.

# The two places

A parameter is accumulated as `params[i] * 10 + digit` in a `u32`, and the
count of a movement to the right or down is added to the cursor in a
`usize`. Neither is bounded: the movements the other way saturate, and the
counts of the insertions and deletions are clamped. `AnsiParser.fits` is
the bound that a byte needs, by the parser and the cursor before it.

# Runs

The screen machine stops at an overflow exactly where a byte does not fit
(`Screen.writeByte_overflow_iff`), and the console does as its screen does.
So a stream overflows exactly if some byte of it does not fit the state
that the bytes before it lead to (`writeBytes_overflow_iff`).
-/
import LinuxRs.Driver.ScreenRuns

namespace LinuxRs.Driver.Vga

open VgaConsole

-- ======== the bound

namespace AnsiParser

/-- A final character fits if the sum it takes of the cursor and its count
fits a word. -/
def finalFits (p : AnsiParser) (x y : Nat) (byte : Byte) : Bool :=
  let count := (p.paramOr firstParam 1#32).toNat
  match csiOf byte with
  | .down => decide (y + count < wordSize)
  | .nextLine => decide (y + count < wordSize)
  | .right => decide (x + count < wordSize)
  | _ => true

/-- A byte among the parameters fits if it is a separator, or a digit that
leaves its parameter within a word, or a final character that fits. -/
def paramFits (p : AnsiParser) (x y : Nat) (byte : Byte) : Bool :=
  if byte = 0x3b#8 ∧ p.paramCount.val < maxAnsiParams - 1 then true
  else if 0x30#8 ≤ byte ∧ byte ≤ 0x39#8 then
    decide ((p.params p.paramCount).toNat * 10 + (byte - 0x30#8).toNat
      < wordSize)
  else p.finalFits x y byte

def fits (p : AnsiParser) (x y : Nat) (byte : Byte) : Bool :=
  match p.state with
  | .normal => true
  | .escape => true
  | .csiEntry => decide (byte = 0x3f#8) || p.paramFits x y byte
  | .csiParam => p.paramFits x y byte

end AnsiParser

def VgaConsole.fits (s : VgaConsole) (byte : Byte) : Bool :=
  s.parser.fits s.cursorX s.cursorY byte

/-- Every byte of a stream fits the state that the bytes before it lead
to. -/
def VgaConsole.allFit (s : VgaConsole) (bytes : List Byte) : Prop :=
  ∀ before byte after s', bytes = before ++ byte :: after →
    s.writeBytes true before = .ok s' → s'.fits byte = true

-- ======== one byte

theorem fitWord_overflow_iff (n : Nat) :
    fitWord true n = .error .overflow ↔ ¬ n < wordSize := by
  unfold fitWord
  by_cases h : n < wordSize
  · rw [if_pos h]
    exact iff_of_false nofun (fun hn => hn h)
  · rw [if_neg h, if_pos rfl]
    exact iff_of_true rfl h

theorem map_error_iff {A B : Type} {r : Except Fault A} {k : A → B}
    {f : Fault} : r.map k = .error f ↔ r = .error f := by
  constructor
  · exact map_error
  · intro h
    rw [h]
    rfl

theorem clampCount_ne_overflow (count max : Nat) :
    clampCount count max ≠ .error .overflow := by
  unfold clampCount
  split
  · intro h
    cases h
  · intro h
    cases h

namespace Screen

variable {t : Screen} {byte : Byte}

theorem eraseDisplay_ne_overflow (t : Screen) (mode : Nat) :
    t.eraseDisplay mode ≠ .error .overflow := by
  unfold Screen.eraseDisplay
  split
  · split
    · intro h
      cases h
    · intro h
      cases h
  · intro h
    cases h
  · intro h
    cases h
  · intro h
    cases h

theorem dispatchCsi_overflow_iff : t.dispatchCsi true byte = .error .overflow
      ↔ t.parser.finalFits t.cursorX t.cursorY byte = false := by
  unfold Screen.dispatchCsi AnsiParser.finalFits
  cases csiOf byte with
  | down | right | nextLine =>
    rw [map_error_iff, decide_eq_false_iff_not]
    exact fitWord_overflow_iff _
  | insertLines | deleteLines | deleteChars | insertChars =>
    show Except.map _ _ = _ ↔ _
    rw [map_error_iff]
    exact iff_of_false (clampCount_ne_overflow _ _) nofun
  | eraseDisplay =>
    exact iff_of_false (eraseDisplay_ne_overflow _ _) nofun
  | column | up | left | previousLine | row | position | eraseLine
  | graphicRendition | scrollRegion | saveCursor | restoreCursor
  | unknown =>
    exact iff_of_false nofun nofun

theorem handleCsiParam_overflow_iff :
    t.handleCsiParam true byte = .error .overflow
      ↔ t.parser.paramFits t.cursorX t.cursorY byte = false := by
  unfold Screen.handleCsiParam AnsiParser.csiParam AnsiParser.paramFits
  by_cases hsep : byte = 0x3b#8 ∧ t.parser.paramCount.val < maxAnsiParams - 1
  · rw [dif_pos hsep, if_pos hsep]
    exact iff_of_false nofun nofun
  · rw [dif_neg hsep, if_neg hsep]
    by_cases hdigit : 0x30#8 ≤ byte ∧ byte ≤ 0x39#8
    · rw [if_pos hdigit, if_pos hdigit, decide_eq_false_iff_not,
        ← fitWord_overflow_iff]
      unfold accumulate
      cases hword : fitWord true ((t.parser.params t.parser.paramCount).toNat
          * 10 + (byte - 0x30#8).toNat) with
      | ok n => exact iff_of_false nofun nofun
      | error f =>
        show (Except.error f : Except Fault Screen) = _ ↔ _
        rw [Except.error.injEq, Except.error.injEq]
    · rw [if_neg hdigit, if_neg hdigit]
      exact dispatchCsi_overflow_iff (t := t.enter .normal)

theorem writeByte_overflow_iff : t.writeByte true byte = .error .overflow
      ↔ t.parser.fits t.cursorX t.cursorY byte = false := by
  unfold Screen.writeByte AnsiParser.fits
  cases t.parser.state with
  | normal | escape =>
    exact iff_of_false nofun nofun
  | csiParam => exact handleCsiParam_overflow_iff
  | csiEntry =>
    unfold Screen.handleCsiEntry
    by_cases hmark : byte = 0x3f#8
    · rw [if_pos hmark, decide_eq_true hmark]
      exact iff_of_false nofun nofun
    · rw [if_neg hmark, decide_eq_false hmark, Bool.false_or]
      exact handleCsiParam_overflow_iff (t := t.enter .csiParam)

end Screen

-- ======== runs

section Runs

variable {g : Geometry} {s : VgaConsole}

theorem writeByte_overflow_iff (h : Placed g s) (byte : Byte) :
    s.writeByte true byte = .error .overflow ↔ s.fits byte = false := by
  have hone : Refines g (s.writeByte true byte)
      ((view s).writeByte true byte) := writeByte_refines h byte
  have hscreen := @Screen.writeByte_overflow_iff (view s) byte
  show _ ↔ (view s).parser.fits (view s).cursorX (view s).cursorY byte = false
  rw [← hscreen]
  generalize s.writeByte true byte = r at hone ⊢
  generalize (view s).writeByte true byte = a at hone ⊢
  cases hone with
  | ok hs hv => exact iff_of_false nofun nofun
  | error f =>
    rw [Except.error.injEq, Except.error.injEq]

theorem writeByte_placed (h : Placed g s) {byte : Byte} {s' : VgaConsole}
    (hrun : s.writeByte true byte = .ok s') : Placed g s' := by
  have hone : Refines g (s.writeByte true byte)
      ((view s).writeByte true byte) := writeByte_refines h byte
  rw [hrun] at hone
  generalize (view s).writeByte true byte = a at hone
  cases hone with
  | ok hs hv => exact hs

theorem writeBytes_cons_ok {byte : Byte} {bytes : List Byte}
    {s' : VgaConsole} (hrun : s.writeByte true byte = .ok s') :
    s.writeBytes true (byte :: bytes) = s'.writeBytes true bytes := by
  show (s.writeByte true byte).bind _ = _
  rw [hrun]
  rfl

theorem writeBytes_cons_error {byte : Byte} {bytes : List Byte} {f : Fault}
    (hrun : s.writeByte true byte = .error f) :
    s.writeBytes true (byte :: bytes) = .error f := by
  show (s.writeByte true byte).bind _ = _
  rw [hrun]
  rfl

theorem allFit_cons {byte : Byte} {bytes : List Byte} {s' : VgaConsole}
    (hrun : s.writeByte true byte = .ok s') :
    s.allFit (byte :: bytes) ↔ s.fits byte = true ∧ s'.allFit bytes := by
  constructor
  · intro h
    refine ⟨h [] byte bytes s rfl rfl, ?_⟩
    intro before b after s'' hbytes hbefore
    refine h (byte :: before) b after s'' (by rw [hbytes]; rfl) ?_
    rw [writeBytes_cons_ok hrun]
    exact hbefore
  · intro h before b after s'' hbytes hbefore
    cases before with
    | nil =>
      obtain ⟨hb, -⟩ := List.cons.inj hbytes
      cases hbefore
      rw [← hb]
      exact h.1
    | cons first before =>
      obtain ⟨hfirst, hrest⟩ := List.cons.inj hbytes
      rw [← hfirst, writeBytes_cons_ok hrun] at hbefore
      exact h.2 before b after s'' hrest hbefore

/-- The parameters of an escape sequence overflow exactly if one does not
fit. -/
theorem writeBytes_overflow_iff (h : Placed g s) (bytes : List Byte) :
    s.writeBytes true bytes ≠ .error .overflow ↔ s.allFit bytes := by
  induction bytes generalizing s with
  | nil =>
    refine iff_of_true nofun ?_
    intro before byte after s' hbytes
    exact absurd hbytes.symm (by simp)
  | cons byte bytes ih =>
    have hone := writeByte_overflow_iff h byte
    cases hrun : s.writeByte true byte with
    | ok s' =>
      have hfits : s.fits byte = true := by
        rw [hrun] at hone
        cases hb : s.fits byte with
        | true => rfl
        | false => cases hone.mpr hb
      rw [allFit_cons hrun, ← ih (writeByte_placed h hrun),
        writeBytes_cons_ok hrun]
      exact ⟨fun hne => ⟨hfits, hne⟩, fun hne => hne.2⟩
    | error f =>
      rw [writeBytes_cons_error hrun]
      rw [hrun] at hone
      constructor
      · intro hne before b after s' hbytes hbefore
        cases before with
        | nil =>
          obtain ⟨hb, -⟩ := List.cons.inj hbytes
          cases hbefore
          cases hfits : s.fits b with
          | true => rfl
          | false =>
            rw [← hb] at hfits
            exact absurd (hone.mpr hfits) hne
        | cons first before =>
          obtain ⟨hfirst, -⟩ := List.cons.inj hbytes
          rw [← hfirst, writeBytes_cons_error hrun] at hbefore
          cases hbefore
      · intro hall heq
        have hfits := hall [] byte bytes s rfl rfl
        rw [hone.mp heq] at hfits
        cases hfits

end Runs

/-- After every boot, a stream overflows no sum exactly if each of its bytes
fits the state before it; and where the screen is wide enough and lies in
its video memory, such a stream stops the console in no way at all. -/
theorem escape_overflow_iff (videoMode egaBx : BitVec 16) (earlyPos : Nat)
    (vram : Nat → Cell) {s₀ : VgaConsole}
    (hboot : boot videoMode egaBx earlyPos vram = .ok s₀) (bytes : List Byte) :
    (s₀.writeBytes true bytes ≠ .error .overflow ↔ s₀.allFit bytes)
    ∧ (8 ≤ biosColumns videoMode → (detectAdapter videoMode egaBx).2.1
        + screenLines * (2 * biosColumns videoMode)
          ≤ (detectAdapter videoMode egaBx).2.2 →
      ((∃ s, s₀.writeBytes true bytes = .ok s) ↔ s₀.allFit bytes)) := by
  have hrefines := boot_refines videoMode egaBx earlyPos vram
  rw [hboot] at hrefines
  generalize bootScreen videoMode earlyPos vram = a at hrefines
  cases hrefines with
  | ok hplaced hv =>
    have hoverflow := writeBytes_overflow_iff hplaced bytes
    refine ⟨hoverflow, ?_⟩
    intro hcols hfits
    have hwide : (bootGeometry videoMode egaBx).Wide := by
      refine ⟨hcols, Nat.le_trans (Nat.le_of_eq ?_) hfits⟩
      rw [Nat.mul_left_comm]
      rfl
    rw [← hoverflow]
    constructor
    · intro h heq
      obtain ⟨s, hs⟩ := h
      rw [hs] at heq
      cases heq
    · intro hne
      rcases writeBytes_placed true hwide bytes hplaced with
        ⟨s, hs, -⟩ | ⟨-, hstop⟩
      · exact ⟨s, hs⟩
      · exact absurd hstop hne

/-- A move to the right by three columns, on the colour screen. -/
theorem escape_overflow_right : ∃ s₀,
    boot 0x5003#16 0#16 1999 (fun _ => 0#16) = .ok s₀
      ∧ (∃ s, s₀.writeBytes true [0x1b#8, 0x5b#8, 0x33#8, 0x43#8] = .ok s)
      ∧ s₀.allFit [0x1b#8, 0x5b#8, 0x33#8, 0x43#8] := by
  obtain ⟨s₀, hboot⟩ : ∃ s₀, boot 0x5003#16 0#16 1999 (fun _ => 0#16)
      = .ok s₀ := ⟨_, rfl⟩
  have hrun : ∃ s, s₀.writeBytes true [0x1b#8, 0x5b#8, 0x33#8, 0x43#8]
      = .ok s := by
    cases hboot
    exact ⟨_, rfl⟩
  exact ⟨s₀, hboot, hrun, ((escape_overflow_iff 0x5003#16 0#16 1999
    (fun _ => 0#16) hboot _).2 (by decide) (by decide)).mp hrun⟩

/-- `ESC [` and ten nines: the tenth digit overflows the parameter. -/
theorem ten_nines_overflow : ∃ s₀,
    boot 0x5003#16 0#16 1999 (fun _ => 0#16) = .ok s₀
      ∧ s₀.writeBytes true (0x1b#8 :: 0x5b#8 :: List.replicate 10 0x39#8)
        = .error .overflow :=
  ⟨_, rfl, rfl⟩

end LinuxRs.Driver.Vga
