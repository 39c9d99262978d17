/-
Erasing, editing and escape sequences refine the screen, and with them every
byte stream. Two results about whole runs follow.

# What a run cannot see

`boot` detects the adapter and starts from the boot-time cursor. The screen
it shows and everything shown later are functions of the video mode, the
memory's contents and the bytes alone (`scroll_agrees`): an adapter that
scrolls by moving its origin and one that copies show the same.

# What a run cannot reach

On a wide screen that fits, no run of a build without overflow checks stops
at all and one with checks stops at an overflow only, every state is placed,
and every cell loaded or stored is one of video memory (`console_safe`).
-/
import LinuxRs.Driver.ScreenView

namespace LinuxRs.Driver.Vga

open VgaConsole
open Function (update update_self update_of_ne)

variable {g : Geometry} {s : VgaConsole}

-- ======== erasing

theorem Placed.here (h : Placed g s) :
    (view s).here = s.cursorY * g.columns + s.cursorX := by
  show s.cursorY * s.columns + s.cursorX = _
  rw [h.columns]

theorem Placed.rowStart (h : Placed g s) :
    (view s).rowStart = s.cursorY * g.columns := by
  show s.cursorY * s.columns = _
  rw [h.columns]

theorem fillErase_refines (h : Placed g s) {addr p count q : Nat}
    (haddr : addr = s.origin + 2 * p) (hq : q = p + count)
    (hin : g.Wide → q ≤ g.size) :
    Refines g (.ok (s.fillErase addr count)) (.ok ((view s).erase p q)) := by
  subst haddr hq
  have hend := h.screenEnd
  have heven := h.even.1
  have horigin := h.origin
  have w := fillErase_wrote s (s.origin + 2 * p) count
  refine .ok (h.wrote w (by omega) fun hw => ?_) (view_wrote w fun i hi => ?_)
  · have := hin hw
    have := h.fits hw
    omega
  · rw [fillErase_cell, view_cells hi]
    rfl

theorem eraseDisplay_refines (h : Placed g s) (mode : Nat) :
    Refines g (s.eraseDisplay mode) ((view s).eraseDisplay mode) := by
  have hcur := h.cursor
  have hend := h.screenEnd
  have hsize : (view s).size = g.size := h.size_eq
  have hrow := Geometry.row_le h.row
  unfold VgaConsole.eraseDisplay Screen.eraseDisplay
  match mode with
  | 0 =>
    rw [h.here, hsize]
    by_cases hin : s.cursorY * g.columns + s.cursorX ≤ g.size
    · rw [if_pos hin, sub_of_le (by omega)]
      exact fillErase_refines h hcur (by omega) fun _ => Nat.le_refl _
    · rw [if_neg hin, show sub s.screenEnd s.cursorPos = .error .underflow from
        if_neg (by omega)]
      exact .error _
  | 1 =>
    show Refines g (sub _ _ >>= _) (.ok ((view s).erase 0 _))
    rw [h.here, sub_of_le (by omega)]
    refine fillErase_refines h rfl (by omega) fun hw => ?_
    have := h.column hw
    omega
  | 2 =>
    rw [hsize]
    refine fillErase_refines h rfl ?_ fun _ => Nat.le_refl _
    rw [Nat.zero_add, Nat.mul_comm, h.size_eq]
  | _ + 3 => exact .ok h rfl

theorem eraseLine_refines (h : Placed g s) (mode : Nat) :
    Refines g (s.eraseLine mode) (.ok ((view s).eraseLine mode)) := by
  have hcur := h.cursor
  have hcol := h.columns
  have hrow := Geometry.row_le h.row
  match mode with
  | 0 =>
    refine .ite Iff.rfl (fun _ => .ok h rfl) fun hin => ?_
    rw [sub_of_le (by omega), h.here, h.rowStart]
    refine fillErase_refines h hcur ?_ fun _ => ?_
    · show _ + s.columns = _
      omega
    · show _ + s.columns ≤ _
      omega
  | 1 =>
    show Refines g (sub _ _ >>= _) (.ok ((view s).erase _ _))
    rw [sub_of_le (by omega), h.rowStart]
    refine fillErase_refines h (by omega) rfl fun _ => ?_
    show _ + (if s.cursorX < s.columns then s.cursorX else s.columns) ≤ _
    split <;> omega
  | 2 =>
    show Refines g (sub _ _ >>= _) (.ok ((view s).erase _ _))
    rw [sub_of_le (by omega), h.rowStart]
    refine fillErase_refines h (by omega) rfl fun _ => ?_
    show _ + s.columns ≤ _
    omega
  | _ + 3 => exact .ok h rfl

-- ======== editing

/-- The loop moves the cells from the cursor on by one. By induction on the
columns left. -/
theorem insertCharLoop_spec : ∀ (left : Nat) (s : VgaConsole) (column b : Nat)
    (carry : Cell), s.cursorX ≤ column →
    b = s.cursorPos + 2 * (column - s.cursorX) →
    ∃ s', s.insertCharLoop column carry left = .ok s' ∧
      Wrote b (b + 2 * left) s s' ∧
      ∀ a, s'.vram a = if b ≤ a ∧ a < b + 2 * left ∧ (a - b) % 2 = 0
        then if a = b then carry else s.vram (a - 2) else s.vram a := by
  intro left
  induction left with
  | zero =>
    intro s column b carry _ _
    refine ⟨s, rfl, Wrote.refl _ _ s, fun a => ?_⟩
    rw [if_neg (by omega)]
  | succ left ih =>
    intro s column b carry hcol hb
    obtain ⟨s', hrun, w, hcell⟩ := ih ((s.touch b).store b carry) (column + 1)
      (b + 2) (s.vram b) (Nat.le_succ_of_le hcol) (by
        show b + 2 = s.cursorPos + 2 * (column + 1 - s.cursorX)
        omega)
    refine ⟨s', ?_, ?_, fun a => ?_⟩
    · unfold insertCharLoop
      rw [sub_of_le hcol]
      show VgaConsole.insertCharLoop ((s.touch _).store _ carry) _
        (s.vram _) left = _
      rw [← hb]
      exact hrun
    · have hfirst : Wrote b (b + 2 * (left + 1)) s ((s.touch b).store b carry) :=
        ((touch_wrote s b).trans (store_wrote _ b carry)).mono
          (Nat.le_refl _) (by omega) rfl
      exact hfirst.trans (w.mono (by omega) (by omega) (by omega))
    · have hold : ∀ a', a' ≠ b →
          ((s.touch b).store b carry).vram a' = s.vram a' := fun a' ha' =>
        update_of_ne ha' _ _
      have hnew : ((s.touch b).store b carry).vram b = carry :=
        update_self _ _ _
      rw [hcell a]
      by_cases hin : b + 2 ≤ a ∧ a < b + 2 + 2 * left ∧ (a - (b + 2)) % 2 = 0
      · rw [if_pos hin]
        by_cases hsnd : a = b + 2
        · rw [if_pos hsnd, if_pos (by omega), if_neg (by omega), hsnd,
            Nat.add_sub_cancel]
        · rw [if_neg hsnd, if_pos (by omega), if_neg (by omega),
            hold _ (by omega)]
      · rw [if_neg hin]
        by_cases ha : a = b
        · rw [ha, hnew, if_pos (by omega), if_pos rfl]
        · rw [hold a ha, if_neg (by omega)]

/-- Inserting a character is inserting one into the line that is seen. -/
theorem insertChar_refines (h : Placed g s) :
    Refines g s.insertCharAtCursor (.ok (view s).insertChar) := by
  have hcur := h.cursor
  have hcol := h.columns
  have heven := h.even.1
  have horigin := h.origin
  have hend := h.screenEnd
  have hrow := Geometry.row_le h.row
  have hsz := h.size_eq
  obtain ⟨s', hrun, w, hcell⟩ := insertCharLoop_spec (s.columns - s.cursorX) s
    s.cursorX s.cursorPos s.eraseCell (Nat.le_refl _) (by omega)
  rw [show s.insertCharAtCursor = .ok s' from hrun]
  refine .ok (h.wrote w (by omega) fun hw => ?_) (view_wrote w fun i hi => ?_)
  · have := h.column hw
    have := h.fits hw
    omega
  · rw [hcell]
    show _ = if (view s).here ≤ i ∧ i < (view s).rowStart + s.columns then
        if i = (view s).here then s.eraseCell else (view s).cells (i - 1)
      else (view s).cells i
    rw [h.here, h.rowStart, view_cells hi]
    by_cases hin : s.cursorY * g.columns + s.cursorX ≤ i
        ∧ i < s.cursorY * g.columns + s.columns
    · rw [if_pos hin, if_pos (by omega)]
      by_cases hfirst : i = s.cursorY * g.columns + s.cursorX
      · rw [if_pos hfirst, if_pos (by omega)]
      · rw [if_neg hfirst, if_neg (by omega), view_cells (by omega)]
        congr 1
        omega
    · rw [if_neg hin, if_neg (by omega)]

/-- The loop moves the cells behind the cursor back by one. -/
theorem deleteCharLoop_spec : ∀ (left : Nat) (s : VgaConsole) (i b : Nat),
    s.cursorX ≤ i → b = s.cursorPos + 2 * (i - s.cursorX) →
    ∃ s', s.deleteCharLoop i left = .ok s' ∧
      Wrote b (b + 2 * (left + 1)) s s' ∧
      ∀ a, s'.vram a = if a = b + 2 * left then s.eraseCell
        else if b ≤ a ∧ a < b + 2 * left ∧ (a - b) % 2 = 0 then s.vram (a + 2)
        else s.vram a := by
  intro left
  induction left with
  | zero =>
    intro s i b hi hb
    refine ⟨s.store b s.eraseCell, ?_, store_wrote s b _, fun a => ?_⟩
    · unfold deleteCharLoop
      rw [sub_of_le hi, hb]
      rfl
    · show update s.vram b s.eraseCell a = _
      by_cases ha : a = b
      · rw [if_pos (by omega), ha, update_self]
      · rw [if_neg (by omega), if_neg (by omega), update_of_ne ha]
  | succ left ih =>
    intro s i b hi hb
    obtain ⟨s', hrun, w, hcell⟩ := ih
      ((s.touch (b + 2)).store b (s.vram (b + 2))) (i + 1) (b + 2)
      (Nat.le_succ_of_le hi) (by
        show b + 2 = s.cursorPos + 2 * (i + 1 - s.cursorX)
        omega)
    refine ⟨s', ?_, ?_, fun a => ?_⟩
    · have hnext : s.cursorPos + 2 * (i + 1 - s.cursorX) = b + 2 := by omega
      unfold deleteCharLoop
      rw [sub_of_le (by omega), sub_of_le hi]
      show VgaConsole.deleteCharLoop ((s.touch _).store _ (s.vram _)) _ _ = _
      rw [hnext, ← hb]
      exact hrun
    · have hload : Wrote b (b + 2 * (left + 1 + 1)) s (s.touch (b + 2)) :=
        (touch_wrote s (b + 2)).mono (by omega) (by omega) (by omega)
      have hstore : Wrote b (b + 2 * (left + 1 + 1)) (s.touch (b + 2))
          ((s.touch (b + 2)).store b (s.vram (b + 2))) :=
        (store_wrote _ b _).mono (Nat.le_refl _) (by omega) rfl
      exact (hload.trans hstore).trans (w.mono (by omega) (by omega) (by omega))
    · have hold : ∀ a', a' ≠ b →
          ((s.touch (b + 2)).store b (s.vram (b + 2))).vram a' = s.vram a' :=
        fun a' ha' => update_of_ne ha' _ _
      have hnew : ((s.touch (b + 2)).store b (s.vram (b + 2))).vram b
          = s.vram (b + 2) := update_self _ _ _
      rw [hcell a]
      by_cases hlast : a = b + 2 + 2 * left
      · rw [if_pos hlast, if_pos (by omega)]
        rfl
      · rw [if_neg hlast]
        by_cases hin : b + 2 ≤ a ∧ a < b + 2 + 2 * left ∧ (a - (b + 2)) % 2 = 0
        · rw [if_pos hin, if_neg (by omega), if_pos (by omega),
            hold _ (by omega)]
        · rw [if_neg hin, if_neg (by omega)]
          by_cases ha : a = b
          · rw [ha, hnew, if_pos (by omega)]
          · rw [hold a ha, if_neg (by omega)]

theorem deleteChar_refines (h : Placed g s) :
    Refines g s.deleteCharAtCursor (.ok (view s).deleteChar) := by
  have hcur := h.cursor
  have hcol := h.columns
  have heven := h.even.1
  have horigin := h.origin
  have hend := h.screenEnd
  have hrow := Geometry.row_le h.row
  have hsz := h.size_eq
  refine .ite Iff.rfl (fun _ => .ok h rfl) fun hx => ?_
  obtain ⟨s', hrun, w, hcell⟩ := deleteCharLoop_spec (s.columns - 1 - s.cursorX)
    s s.cursorX s.cursorPos (Nat.le_refl _) (by omega)
  rw [hrun]
  refine .ok (h.wrote w (by omega) fun hw => ?_) (view_wrote w fun i hi => ?_)
  · have := h.fits hw
    omega
  · rw [hcell]
    show _ = if (view s).here ≤ i ∧ i < (view s).rowStart + s.columns then
        if i + 1 = (view s).rowStart + s.columns then s.eraseCell
        else (view s).cells (i + 1)
      else (view s).cells i
    rw [h.here, h.rowStart, view_cells hi]
    by_cases hin : s.cursorY * g.columns + s.cursorX ≤ i
        ∧ i < s.cursorY * g.columns + s.columns
    · rw [if_pos hin]
      by_cases hlast : i + 1 = s.cursorY * g.columns + s.columns
      · rw [if_pos hlast, if_pos (by omega)]
      · rw [if_neg hlast, if_neg (by omega), if_pos (by omega),
          view_cells (by omega)]
        congr 1
    · rw [if_neg hin, if_neg (by omega), if_neg (by omega)]

theorem times_refines {body : VgaConsole → Except Fault VgaConsole}
    {body' : Screen → Screen}
    (hb : ∀ s, Placed g s → Refines g (body s) (.ok (body' (view s)))) :
    ∀ (n : Nat) (s : VgaConsole), Placed g s →
      Refines g (times body n s) (.ok (body'^[n] (view s))) := by
  intro n
  induction n with
  | zero => exact fun s h => .ok h rfl
  | succ n ih =>
    exact fun s h => (hb s h).andThen body'^[n] fun s' hs' _ => ih s' hs'

theorem clamped_refines {body : VgaConsole → Except Fault VgaConsole}
    {body' : Screen → Screen} (count max : Nat)
    (hb : ∀ n, Refines g (times body n s) (.ok (body'^[n] (view s)))) :
    Refines g (clampCount count max >>= fun n => times body n s)
      ((clampCount count max).map fun n => body'^[n] (view s)) := by
  cases clampCount count max with
  | error f => exact .error f
  | ok n => exact hb n

theorem insertChars_refines (h : Placed g s) (count : Nat) :
    Refines g (s.insertChars count) ((view s).insertChars count) :=
  clamped_refines count s.columns fun n =>
    times_refines (fun _ => insertChar_refines) n s h

theorem deleteChars_refines (h : Placed g s) (count : Nat) :
    Refines g (s.deleteChars count) ((view s).deleteChars count) :=
  clamped_refines count s.columns fun n =>
    times_refines (fun _ => deleteChar_refines) n s h

theorem belowCursor_refines (h : Placed g s) {count : Nat}
    {body : VgaConsole → Except Fault VgaConsole} {body' : Screen → Screen}
    (hb : ∀ s, Placed g s → Refines g (body s) (.ok (body' (view s)))) :
    Refines g (s.scrollRegionTemporarily fun console => do
        let n ← clampCount count console.lines
        times body n console)
      ((clampCount count (view s).lines).map fun n =>
        (view s).belowCursor body'^[n]) := by
  have hrow := h.row
  have hlin := h.lines
  have hin : Placed g { s with scrollTop := s.cursorY, scrollBottom := s.lines } :=
    { h with region := ⟨by show s.cursorY < s.lines; omega, by
        show s.lines ≤ _; omega⟩ }
  show Refines g ((clampCount count s.lines >>= _) >>= _)
    ((clampCount count s.lines).map _)
  cases clampCount count s.lines with
  | error f => exact .error f
  | ok n =>
    refine (times_refines hb n _ hin).andThen (fun t => { t with
        scrollTop := s.scrollTop, scrollBottom := s.scrollBottom })
      fun s' hs' _ => ?_
    exact .ok { hs' with region := h.region } rfl

theorem insertLines_refines (h : Placed g s) (count : Nat) :
    Refines g (s.insertLines count) ((view s).insertLines count) :=
  belowCursor_refines h fun _ => scrollDown_refines

theorem deleteLines_refines (h : Placed g s) (count : Nat) :
    Refines g (s.deleteLines count) ((view s).deleteLines count) :=
  belowCursor_refines h fun _ => scrollUp_refines

-- ======== escape sequences

variable {checks : Bool}

theorem AnsiParser.scrollRegion_some {p : AnsiParser} {lines : Nat}
    {region : Nat × Nat} (h : p.scrollRegion lines = some region) :
    region.1 < region.2 ∧ region.2 ≤ lines := by
  by_cases hin : (p.paramOr firstParam 1#32).toNat - 1
        < (if p.paramOr secondParam 0#32 = 0#32 then lines
          else (p.paramOr secondParam 0#32).toNat)
      ∧ (if p.paramOr secondParam 0#32 = 0#32 then lines
          else (p.paramOr secondParam 0#32).toNat) ≤ lines
  · obtain rfl := Option.some.inj ((if_pos hin).symm.trans h)
    exact hin
  · cases (if_neg hin).symm.trans h

theorem setScrollRegion_refines (h : Placed g s) :
    Refines g (.ok s.setScrollRegion) (.ok (view s).setScrollRegion) := by
  unfold VgaConsole.setScrollRegion Screen.setScrollRegion
  rw [show (view s).parser.scrollRegion (view s).lines
    = s.parser.scrollRegion s.lines from rfl]
  cases hr : s.parser.scrollRegion s.lines with
  | some region =>
    have hin := AnsiParser.scrollRegion_some hr
    exact .ok { h with region := ⟨hin.1, h.lines ▸ hin.2⟩ } rfl
  | none => exact .ok h rfl

theorem moveBySum_refines (h : Placed g s) (a b : Nat) (x y : Nat → Nat) :
    Refines g (sum checks a b >>= fun v => .ok (s.moveCursor (x v) (y v)))
      ((sum checks a b).map fun v => (view s).moveCursor (x v) (y v)) := by
  cases sum checks a b with
  | error f => exact .error f
  | ok v => exact moveCursor_refines h (x v) (y v)

/-- Every control sequence does to the memory what it does to the screen. -/
theorem dispatchCsi_refines (h : Placed g s) (finalCh : Byte) :
    Refines g (s.dispatchCsi checks finalCh)
      ((view s).dispatchCsi checks finalCh) := by
  unfold VgaConsole.dispatchCsi Screen.dispatchCsi
  cases csiOf finalCh with
  | column => exact moveCursor_refines h _ _
  | up => exact moveCursor_refines h _ _
  | down => exact moveBySum_refines h _ _ (fun _ => s.cursorX) fun v => v
  | right => exact moveBySum_refines h _ _ (fun v => v) fun _ => s.cursorY
  | left => exact moveCursor_refines h _ _
  | nextLine => exact moveBySum_refines h _ _ (fun _ => 0) fun v => v
  | previousLine => exact moveCursor_refines h _ _
  | row => exact moveCursor_refines h _ _
  | position => exact moveCursor_refines h _ _
  | eraseDisplay => exact eraseDisplay_refines h _
  | eraseLine => exact eraseLine_refines h _
  | insertLines => exact insertLines_refines h _
  | deleteLines => exact deleteLines_refines h _
  | deleteChars => exact deleteChars_refines h _
  | insertChars => exact insertChars_refines h _
  | graphicRendition => exact .ok { h with } rfl
  | scrollRegion => exact setScrollRegion_refines h
  | saveCursor => exact saveCursor_refines h
  | restoreCursor => exact restoreCursor_refines h
  | unknown => exact .ok h rfl

theorem handleCsiParam_refines (h : Placed g s) (byte : Byte) :
    Refines g (s.handleCsiParam checks byte)
      ((view s).handleCsiParam checks byte) := by
  show Refines g (s.parser.csiParam checks byte >>= _)
    (s.parser.csiParam checks byte >>= _)
  cases s.parser.csiParam checks byte with
  | error f => exact .error f
  | ok next =>
    cases next with
    | some parser => exact .ok { h with } rfl
    | none =>
      exact dispatchCsi_refines (s := s.enter .normal) { h with } byte

theorem handleCsiEntry_refines (h : Placed g s) (byte : Byte) :
    Refines g (s.handleCsiEntry checks byte)
      ((view s).handleCsiEntry checks byte) := by
  unfold VgaConsole.handleCsiEntry Screen.handleCsiEntry
  split
  next => exact .ok { h with } rfl
  next => exact handleCsiParam_refines (s := s.enter .csiParam) { h with } byte

theorem handleEscape_refines (h : Placed g s) (byte : Byte) :
    Refines g (s.handleEscape byte) (.ok ((view s).handleEscape byte)) := by
  have hn : Placed g (s.enter .normal) := { h with }
  refine .ite Iff.rfl (fun _ => .ok { h with } rfl) fun _ => ?_
  refine .ite Iff.rfl (fun _ => moveCursor_refines hn _ _) fun _ => ?_
  refine .ite Iff.rfl (fun _ => reverseIndex_refines hn) fun _ => ?_
  refine .ite Iff.rfl (fun _ => lineFeed_refines hn) fun _ => ?_
  refine .ite Iff.rfl (fun _ => saveCursor_refines hn) fun _ => ?_
  exact .ite Iff.rfl (fun _ => restoreCursor_refines hn) fun _ => .ok hn rfl

-- ======== bytes

theorem Screen.wrapLine_cursorX (t : Screen) :
    t.wrapLine.cursorX = t.cursorX - t.columns := by
  unfold Screen.wrapLine Screen.lineFeed
  split <;> rfl

/-- A printed character stands at the cursor, wrapped if the line is full. -/
theorem printChar_refines (h : Placed g s) (byte : Byte) :
    Refines g (s.printChar byte) (.ok ((view s).printChar byte)) := by
  have hcol := h.columns
  have hcur := h.cursor
  have hwrap : Refines g s.makeRoom
      (.ok (if (view s).cursorX ≥ (view s).columns then (view s).wrapLine
        else view s)) := by
    refine .ite Iff.rfl (fun hx => ?_) fun _ => .ok h rfl
    refine wrapLine_refines h (by omega) (fun hw => ?_) hcur
    have := h.column hw
    omega
  refine hwrap.andThen
    (fun t => { t.put (cellOf t.attr byte) with cursorX := t.cursorX + 1 })
    fun s' hs' hv => ?_
  have hx : g.Wide → s'.cursorX < g.columns := by
    intro hw
    have hle := h.column hw
    have hpos := hw.1
    rw [show s'.cursorX = (view s').cursorX from rfl, hv]
    split
    next hge =>
      rw [Screen.wrapLine_cursorX]
      show s.cursorX - s.columns < _
      omega
    next hlt =>
      have : ¬ s.cursorX ≥ s.columns := hlt
      show s.cursorX < _
      omega
  cases store_refines hs' (cellOf s'.attr byte) hx with
  | ok hput hview =>
    refine .ok (hput.moveTo hput.row (fun hw => hx hw) ?_)
      (congrArg (fun t => { t with cursorX := s'.cursorX + 1 }) hview)
    have hpos := hs'.cursor
    show s'.cursorPos + 2 = s'.origin
      + 2 * (s'.cursorY * g.columns + (s'.cursorX + 1))
    omega

theorem handleNormal_refines (h : Placed g s) (byte : Byte) :
    Refines g (s.handleNormal byte) (.ok ((view s).handleNormal byte)) := by
  refine .ite Iff.rfl (fun _ => printChar_refines h byte) fun _ => ?_
  refine .ite Iff.rfl (fun _ => .ok { h with } rfl) fun _ => ?_
  refine .ite Iff.rfl (fun _ => lineFeed_refines h) fun _ => ?_
  refine .ite Iff.rfl (fun _ => carriageReturn_refines h) fun _ => ?_
  refine .ite Iff.rfl (fun _ => delete_refines h) fun _ => ?_
  refine .ite Iff.rfl (fun _ => backspace_refines h) fun _ => ?_
  exact .ite Iff.rfl (fun _ => tab_refines h) fun _ => .ok h rfl

theorem writeByte_refines (h : Placed g s) (byte : Byte) :
    Refines g (s.writeByte checks byte) ((view s).writeByte checks byte) := by
  unfold VgaConsole.writeByte Screen.writeByte
  rw [show (view s).parser.state = s.parser.state from rfl]
  cases s.parser.state with
  | normal => exact handleNormal_refines h byte
  | escape => exact handleEscape_refines h byte
  | csiEntry => exact handleCsiEntry_refines h byte
  | csiParam => exact handleCsiParam_refines h byte

theorem writeBytes_refines (bytes : List Byte) : ∀ {s : VgaConsole},
    Placed g s →
    Refines g (s.writeBytes checks bytes) ((view s).writeBytes checks bytes) := by
  induction bytes with
  | nil => exact fun h => .ok h rfl
  | cons byte bytes ih => exact fun h => (writeByte_refines h byte).bind fun _ => ih

-- ======== booting

/-- The console as `detect_and_init` leaves it, over some memory. -/
def boot (videoMode egaBx : BitVec 16) (earlyPos : Nat) (vram : Nat → Cell) :
    Except Fault VgaConsole :=
  (uninitialized vram).detectAndInit videoMode egaBx earlyPos

def bootGeometry (videoMode egaBx : BitVec 16) : Geometry where
  columns := biosColumns videoMode
  lines := screenLines
  memStart := (detectAdapter videoMode egaBx).2.1
  memEnd := (detectAdapter videoMode egaBx).2.2

/-- The screen before the first output, with the cursor at its start. -/
def startScreen (videoMode : BitVec 16) (vram : Nat → Cell) : Screen :=
  view ((uninitialized vram).detected videoMode 0#16)

/-- The screen at boot. A monochrome adapter with a cursor off the screen
has no valid position: the initial erase underflows. -/
def bootScreen (videoMode : BitVec 16) (earlyPos : Nat) (vram : Nat → Cell) :
    Except Fault Screen :=
  if ((earlyVgaCursor earlyPos).1 > biosColumns videoMode
        ∨ (earlyVgaCursor earlyPos).2 ≥ screenLines)
      ∧ videoMode &&& 0xff#16 = monoVideoMode then .error .underflow
  else ((startScreen videoMode vram).moveCursor (earlyVgaCursor earlyPos).1
    (earlyVgaCursor earlyPos).2).eraseDisplay 0

variable {videoMode egaBx : BitVec 16} {vram : Nat → Cell} {earlyPos : Nat}

theorem detectAdapter_memStart (videoMode egaBx : BitVec 16) :
    (detectAdapter videoMode egaBx).2.1
      = if videoMode &&& 0xff#16 = monoVideoMode then 0xb0000 else 0xb8000 := by
  unfold detectAdapter
  split <;> split <;> rfl

theorem view_detected (videoMode egaBx : BitVec 16) (vram : Nat → Cell) :
    view ((uninitialized vram).detected videoMode egaBx)
      = startScreen videoMode vram := by
  unfold startScreen view VgaConsole.detected
  simp only [detectAdapter_memStart]

/-- The console is placed where the boot loader has left the cursor. -/
theorem detected_placed {x y pos : Nat} (hy : y < screenLines)
    (hx : x ≤ biosColumns videoMode)
    (hpos : pos = (bootGeometry videoMode egaBx).memStart
      + 2 * (y * biosColumns videoMode + x)) :
    Placed (bootGeometry videoMode egaBx)
      { (uninitialized vram).detected videoMode egaBx with
        cursorX := x, cursorY := y, cursorPos := pos } where
  columns := rfl
  lines := rfl
  rowBytes := Nat.mul_comm _ _
  memStart := rfl
  memEnd := rfl
  origin := Nat.le_refl _
  even := by
    show (detectAdapter videoMode egaBx).2.1 % 2 = 0
      ∧ (detectAdapter videoMode egaBx).2.1 % 2 = 0
    rw [detectAdapter_memStart]
    split <;> exact ⟨rfl, rfl⟩
  screenEnd := by
    show _ + screenLines * (biosColumns videoMode * 2)
      = _ + 2 * (screenLines * biosColumns videoMode)
    rw [← Nat.mul_assoc, Nat.mul_comm _ 2]
    rfl
  cursor := hpos
  row := hy
  region := ⟨by show 0 < 25; omega, Nat.le_refl _⟩
  aligned := nofun
  column := fun _ => hx
  fits := fun hw => by
    refine Nat.le_trans (Nat.le_of_eq ?_) hw.2
    show _ + screenLines * (biosColumns videoMode * 2)
      = _ + 2 * (screenLines * biosColumns videoMode)
    rw [← Nat.mul_assoc, Nat.mul_comm _ 2]
    rfl
  inside := nofun

theorem biosColumns_lt (videoMode : BitVec 16) : biosColumns videoMode < 256 := by
  unfold biosColumns
  rw [BitVec.toNat_ushiftRight, Nat.shiftRight_eq_div_pow]
  have := videoMode.isLt
  omega

theorem syncHardwareCursor_refines (h : Placed g s) :
    Refines g s.syncHardwareCursor (.ok (view s)) := by
  have hcur := h.cursor
  have horigin := h.origin
  have hstart := h.memStart
  unfold VgaConsole.syncHardwareCursor
  rw [sub_of_le (by omega)]
  exact .ok { h with } rfl

theorem Refines.sync {r : Except Fault VgaConsole} {a : Except Fault Screen}
    (h : Refines g r a) : Refines g (r >>= syncHardwareCursor) a := by
  cases h with
  | ok hs hv => exact hv ▸ syncHardwareCursor_refines hs
  | error f => exact .error f

theorem firstErase_refines {t : Screen} (h : Placed g s) (hv : view s = t) :
    Refines g (s.eraseDisplay 0 >>= syncHardwareCursor) (t.eraseDisplay 0) :=
  (hv ▸ eraseDisplay_refines h 0).sync

/-- After the boot the memory shows the boot screen. -/
theorem boot_refines (videoMode egaBx : BitVec 16) (earlyPos : Nat)
    (vram : Nat → Cell) :
    Refines (bootGeometry videoMode egaBx) (boot videoMode egaBx earlyPos vram)
      (bootScreen videoMode earlyPos vram) := by
  have hstart := detectAdapter_memStart videoMode egaBx
  unfold boot VgaConsole.detectAndInit bootScreen
  generalize earlyVgaCursor earlyPos = cursor
  show Refines _ (VgaConsole.eraseDisplay (VgaConsole.moveCursor
    ((uninitialized vram).detected videoMode egaBx) cursor.1 cursor.2) 0
      >>= syncHardwareCursor) _
  by_cases hoff : cursor.1 > biosColumns videoMode ∨ cursor.2 ≥ screenLines
  · have hstay : VgaConsole.moveCursor
        ((uninitialized vram).detected videoMode egaBx) cursor.1 cursor.2
        = (uninitialized vram).detected videoMode egaBx := if_pos hoff
    rw [hstay]
    by_cases hmono : videoMode &&& 0xff#16 = monoVideoMode
    · rw [if_pos ⟨hoff, hmono⟩]
      rw [if_pos hmono] at hstart
      have hcols := biosColumns_lt videoMode
      have hunder : VgaConsole.eraseDisplay
          ((uninitialized vram).detected videoMode egaBx) 0
          = .error .underflow := by
        show (sub ((detectAdapter videoMode egaBx).2.1
          + 25 * (biosColumns videoMode * 2)) 0xb8000 >>= _) = _
        rw [hstart, show sub (0xb0000 + 25 * (biosColumns videoMode * 2)) 0xb8000
          = .error .underflow from if_neg (by omega)]
        rfl
      rw [hunder]
      exact .error _
    · rw [if_neg (fun h => hmono h.2)]
      rw [if_neg hmono] at hstart
      have hplaced : Placed (bootGeometry videoMode egaBx)
          ((uninitialized vram).detected videoMode egaBx) :=
        detected_placed (x := 0) (y := 0) (by decide) (Nat.zero_le _) (by
          show 0xb8000 = (detectAdapter videoMode egaBx).2.1 + _
          rw [hstart, Nat.zero_mul])
      refine firstErase_refines hplaced ?_
      rw [view_detected]
      exact (if_pos hoff).symm
  · rw [if_neg (fun h => hoff h.1)]
    have hmove : VgaConsole.moveCursor
        ((uninitialized vram).detected videoMode egaBx) cursor.1 cursor.2
        = { (uninitialized vram).detected videoMode egaBx with
            cursorX := cursor.1
            cursorY := cursor.2
            cursorPos := (detectAdapter videoMode egaBx).2.1
              + cursor.2 * (biosColumns videoMode * 2) + 2 * cursor.1 } :=
      if_neg hoff
    rw [hmove]
    refine firstErase_refines (detected_placed (by omega) (by omega) ?_) ?_
    · show (detectAdapter videoMode egaBx).2.1
          + cursor.2 * (biosColumns videoMode * 2) + 2 * cursor.1
        = (detectAdapter videoMode egaBx).2.1 + _
      rw [← Nat.mul_assoc]
      omega
    · rw [← view_detected videoMode egaBx]
      exact (if_neg hoff).symm

-- ======== the two scrolls

/-- What the user sees: the cells by row and column, and the cursor. -/
structure Picture where
  cell : Nat → Nat → Option Cell
  cursor : Nat × Nat

def VgaConsole.picture (s : VgaConsole) : Picture where
  cell := fun row col =>
    if row < s.lines ∧ col < s.columns
    then some (s.vram (s.origin + row * s.rowBytes + 2 * col)) else none
  cursor := (s.cursorX, s.cursorY)

def Screen.picture (t : Screen) : Picture where
  cell := fun row col =>
    if row < t.lines ∧ col < t.columns
    then some (t.cells (row * t.columns + col)) else none
  cursor := (t.cursorX, t.cursorY)

theorem picture_view (h : Placed g s) : s.picture = (view s).picture := by
  unfold VgaConsole.picture Screen.picture
  congr 1
  funext row col
  by_cases hin : row < s.lines ∧ col < s.columns
  · rw [if_pos hin, if_pos (show row < (view s).lines ∧ col < (view s).columns
      from hin)]
    have hrow := Geometry.row_le (g := g) (h.lines ▸ hin.1)
    have hcol := h.columns
    have hsz := h.size_eq
    show some _ = some ((view s).cells (row * s.columns + col))
    rw [view_cells (by rw [hsz, hcol]; omega), Nat.mul_comm row s.rowBytes,
      h.rowBytes_mul, hcol]
    congr 2
    omega
  · rw [if_neg hin, if_neg (show ¬ (row < (view s).lines
      ∧ col < (view s).columns) from hin)]

theorem Refines.picture {r : Except Fault VgaConsole} {a : Except Fault Screen}
    (h : Refines g r a) : r.map VgaConsole.picture = a.map Screen.picture := by
  cases h with
  | ok hs hv =>
    subst hv
    exact congrArg Except.ok (picture_view hs)
  | error f => rfl

/-- A boot and a stream of bytes show the same on any two adapters, in
particular on one that scrolls by moving the origin and one that copies: the
same cells, the same cursor, and a fault in one exactly where in the
other. -/
theorem scroll_agrees (checks : Bool) (videoMode egaBx egaBx' : BitVec 16)
    (earlyPos : Nat) (vram : Nat → Cell) (bytes : List Byte) :
    (boot videoMode egaBx earlyPos vram >>=
        fun s => s.writeBytes checks bytes).map VgaConsole.picture
      = (boot videoMode egaBx' earlyPos vram >>=
        fun s => s.writeBytes checks bytes).map VgaConsole.picture := by
  have hrun : ∀ bx, (boot videoMode bx earlyPos vram >>=
        fun s => s.writeBytes checks bytes).map VgaConsole.picture
      = (bootScreen videoMode earlyPos vram >>=
        fun t => t.writeBytes checks bytes).map Screen.picture := fun bx =>
    Refines.picture ((boot_refines videoMode bx earlyPos vram).bind
      fun _ hs => writeBytes_refines bytes hs)
  rw [hrun egaBx, hrun egaBx']

-- ======== safety

theorem fitWord_error {n : Nat} {f : Fault} (h : fitWord checks n = .error f) :
    f = .overflow ∧ checks = true := by
  unfold fitWord at h
  split at h
  next => cases h
  next =>
    split at h
    next hc => exact ⟨(Except.error.inj h).symm, hc⟩
    next => cases h

theorem clampCount_error {count max : Nat} {f : Fault}
    (h : clampCount count max = .error f) : max = 0 := by
  unfold clampCount at h
  split at h
  next => cases h
  next hmax => omega

theorem Screen.eraseDisplay_error {t : Screen} {mode : Nat} {f : Fault}
    (h : t.eraseDisplay mode = .error f) : t.size < t.here := by
  match mode with
  | 0 =>
    by_cases hin : t.here ≤ t.size
    · cases (if_pos hin).symm.trans h
    · exact Nat.lt_of_not_le hin
  | 1 => cases h
  | 2 => cases h
  | _ + 3 => cases h

theorem map_error {A B : Type} {r : Except Fault A} {k : A → B} {f : Fault}
    (h : r.map k = .error f) : r = .error f := by
  cases r with
  | error e => exact congrArg Except.error (Except.error.inj h)
  | ok v => cases h

theorem Screen.dispatchCsi_error {t : Screen} {finalCh : Byte} {f : Fault}
    (h : t.dispatchCsi checks finalCh = .error f) :
    (f = .overflow ∧ checks = true) ∨ t.size < t.here ∨ t.columns = 0
      ∨ t.lines = 0 := by
  unfold Screen.dispatchCsi at h
  cases hcmd : csiOf finalCh with
  | down | right | nextLine =>
    rw [hcmd] at h
    exact .inl (fitWord_error (map_error h))
  | insertLines | deleteLines =>
    rw [hcmd] at h
    exact .inr (.inr (.inr (clampCount_error (map_error h))))
  | deleteChars | insertChars =>
    rw [hcmd] at h
    exact .inr (.inr (.inl (clampCount_error (map_error h))))
  | eraseDisplay =>
    rw [hcmd] at h
    exact .inr (.inl (Screen.eraseDisplay_error h))
  | column | up | left | previousLine | row | position | eraseLine
  | graphicRendition | scrollRegion | saveCursor | restoreCursor | unknown =>
    rw [hcmd] at h
    cases h

theorem AnsiParser.csiParam_error {p : AnsiParser} {byte : Byte} {f : Fault}
    (h : p.csiParam checks byte = .error f) : f = .overflow ∧ checks = true := by
  unfold AnsiParser.csiParam at h
  split at h
  next => cases h
  next =>
    split at h
    next =>
      cases hv : accumulate checks (p.params p.paramCount)
          (byte - 0x30#8).toNat with
      | error e =>
        rw [hv] at h
        obtain rfl := Except.error.inj h
        exact fitWord_error (map_error hv)
      | ok v =>
        rw [hv] at h
        cases h
    next => cases h

theorem Screen.handleCsiParam_error {t : Screen} {byte : Byte} {f : Fault}
    (h : t.handleCsiParam checks byte = .error f) :
    (f = .overflow ∧ checks = true) ∨ t.size < t.here ∨ t.columns = 0
      ∨ t.lines = 0 := by
  unfold Screen.handleCsiParam at h
  cases hp : t.parser.csiParam checks byte with
  | error e =>
    rw [hp] at h
    obtain rfl := Except.error.inj h
    exact .inl (AnsiParser.csiParam_error hp)
  | ok next =>
    rw [hp] at h
    cases next with
    | some parser => cases h
    | none => exact Screen.dispatchCsi_error (t := t.enter .normal) h

/-- The one fault of a byte is the overflow of a parameter, where it is
checked. -/
theorem Screen.writeByte_error {t : Screen} {byte : Byte} {f : Fault}
    (hhere : t.here ≤ t.size) (hsize : 0 < t.columns ∧ 0 < t.lines)
    (h : t.writeByte checks byte = .error f) :
    f = .overflow ∧ checks = true := by
  have hcsi : ∀ (t' : Screen), t'.here = t.here → t'.size = t.size →
      t'.columns = t.columns → t'.lines = t.lines →
      t'.handleCsiParam checks byte = .error f →
      f = .overflow ∧ checks = true := by
    intro t' h1 h2 h3 h4 h'
    rcases Screen.handleCsiParam_error h' with hok | hbad
    · exact hok
    · omega
  unfold Screen.writeByte at h
  cases hstate : t.parser.state with
  | normal | escape =>
    rw [hstate] at h
    cases h
  | csiParam =>
    rw [hstate] at h
    exact hcsi t rfl rfl rfl rfl h
  | csiEntry =>
    rw [hstate] at h
    by_cases hmark : byte = 0x3f#8
    · cases (if_pos hmark).symm.trans h
    · have hparam : (t.enter .csiParam).handleCsiParam checks byte = .error f :=
        (if_neg hmark).symm.trans h
      exact hcsi (t.enter .csiParam) rfl rfl rfl rfl hparam

/-- From a placed console every byte leads to a placed one, or to the
overflow. -/
theorem writeBytes_placed (checks : Bool) (hw : g.Wide) (bytes : List Byte) :
    ∀ {s : VgaConsole}, Placed g s →
      (∃ s', s.writeBytes checks bytes = .ok s' ∧ Placed g s')
      ∨ checks = true ∧ s.writeBytes checks bytes = .error .overflow := by
  induction bytes with
  | nil => exact fun h => .inl ⟨_, rfl, h⟩
  | cons byte bytes ih =>
    intro s h
    have hone : Refines g (s.writeByte checks byte)
        ((view s).writeByte checks byte) := writeByte_refines h byte
    unfold VgaConsole.writeBytes
    generalize hr : s.writeByte checks byte = r at hone ⊢
    generalize ha : (view s).writeByte checks byte = a at hone
    cases hone with
    | ok hs _ => exact ih hs
    | error f =>
      have hrow := Geometry.row_le h.row
      have hx := h.column hw
      have hpos := hw.1
      have hlines := h.row
      have hstop := Screen.writeByte_error (t := view s) (by
          rw [h.here, show (view s).size = g.size from h.size_eq]
          omega)
        ⟨by show 0 < s.columns; rw [h.columns]; omega,
          by show 0 < s.lines; rw [h.lines]; omega⟩ ha
      obtain ⟨rfl, hc⟩ := hstop
      exact .inr ⟨hc, rfl⟩

/-- The cursor is on the screen, and the screen in the memory of the
adapter. -/
structure Safe (s : VgaConsole) : Prop where
  cursor : s.cursorPos = s.origin + s.cursorY * s.rowBytes + 2 * s.cursorX
  column : s.cursorX ≤ s.columns
  row : s.cursorY < s.lines
  screenEnd : s.screenEnd = s.origin + s.lines * s.rowBytes
  memStart : s.memStart ≤ s.origin
  memEnd : s.screenEnd ≤ s.memEnd
  region : s.scrollTop < s.scrollBottom ∧ s.scrollBottom ≤ s.lines
  inside : ∀ a ∈ s.touched, s.memStart ≤ a ∧ a + 2 ≤ s.memEnd
  aligned : ∀ a ∈ s.touched, a % 2 = 0

theorem Placed.safe (h : Placed g s) (hw : g.Wide) : Safe s where
  cursor := by
    rw [h.cursor, Nat.mul_comm _ s.rowBytes, h.rowBytes_mul]
    omega
  column := h.columns ▸ h.column hw
  row := h.lines ▸ h.row
  screenEnd := by
    rw [h.screenEnd, Nat.mul_comm _ s.rowBytes, h.rowBytes_mul, h.lines]
    rfl
  memStart := h.memStart ▸ h.origin
  memEnd := h.memEnd ▸ h.fits hw
  region := ⟨h.region.1, h.lines ▸ h.region.2⟩
  inside := fun a ha => h.memStart ▸ h.memEnd ▸ h.inside hw a ha
  aligned := h.aligned

/-- Booting on a wide screen that fits, with the cursor on it, leaves the
console safe; so does every stream of bytes after it, unless a build with
overflow checks stops at an overflowing escape parameter. In particular no
subtraction underflows, the one of the cursor register included. -/
theorem console_safe (checks : Bool) (videoMode egaBx : BitVec 16)
    (earlyPos : Nat) (vram : Nat → Cell) (hcols : 8 ≤ biosColumns videoMode)
    (hfits : (detectAdapter videoMode egaBx).2.1
      + screenLines * (2 * biosColumns videoMode)
        ≤ (detectAdapter videoMode egaBx).2.2)
    (hx : (earlyVgaCursor earlyPos).1 ≤ biosColumns videoMode)
    (hy : (earlyVgaCursor earlyPos).2 < screenLines) :
    ∃ s₀, boot videoMode egaBx earlyPos vram = .ok s₀ ∧ ∀ bytes : List Byte,
        (∃ s, s₀.writeBytes checks bytes = .ok s ∧ Safe s
          ∧ ∃ s', s.syncHardwareCursor = .ok s')
        ∨ checks = true ∧ s₀.writeBytes checks bytes = .error .overflow := by
  have hwide : (bootGeometry videoMode egaBx).Wide := by
    refine ⟨hcols, Nat.le_trans (Nat.le_of_eq ?_) hfits⟩
    rw [Nat.mul_left_comm]
    rfl
  have hboot := boot_refines videoMode egaBx earlyPos vram
  generalize hr : boot videoMode egaBx earlyPos vram = r at hboot ⊢
  generalize ha : bootScreen videoMode earlyPos vram = a at hboot
  cases hboot with
  | error f =>
    have hbad : ((startScreen videoMode vram).moveCursor
        (earlyVgaCursor earlyPos).1 (earlyVgaCursor earlyPos).2).eraseDisplay 0
        = .error f := (if_neg (by omega)).symm.trans ha
    rw [show (startScreen videoMode vram).moveCursor
        (earlyVgaCursor earlyPos).1 (earlyVgaCursor earlyPos).2
      = { startScreen videoMode vram with
          cursorX := (earlyVgaCursor earlyPos).1
          cursorY := (earlyVgaCursor earlyPos).2 } from
        if_neg (show ¬ ((earlyVgaCursor earlyPos).1 > biosColumns videoMode
          ∨ (earlyVgaCursor earlyPos).2 ≥ screenLines) by omega)] at hbad
    have hpast : screenLines * biosColumns videoMode
        < (earlyVgaCursor earlyPos).2 * biosColumns videoMode
          + (earlyVgaCursor earlyPos).1 := Screen.eraseDisplay_error hbad
    have hrow : (earlyVgaCursor earlyPos).2 * biosColumns videoMode
        + biosColumns videoMode ≤ screenLines * biosColumns videoMode :=
      Geometry.row_le (g := bootGeometry videoMode egaBx) hy
    omega
  | ok hs _ =>
    refine ⟨_, rfl, fun bytes => ?_⟩
    rcases writeBytes_placed checks hwide bytes hs with hrun | hstop
    · obtain ⟨s', hrun, hs'⟩ := hrun
      refine .inl ⟨s', hrun, hs'.safe hwide, ?_⟩
      cases hsync : s'.syncHardwareCursor with
      | ok s'' => exact ⟨s'', rfl⟩
      | error f =>
        have := hsync ▸ syncHardwareCursor_refines hs'
        cases this
    · exact .inr hstop

/-- The standard colour screen of 80 columns on an EGA adapter. -/
theorem console_safe_color : ∃ s₀,
    boot 0x5003#16 0#16 160 (fun _ => 0#16) = .ok s₀ ∧ ∀ bytes : List Byte,
        (∃ s, s₀.writeBytes false bytes = .ok s ∧ Safe s
          ∧ ∃ s', s.syncHardwareCursor = .ok s')
        ∨ false = true ∧ s₀.writeBytes false bytes = .error .overflow :=
  console_safe false 0x5003#16 0#16 160 (fun _ => 0#16) (by decide) (by decide)
    (by decide) (by decide)

end LinuxRs.Driver.Vga
