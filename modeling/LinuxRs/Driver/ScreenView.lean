/-
The console refines the screen it shows.

# The invariant

`Placed` says where the screen lies in video memory: the origin is not
before the memory's start, the end and the cursor are at the addresses that
the geometry and the cursor's column and row give, and the scroll region is
a range of rows. On a wide screen that fits its memory (`Wide`) it adds
that the cursor is at most one past the last column, that the screen lies
within the memory and that every access so far did.

# The simulation

`view` forgets the addresses. Each operation of the console, from a placed
state, does to the view what the screen's operation of the same name does,
fails exactly where that fails, and leaves a placed state (`Refines`). Both
branches of `scroll_up` refine the one `Screen.scrollUp`, so whether the
origin moves cannot be seen.
-/
import LinuxRs.Driver.Screen

namespace LinuxRs.Driver.Vga

open VgaConsole

-- ======== the invariant

structure Geometry where
  columns : Nat
  lines : Nat
  memStart : Nat
  memEnd : Nat

def Geometry.size (g : Geometry) : Nat := g.lines * g.columns

/-- There is a tab stop on a line and the memory holds a screen. -/
def Geometry.Wide (g : Geometry) : Prop :=
  8 ≤ g.columns ∧ g.memStart + 2 * g.size ≤ g.memEnd

/-- The console has this geometry, and its screen lies in the memory line by
line. -/
structure Placed (g : Geometry) (s : VgaConsole) : Prop where
  columns : s.columns = g.columns
  lines : s.lines = g.lines
  rowBytes : s.rowBytes = 2 * g.columns
  memStart : s.memStart = g.memStart
  memEnd : s.memEnd = g.memEnd
  origin : g.memStart ≤ s.origin
  even : s.origin % 2 = 0 ∧ g.memStart % 2 = 0
  screenEnd : s.screenEnd = s.origin + 2 * g.size
  cursor : s.cursorPos = s.origin + 2 * (s.cursorY * g.columns + s.cursorX)
  row : s.cursorY < g.lines
  region : s.scrollTop < s.scrollBottom ∧ s.scrollBottom ≤ g.lines
  aligned : ∀ a ∈ s.touched, a % 2 = 0
  column : g.Wide → s.cursorX ≤ g.columns
  fits : g.Wide → s.screenEnd ≤ g.memEnd
  inside : g.Wide → ∀ a ∈ s.touched, g.memStart ≤ a ∧ a + 2 ≤ g.memEnd

def view (s : VgaConsole) : Screen where
  columns := s.columns
  lines := s.lines
  eraseCell := s.eraseCell
  cursorX := s.cursorX
  cursorY := s.cursorY
  scrollTop := s.scrollTop
  scrollBottom := s.scrollBottom
  attr := s.attr
  savedX := s.savedX
  savedY := s.savedY
  parser := s.parser
  cells := fun i => if i < s.lines * s.columns then s.vram (s.origin + 2 * i)
    else 0#16

/-- The console does what the screen does, faults included. -/
inductive Refines (g : Geometry) :
    Except Fault VgaConsole → Except Fault Screen → Prop
  | ok {s : VgaConsole} {t : Screen} :
      Placed g s → view s = t → Refines g (.ok s) (.ok t)
  | error (f : Fault) : Refines g (.error f) (.error f)

variable {g : Geometry} {s s' : VgaConsole}

theorem Refines.bind {r : Except Fault VgaConsole} {a : Except Fault Screen}
    {k : VgaConsole → Except Fault VgaConsole} {k' : Screen → Except Fault Screen}
    (h : Refines g r a)
    (hk : ∀ s, Placed g s → Refines g (k s) (k' (view s))) :
    Refines g (r >>= k) (a >>= k') := by
  cases h with
  | ok hs hv =>
    subst hv
    exact hk _ hs
  | error f => exact .error f

theorem Refines.andThen {r : Except Fault VgaConsole} {a : Screen}
    {k : VgaConsole → Except Fault VgaConsole} (f : Screen → Screen)
    (h : Refines g r (.ok a))
    (hk : ∀ s, Placed g s → view s = a → Refines g (k s) (.ok (f (view s)))) :
    Refines g (r >>= k) (.ok (f a)) := by
  cases h with
  | ok hs hv =>
    subst hv
    exact hk _ hs rfl

theorem Geometry.row_le {y : Nat} (h : y < g.lines) :
    y * g.columns + g.columns ≤ g.size := by
  have hm : (y + 1) * g.columns ≤ g.lines * g.columns :=
    Nat.mul_le_mul_right _ h
  rw [Nat.add_mul, Nat.one_mul] at hm
  exact hm

-- ======== memory accesses

/-- Only cells of the range were written. -/
def Wrote (lo hi : Nat) (s s' : VgaConsole) : Prop :=
  ∃ v t, s' = { s with vram := v, touched := t } ∧
    ∀ a ∈ t, a ∈ s.touched ∨ lo ≤ a ∧ a + 2 ≤ hi ∧ a % 2 = lo % 2

variable {lo hi lo' hi' : Nat}

theorem Wrote.refl (lo hi : Nat) (s : VgaConsole) : Wrote lo hi s s :=
  ⟨s.vram, s.touched, rfl, fun _ ha => .inl ha⟩

theorem Wrote.trans {s'' : VgaConsole} (h : Wrote lo hi s s')
    (h' : Wrote lo hi s' s'') : Wrote lo hi s s'' := by
  obtain ⟨v, t, rfl, ht⟩ := h
  obtain ⟨v', t', rfl, ht'⟩ := h'
  refine ⟨v', t', rfl, fun a ha => ?_⟩
  rcases ht' a ha with h | h
  · exact ht a h
  · exact .inr h

theorem Wrote.mono (h : Wrote lo hi s s') (hlo : lo' ≤ lo) (hhi : hi ≤ hi')
    (he : lo % 2 = lo' % 2) : Wrote lo' hi' s s' := by
  obtain ⟨v, t, rfl, ht⟩ := h
  refine ⟨v, t, rfl, fun a ha => ?_⟩
  rcases ht a ha with h | h
  · exact .inl h
  · exact .inr (by omega)

theorem Placed.wrote (h : Placed g s) (w : Wrote lo hi s s') (he : lo % 2 = 0)
    (hin : g.Wide → g.memStart ≤ lo ∧ hi ≤ g.memEnd) : Placed g s' := by
  obtain ⟨v, t, rfl, ht⟩ := w
  refine { h with aligned := ?_, inside := ?_ }
  · intro a ha
    rcases ht a ha with hold | hnew
    · exact h.aligned a hold
    · omega
  · intro hw a ha
    have hb := hin hw
    rcases ht a ha with hold | hnew
    · exact h.inside hw a hold
    · omega

theorem view_wrote (w : Wrote lo hi s s') {f : Nat → Cell}
    (hf : ∀ i < s.lines * s.columns, s'.vram (s.origin + 2 * i) = f i) :
    view s' = (view s).paint f := by
  obtain ⟨v, t, rfl, ht⟩ := w
  unfold view Screen.paint Screen.size
  congr 1
  funext i
  by_cases hi : i < s.lines * s.columns
  · simp only [hi, if_true]
    exact hf i hi
  · simp only [hi, if_false]

theorem store_wrote (s : VgaConsole) (addr : Nat) (cell : Cell) :
    Wrote addr (addr + 2) s (s.store addr cell) := by
  refine ⟨_, _, rfl, fun a ha => ?_⟩
  rcases List.mem_cons.mp ha with rfl | ha
  · exact .inr ⟨Nat.le_refl _, Nat.le_refl _, rfl⟩
  · exact .inl ha

theorem touch_wrote (s : VgaConsole) (addr : Nat) :
    Wrote addr (addr + 2) s (s.touch addr) := by
  refine ⟨s.vram, _, rfl, fun a ha => ?_⟩
  rcases List.mem_cons.mp ha with rfl | ha
  · exact .inr ⟨Nat.le_refl _, Nat.le_refl _, rfl⟩
  · exact .inl ha

theorem mem_cellAddrs {addr count a : Nat} (h : a ∈ cellAddrs addr count) :
    addr ≤ a ∧ a + 2 ≤ addr + 2 * count ∧ a % 2 = addr % 2 := by
  obtain ⟨i, hi, rfl⟩ := List.mem_map.mp h
  have := List.mem_range.mp hi
  omega

theorem copyCells_wrote {src dst count : Nat} (hlo : lo ≤ src ∧ lo ≤ dst)
    (hhi : src + 2 * count ≤ hi ∧ dst + 2 * count ≤ hi)
    (he : src % 2 = lo % 2 ∧ dst % 2 = lo % 2) :
    Wrote lo hi s (s.copyCells src dst count) := by
  refine ⟨_, _, rfl, fun a ha => ?_⟩
  rcases List.mem_append.mp ha with ha | ha
  · have := mem_cellAddrs ha
    exact .inr (by omega)
  · rcases List.mem_append.mp ha with ha | ha
    · have := mem_cellAddrs ha
      exact .inr (by omega)
    · exact .inl ha

theorem fillErase_wrote (s : VgaConsole) (addr count : Nat) :
    Wrote addr (addr + 2 * count) s (s.fillErase addr count) := by
  induction count generalizing s addr with
  | zero => exact Wrote.refl _ _ s
  | succ count ih =>
    have hfirst : Wrote addr (addr + 2 * (count + 1)) s
        (s.store addr s.eraseCell) :=
      (store_wrote s addr s.eraseCell).mono (Nat.le_refl _) (by omega) rfl
    have hrest : Wrote addr (addr + 2 * (count + 1))
        (s.store addr s.eraseCell) (s.fillErase addr (count + 1)) :=
      (ih (s.store addr s.eraseCell) (addr + 2)).mono (by omega) (by omega)
        (by omega)
    exact hfirst.trans hrest

theorem fillErase_vram (s : VgaConsole) (addr count a : Nat) :
    (s.fillErase addr count).vram a =
      if addr ≤ a ∧ a < addr + 2 * count ∧ (a - addr) % 2 = 0 then s.eraseCell
      else s.vram a := by
  induction count generalizing s addr with
  | zero =>
    rw [if_neg (by omega)]
    rfl
  | succ count ih =>
    unfold fillErase
    rw [ih]
    show (if _ then s.eraseCell
      else Function.update s.vram addr s.eraseCell a) = _
    by_cases ha : a = addr
    · subst ha
      rw [Function.update_self, ite_self, if_pos (by omega)]
    · rw [Function.update_of_ne ha]
      exact if_congr (by omega) rfl rfl

theorem fillErase_cell (s : VgaConsole) (base p count i : Nat) :
    (s.fillErase (base + 2 * p) count).vram (base + 2 * i) =
      if p ≤ i ∧ i < p + count then s.eraseCell else s.vram (base + 2 * i) := by
  rw [fillErase_vram]
  exact if_congr (by omega) rfl rfl

theorem copyCells_cell (s : VgaConsole) (base base' p q count i : Nat) :
    (s.copyCells (base' + 2 * q) (base + 2 * p) count).vram (base + 2 * i) =
      if p ≤ i ∧ i < p + count then s.vram (base' + 2 * (q + (i - p)))
      else s.vram (base + 2 * i) := by
  show (if _ then s.vram (base' + 2 * q + (base + 2 * i - (base + 2 * p)))
    else s.vram (base + 2 * i)) = _
  by_cases h : p ≤ i ∧ i < p + count
  · rw [if_pos (by omega), if_pos h]
    congr 1
    omega
  · rw [if_neg (by omega), if_neg h]

theorem view_cells {i : Nat} (hi : i < s.lines * s.columns) :
    (view s).cells i = s.vram (s.origin + 2 * i) := if_pos hi

theorem sub_of_le {a b : Nat} (h : b ≤ a) : sub a b = .ok (a - b) := if_pos h

-- ======== scrolling

/-- A copy of `count` cells and a fill of `blank`, as every scroll makes
them; positions are indices from the two bases. -/
def shiftCells (s : VgaConsole) (base base' p q count f blank : Nat) :
    VgaConsole :=
  (s.copyCells (base' + 2 * q) (base + 2 * p) count).fillErase (base + 2 * f)
    blank

theorem shiftCells_wrote {base base' p q count f blank : Nat}
    (hlo : lo ≤ base ∧ lo ≤ base')
    (hhi : base' + 2 * (q + count) ≤ hi ∧ base + 2 * (p + count) ≤ hi
      ∧ base + 2 * (f + blank) ≤ hi)
    (he : base % 2 = lo % 2 ∧ base' % 2 = lo % 2) :
    Wrote lo hi s (shiftCells s base base' p q count f blank) := by
  have hcopy : Wrote lo hi s
      (s.copyCells (base' + 2 * q) (base + 2 * p) count) :=
    copyCells_wrote (by omega) (by omega) (by omega)
  exact hcopy.trans ((fillErase_wrote _ _ _).mono (by omega) (by omega)
    (by omega))

theorem shiftCells_cell (s : VgaConsole)
    (base base' p q count f blank i : Nat) :
    (shiftCells s base base' p q count f blank).vram (base + 2 * i) =
      if f ≤ i ∧ i < f + blank then s.eraseCell
      else if p ≤ i ∧ i < p + count then s.vram (base' + 2 * (q + (i - p)))
      else s.vram (base + 2 * i) := by
  unfold shiftCells
  rw [fillErase_cell, copyCells_cell]
  rfl

theorem region_cells {top bottom : Nat} (c : Nat) (h : top < bottom) :
    top * c + (bottom - top - 1) * c + c = bottom * c := by
  have hb : bottom = top + (bottom - top - 1) + 1 := by omega
  have hm := congrArg (· * c) hb
  simp only [Nat.add_mul, Nat.one_mul] at hm
  omega

theorem Placed.region_le (h : Placed g s) :
    s.scrollBottom * g.columns ≤ g.size :=
  Nat.mul_le_mul_right _ h.region.2

theorem Placed.rowBytes_mul (h : Placed g s) (y : Nat) :
    s.rowBytes * y = 2 * (y * g.columns) := by
  rw [h.rowBytes, Nat.mul_assoc, Nat.mul_comm g.columns]

theorem Placed.size_eq (h : Placed g s) : s.lines * s.columns = g.size := by
  rw [h.lines, h.columns]
  rfl

/-- The copy loop moves the lines of the region up by one. -/
theorem scrollUpCopy_eq (h : Placed g s) :
    s.scrollUpCopy = .ok (shiftCells s s.origin s.origin
      (s.scrollTop * g.columns) (s.scrollTop * g.columns + g.columns)
      ((s.scrollBottom - s.scrollTop - 1) * g.columns) (s.scrollTop * g.columns
        + (s.scrollBottom - s.scrollTop - 1) * g.columns) g.columns) := by
  have hr := h.region.1
  have hrows := region_cells g.columns hr
  have hlast : (s.scrollBottom - 1) * g.columns = s.scrollTop * g.columns
      + (s.scrollBottom - s.scrollTop - 1) * g.columns := by
    rw [Nat.sub_mul, Nat.one_mul]
    omega
  have hsrc : s.origin + 2 * (s.scrollTop * g.columns) + s.rowBytes
      = s.origin + 2 * (s.scrollTop * g.columns + g.columns) := by
    rw [h.rowBytes]
    omega
  unfold scrollUpCopy
  rw [sub_of_le (Nat.le_of_lt hr)]
  show (sub _ 1 >>= _) = _
  rw [sub_of_le (by omega)]
  show (sub s.scrollBottom 1 >>= _) = _
  rw [sub_of_le (by omega)]
  show Except.ok (VgaConsole.fillErase (s.copyCells _ _ _)
    (s.origin + s.rowBytes * _) s.columns) = _
  rw [h.rowBytes_mul, h.rowBytes_mul, hsrc, hlast, h.columns]
  rfl

theorem Refines.shifted (h : Placed g s) {p q count f blank : Nat}
    {F : Nat → Cell}
    (hin : q + count ≤ g.size ∧ p + count ≤ g.size ∧ f + blank ≤ g.size)
    (hF : ∀ i < g.size, (if f ≤ i ∧ i < f + blank then s.eraseCell
        else if p ≤ i ∧ i < p + count then s.vram (s.origin + 2 * (q + (i - p)))
        else s.vram (s.origin + 2 * i)) = F i) :
    Refines g (.ok (shiftCells s s.origin s.origin p q count f blank))
      (.ok ((view s).paint F)) := by
  have hend := h.screenEnd
  have w : Wrote s.origin s.screenEnd s
      (shiftCells s s.origin s.origin p q count f blank) :=
    shiftCells_wrote (by omega) (by omega) (by omega)
  refine .ok (h.wrote w h.even.1 fun hw => ⟨h.origin, h.fits hw⟩)
    (view_wrote w fun i hi => ?_)
  rw [shiftCells_cell]
  rw [h.size_eq] at hi
  exact hF i hi

theorem scrollUpCopy_refines (h : Placed g s) :
    Refines g s.scrollUpCopy (.ok (view s).scrollUp) := by
  have hrows := region_cells g.columns h.region.1
  have hsize := h.region_le
  have hsz := h.size_eq
  rw [scrollUpCopy_eq h]
  refine Refines.shifted h (by omega) fun i hi => ?_
  show _ = if s.scrollTop * s.columns ≤ i
      ∧ i + s.columns < s.scrollBottom * s.columns
    then (view s).cells (i + s.columns)
    else if s.scrollTop * s.columns ≤ i ∧ i < s.scrollBottom * s.columns
    then s.eraseCell else (view s).cells i
  rw [view_cells (i := i) (by omega), h.columns]
  by_cases hmove : s.scrollTop * g.columns ≤ i
      ∧ i + g.columns < s.scrollBottom * g.columns
  · rw [if_pos hmove, view_cells (by omega), if_neg (by omega),
      if_pos (by omega)]
    congr 2
    omega
  · rw [if_neg hmove]
    by_cases hin : s.scrollTop * g.columns ≤ i ∧ i < s.scrollBottom * g.columns
    · rw [if_pos hin, if_pos (by omega)]
    · rw [if_neg hin, if_neg (by omega), if_neg (by omega)]

theorem scrollDown_eq (h : Placed g s) :
    s.scrollDown = .ok (shiftCells s s.origin s.origin
      (s.scrollTop * g.columns + g.columns) (s.scrollTop * g.columns)
      ((s.scrollBottom - s.scrollTop - 1) * g.columns)
      (s.scrollTop * g.columns) g.columns) := by
  have hr := h.region.1
  unfold scrollDown
  rw [sub_of_le (Nat.le_of_lt hr)]
  show (sub _ 1 >>= _) = _
  rw [sub_of_le (by omega)]
  show Except.ok (VgaConsole.fillErase (s.copyCells _ _ _)
    (s.origin + s.rowBytes * s.scrollTop) s.columns) = _
  rw [h.rowBytes_mul, h.rowBytes_mul, Nat.add_mul, Nat.one_mul, h.columns]
  rfl

theorem scrollDown_refines (h : Placed g s) :
    Refines g s.scrollDown (.ok (view s).scrollDown) := by
  have hrows := region_cells g.columns h.region.1
  have hsize := h.region_le
  have hsz := h.size_eq
  rw [scrollDown_eq h]
  refine Refines.shifted h (by omega) fun i hi => ?_
  show _ = if s.scrollTop * s.columns + s.columns ≤ i
      ∧ i < s.scrollBottom * s.columns
    then (view s).cells (i - s.columns)
    else if s.scrollTop * s.columns ≤ i ∧ i < s.scrollBottom * s.columns
    then s.eraseCell else (view s).cells i
  rw [view_cells (i := i) (by omega), h.columns]
  by_cases hmove : s.scrollTop * g.columns + g.columns ≤ i
      ∧ i < s.scrollBottom * g.columns
  · rw [if_pos hmove, view_cells (by omega), if_neg (by omega),
      if_pos (by omega)]
    congr 2
    omega
  · rw [if_neg hmove]
    by_cases hin : s.scrollTop * g.columns ≤ i ∧ i < s.scrollBottom * g.columns
    · rw [if_pos hin, if_pos (by omega)]
    · rw [if_neg hin, if_neg (by omega), if_neg (by omega)]

theorem setOrigin_refines {t : Screen} (h : Placed g s) (hv : view s = t) :
    Refines g s.setOrigin (.ok t) := by
  unfold setOrigin
  rw [sub_of_le (h.memStart ▸ h.origin)]
  exact .ok { h with } hv

theorem Geometry.lastRow (h : 0 < g.lines) :
    (g.lines - 1) * g.columns + g.columns = g.size := by
  have := region_cells g.columns h
  simp only [Nat.zero_mul, Nat.sub_zero, Nat.zero_add] at this
  exact this

def VgaConsole.placeAt (s : VgaConsole) (g : Geometry) (o : Nat)
    (v : Nat → Cell) (t : List Nat) : VgaConsole :=
  { s with
    origin := o
    screenEnd := o + 2 * g.size
    cursorPos := o + 2 * (s.cursorY * g.columns + s.cursorX)
    vram := v
    touched := t }

theorem view_placeAt {o : Nat} {v : Nat → Cell} {t : List Nat}
    (h : Placed g s) (htop : s.scrollTop = 0) (hbottom : s.scrollBottom = s.lines)
    (hcells : ∀ i < g.size, v (o + 2 * i)
      = if i + g.columns < g.size then s.vram (s.origin + 2 * (i + g.columns))
        else s.eraseCell) :
    view (s.placeAt g o v t) = (view s).scrollUp := by
  have hsz := h.size_eq
  refine congrArg (fun c => { view s with cells := c }) (funext fun i => ?_)
  show (if i < s.lines * s.columns then v (o + 2 * i) else 0#16)
    = if i < s.lines * s.columns then
        if s.scrollTop * s.columns ≤ i
          ∧ i + s.columns < s.scrollBottom * s.columns
        then (view s).cells (i + s.columns)
        else if s.scrollTop * s.columns ≤ i ∧ i < s.scrollBottom * s.columns
        then s.eraseCell else (view s).cells i
      else 0#16
  rw [hbottom, htop, Nat.zero_mul, hsz, h.columns]
  by_cases hi : i < g.size
  · rw [if_pos hi, if_pos hi, hcells i hi]
    by_cases hmove : i + g.columns < g.size
    · rw [if_pos hmove, if_pos ⟨Nat.zero_le _, hmove⟩, view_cells (by omega)]
    · rw [if_neg hmove, if_neg (by omega), if_pos ⟨Nat.zero_le _, hi⟩]
  · rw [if_neg hi, if_neg hi]

theorem Placed.placeAt {o : Nat} {v : Nat → Cell} {t : List Nat}
    (h : Placed g s) (ho : g.memStart ≤ o) (he : o % 2 = 0)
    (hfits : g.Wide → o + 2 * g.size ≤ g.memEnd) (ht : ∀ a ∈ t, a ∈ s.touched
      ∨ g.memStart ≤ a ∧ (g.Wide → a + 2 ≤ g.memEnd) ∧ a % 2 = 0) :
    Placed g (s.placeAt g o v t) := by
  refine { h with
    origin := ho, even := ⟨he, h.even.2⟩, screenEnd := rfl, cursor := rfl
    aligned := fun a ha => ?_, fits := hfits, inside := fun hw a ha => ?_ }
  · rcases ht a ha with hold | hnew
    · exact h.aligned a hold
    · exact hnew.2.2
  · rcases ht a ha with hold | hnew
    · exact h.inside hw a hold
    · exact ⟨hnew.1, hnew.2.1 hw⟩

/-- With the origin one line on, the cleared line is the new last one. -/
theorem clearLastLine_refines (h : Placed g s) (htop : s.scrollTop = 0)
    (hbottom : s.scrollBottom = s.lines)
    (hroom : s.screenEnd + s.rowBytes ≤ s.memEnd) :
    Refines g s.advanceOrigin.clearLastLine (.ok (view s).scrollUp) := by
  have hlast := Geometry.row_le h.row
  have hend := h.screenEnd
  have hcur := h.cursor
  have hrb := h.rowBytes
  have heven := h.even
  have horigin := h.origin
  have hmem := h.memEnd
  have haddr : s.screenEnd + s.rowBytes - s.rowBytes
      = s.origin + s.rowBytes + 2 * (g.size - g.columns) := by omega
  have hcell := fillErase_cell s.advanceOrigin (s.origin + s.rowBytes)
    (g.size - g.columns) s.columns
  obtain ⟨v, t, heq, ht⟩ := fillErase_wrote s.advanceOrigin
    (s.origin + s.rowBytes + 2 * (g.size - g.columns)) s.columns
  have hrun : s.advanceOrigin.clearLastLine
      = (s.placeAt g (s.origin + s.rowBytes) v t).setOrigin := by
    unfold clearLastLine
    rw [show sub s.advanceOrigin.screenEnd s.advanceOrigin.rowBytes
      = .ok (s.screenEnd + s.rowBytes - s.rowBytes) from
        sub_of_le (Nat.le_add_left _ _), haddr]
    show VgaConsole.setOrigin (VgaConsole.fillErase _ _ s.columns) = _
    rw [heq]
    unfold advanceOrigin VgaConsole.placeAt
    rw [show s.origin + s.rowBytes + 2 * g.size = s.screenEnd + s.rowBytes by
        omega,
      show s.origin + s.rowBytes + 2 * (s.cursorY * g.columns + s.cursorX)
        = s.cursorPos + s.rowBytes by omega]
  rw [hrun]
  rw [heq] at hcell
  have hcol := h.columns
  refine setOrigin_refines (h.placeAt (by omega) (by omega) (by omega) ?_)
    (view_placeAt h htop hbottom fun i hi => ?_)
  · intro a ha
    rcases ht a ha with hold | hnew
    · exact .inl hold
    · exact .inr ⟨by omega, by omega, by omega⟩
  · refine (hcell i).trans ?_
    by_cases hmove : i + g.columns < g.size
    · rw [if_neg (by omega), if_pos hmove]
      show s.vram _ = _
      congr 1
      omega
    · rw [if_pos (by omega), if_neg hmove]
      rfl

/-- Copied back to the start of the memory, the screen shows the same lines
scrolled. -/
theorem rewindOrigin_refines (h : Placed g s) (htop : s.scrollTop = 0)
    (hbottom : s.scrollBottom = s.lines) :
    Refines g s.advanceOrigin.rewindOrigin (.ok (view s).scrollUp) := by
  have hlines : 0 < g.lines := by have := h.row; omega
  have hlast := Geometry.lastRow hlines
  have hend := h.screenEnd
  have hcur := h.cursor
  have hrb := h.rowBytes
  have heven := h.even
  have horigin := h.origin
  have hstart := h.memStart
  have hcell := shiftCells_cell s.advanceOrigin s.memStart
    (s.origin + s.rowBytes) 0 0 ((g.lines - 1) * g.columns)
    ((g.lines - 1) * g.columns) g.columns
  have w : Wrote s.memStart s.screenEnd s.advanceOrigin
      (shiftCells s.advanceOrigin s.memStart (s.origin + s.rowBytes) 0 0
        ((g.lines - 1) * g.columns) ((g.lines - 1) * g.columns) g.columns) :=
    shiftCells_wrote (by omega) (by omega) (by omega)
  obtain ⟨v, t, heq, ht⟩ := w
  have hrun : s.advanceOrigin.rewindOrigin
      = (s.placeAt g s.memStart v t).setOrigin := by
    have hfill : s.memStart + (s.lines - 1) * s.rowBytes
        = s.memStart + 2 * ((g.lines - 1) * g.columns) := by
      rw [Nat.mul_comm, h.rowBytes_mul, h.lines]
    unfold rewindOrigin
    rw [show sub s.advanceOrigin.lines 1 = .ok (s.lines - 1) from
      sub_of_le (by have := h.lines; show 1 ≤ s.lines; omega)]
    show VgaConsole.rewindPositions (VgaConsole.fillErase
      (s.advanceOrigin.copyCells (s.origin + s.rowBytes) s.memStart
        ((s.lines - 1) * s.columns))
      (s.memStart + (s.lines - 1) * s.rowBytes) s.columns) = _
    rw [hfill, h.lines, h.columns]
    refine (congrArg VgaConsole.rewindPositions heq).trans ?_
    show (sub (s.origin + s.rowBytes) s.memStart >>= _) = _
    rw [sub_of_le (by omega)]
    show (sub (s.screenEnd + s.rowBytes) _ >>= _) = _
    rw [sub_of_le (by omega)]
    show (sub (s.cursorPos + s.rowBytes) _ >>= _) = _
    rw [sub_of_le (by omega)]
    unfold advanceOrigin VgaConsole.placeAt
    rw [show s.memStart + 2 * g.size = s.screenEnd + s.rowBytes
        - (s.origin + s.rowBytes - s.memStart) by omega,
      show s.memStart + 2 * (s.cursorY * g.columns + s.cursorX)
        = s.cursorPos + s.rowBytes - (s.origin + s.rowBytes - s.memStart) by
          omega]
    rfl
  rw [hrun]
  rw [heq] at hcell
  refine setOrigin_refines (h.placeAt (by omega) (by omega) ?_ ?_)
    (view_placeAt h htop hbottom fun i hi => ?_)
  · intro hw
    exact hstart ▸ hw.2
  · intro a ha
    rcases ht a ha with hold | hnew
    · exact .inl hold
    · exact .inr ⟨by omega, fun hw => by have := h.fits hw; omega, by omega⟩
  · refine (hcell i).trans ?_
    by_cases hmove : i + g.columns < g.size
    · rw [if_neg (by omega), if_pos (by omega), if_pos hmove]
      show s.vram _ = _
      congr 1
      omega
    · rw [if_pos (by omega), if_neg hmove]
      rfl

theorem scrollUp_refines (h : Placed g s) :
    Refines g s.scrollUp (.ok (view s).scrollUp) := by
  unfold scrollUp
  split
  next hfast =>
    unfold scrollUpFast
    split
    next => exact rewindOrigin_refines h hfast.2.1 hfast.2.2
    next hroom =>
      exact clearLastLine_refines h hfast.2.1 hfast.2.2 (Nat.le_of_not_lt hroom)
  next => exact scrollUpCopy_refines h

-- ======== line operations

theorem Placed.moveTo (h : Placed g s) {x y : Nat} (hy : y < g.lines)
    (hx : g.Wide → x ≤ g.columns) {pos : Nat}
    (hpos : pos = s.origin + 2 * (y * g.columns + x)) :
    Placed g { s with cursorX := x, cursorY := y, cursorPos := pos } :=
  { h with cursor := hpos, row := hy, column := hx }

theorem Refines.ite {c c' : Prop} [Decidable c] [Decidable c']
    {r r' : Except Fault VgaConsole} {a a' : Screen} (hc : c ↔ c')
    (hpos : c → Refines g r (.ok a)) (hneg : ¬ c → Refines g r' (.ok a')) :
    Refines g (if c then r else r') (.ok (if c' then a else a')) := by
  by_cases h : c
  · rw [if_pos h, if_pos (hc.mp h)]
    exact hpos h
  · rw [if_neg h, if_neg (fun h' => h (hc.mpr h'))]
    exact hneg h

theorem moveCursor_refines (h : Placed g s) (x y : Nat) :
    Refines g (.ok (s.moveCursor x y)) (.ok ((view s).moveCursor x y)) := by
  unfold VgaConsole.moveCursor
  rw [apply_ite Except.ok]
  refine .ite Iff.rfl (fun _ => .ok h rfl) fun hon => ?_
  have hcol := h.columns
  have hlin := h.lines
  refine .ok (h.moveTo (by omega) (fun _ => by omega) ?_) rfl
  rw [Nat.mul_comm y, h.rowBytes_mul]
  omega

theorem lineFeed_refines (h : Placed g s) :
    Refines g s.lineFeed (.ok (view s).lineFeed) := by
  refine .ite Iff.rfl (fun hin => ?_) fun _ => scrollUp_refines h
  have hr := h.region.2
  have hcur := h.cursor
  have hrb := h.rowBytes
  refine .ok (h.moveTo (by omega) h.column ?_) rfl
  rw [Nat.add_mul, Nat.one_mul]
  omega

theorem wrapLine_refines {x pos : Nat} (h : Placed g s) (hx : g.columns ≤ x)
    (hwide : g.Wide → x ≤ g.columns + 8)
    (hpos : pos = s.origin + 2 * (s.cursorY * g.columns + x)) :
    Refines g (VgaConsole.wrapLine { s with cursorX := x, cursorPos := pos })
      (.ok (Screen.wrapLine { view s with cursorX := x })) := by
  have hcol := h.columns
  have hrb := h.rowBytes
  show Refines g (sub x s.columns >>= _) _
  rw [sub_of_le (by omega)]
  show Refines g (sub pos s.rowBytes >>= _) _
  rw [sub_of_le (by omega)]
  refine lineFeed_refines (h.moveTo h.row (fun hw => ?_) (by omega))
  have := hwide hw
  have := hw.1
  omega

theorem reverseIndex_refines (h : Placed g s) :
    Refines g s.reverseIndex (.ok (view s).reverseIndex) := by
  refine .ite Iff.rfl (fun hin => ?_) fun _ => scrollDown_refines h
  have hcur := h.cursor
  have hrb := h.rowBytes
  have hrow := h.row
  have hup : s.cursorY * g.columns = (s.cursorY - 1) * g.columns + g.columns := by
    rw [Nat.sub_mul, Nat.one_mul, Nat.sub_add_cancel]
    exact Nat.le_mul_of_pos_left _ (by omega)
  rw [sub_of_le (by omega)]
  exact .ok (h.moveTo (by omega) h.column (by omega)) rfl

theorem carriageReturn_refines (h : Placed g s) :
    Refines g s.carriageReturn (.ok (view s).carriageReturn) := by
  have hcur := h.cursor
  unfold VgaConsole.carriageReturn
  rw [sub_of_le (by omega)]
  exact .ok (h.moveTo h.row (fun _ => Nat.zero_le _) (by omega)) rfl

theorem backspace_refines (h : Placed g s) :
    Refines g s.backspace (.ok (view s).backspace) := by
  refine .ite Iff.rfl (fun hin => ?_) fun _ => .ok h rfl
  have hcur := h.cursor
  rw [sub_of_le (by omega)]
  refine .ok (h.moveTo h.row (fun hw => ?_) (by omega)) rfl
  have := h.column hw
  omega

theorem store_refines (h : Placed g s) (cell : Cell)
    (hin : g.Wide → s.cursorX < g.columns) :
    Refines g (.ok (s.store s.cursorPos cell)) (.ok ((view s).put cell)) := by
  have hcur := h.cursor
  have heven := h.even.1
  have horigin := h.origin
  have hrow := Geometry.row_le h.row
  have hend := h.screenEnd
  have w := store_wrote s s.cursorPos cell
  refine .ok (h.wrote w (by omega) fun hw => ?_) (view_wrote w fun i hi => ?_)
  · have := hin hw
    have := h.fits hw
    omega
  · show Function.update s.vram s.cursorPos cell _ = if i = (view s).here
      then cell else (view s).cells i
    have hhere : (view s).here = s.cursorY * g.columns + s.cursorX := by
      show s.cursorY * s.columns + s.cursorX = _
      rw [h.columns]
    rw [view_cells hi, hhere, hcur]
    by_cases heq : i = s.cursorY * g.columns + s.cursorX
    · rw [if_pos heq, heq, Function.update_self]
    · rw [if_neg heq, Function.update_of_ne (by omega)]

theorem delete_refines (h : Placed g s) :
    Refines g s.delete (.ok (view s).delete) := by
  refine .ite Iff.rfl (fun hin => ?_) fun _ => .ok h rfl
  have hcur := h.cursor
  rw [sub_of_le (by omega)]
  have hback : Placed g { s with
      cursorPos := s.cursorPos - 2, cursorX := s.cursorX - 1 } := by
    refine h.moveTo h.row (fun hw => ?_) (by omega)
    have := h.column hw
    omega
  refine store_refines hback s.eraseCell fun hw => ?_
  have := h.column hw
  show s.cursorX - 1 < g.columns
  omega

theorem tab_refines (h : Placed g s) : Refines g s.tab (.ok (view s).tab) := by
  have hcur := h.cursor
  have hcol := h.columns
  refine .ite Iff.rfl (fun hpast => ?_) fun hin => ?_
  · refine wrapLine_refines h ?_ (fun hw => ?_) (by omega)
    · show g.columns ≤ s.cursorX + (8 - s.cursorX % 8)
      have : s.cursorX + (8 - s.cursorX % 8) > s.columns := hpast
      omega
    · have := h.column hw
      omega
  · refine .ok (h.moveTo h.row (fun _ => ?_) (by omega)) rfl
    have : ¬ s.cursorX + (8 - s.cursorX % 8) > s.columns := hin
    omega

theorem saveCursor_refines (h : Placed g s) :
    Refines g (.ok s.saveCursor) (.ok (view s).saveCursor) := .ok { h with } rfl

theorem restoreCursor_refines (h : Placed g s) :
    Refines g (.ok s.restoreCursor) (.ok (view s).restoreCursor) :=
  moveCursor_refines h s.savedX s.savedY

end LinuxRs.Driver.Vga
