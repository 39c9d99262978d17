/-
The word motions of vi and character boundaries.

# The text as cells

A word motion walks bytes over the ends of lines; an empty line, or the
place behind a line, counts as a blank. `cellsFrom` is what is ahead of a
position, so that a walk drops cells: `w` is `nextWord` and `e` is
`endWord`, both on the text alone.

# Where they are safe

`w` and `e` are safe where the byte that they come to starts a character.
`b` always is: it stops where the class of bytes changes, and all bytes of
a longer character are of one class.
-/
import LinuxRs.Vi.CursorEdits
import Mathlib.Logic.Function.Iterate

namespace LinuxRs.Vi

open Motion (CharClass charClass byteAt classAt advanceOne retreatOne
  advanceWhile advanceClass retreatWhile retreatClass pos)

variable {b : Buffer} {p q : Nat × Nat}

-- ======== cells

abbrev Cell := Option Byte

def cellClass (cell : Cell) : CharClass := cell.elim .space charClass

def startsChar (cell : Cell) : Bool := cell.elim true (!isContinuation ·)

def lineCells (cur : Text) : List Cell :=
  if cur = [] then [none] else cur.map some

def rowCells (lines : List Text) : List Cell := lines.flatMap lineCells

def cellsBelow (b : Buffer) (row : Nat) : List Cell :=
  rowCells (b.lines.drop (row + 1))

/-- The cells from a position on. Behind the last line, the last byte is
still ahead: walking on steps back to it. -/
def cellsFrom (b : Buffer) (p : Nat × Nat) : List Cell :=
  let cur := b.line p.1
  let below := cellsBelow b p.1
  if p.2 < cur.length then (cur.drop p.2).map some ++ below
  else none :: (if below = [] then cur.getLast?.toList.map some else below)

def restCells (cells : List Cell) : List Cell :=
  if cells.tail = [] then cells else cells.tail

def skipCells (kind : CharClass → Bool) : List Cell → List Cell
  | [] => []
  | [c] => [c]
  | c :: d :: rest =>
    if kind (cellClass c) then skipCells kind (d :: rest) else c :: d :: rest

def runCells (cls : CharClass) : List Cell → List Cell
  | [] => []
  | [c] => [c]
  | c :: d :: rest =>
    if cellClass d = cls then runCells cls (d :: rest) else c :: d :: rest

def headClass (cells : List Cell) : CharClass :=
  cells.head?.elim .space cellClass

def nextWord (cells : List Cell) : List Cell :=
  skipCells (· = .space) (skipCells (· = headClass cells) cells)

def endWord (cells : List Cell) : List Cell :=
  let rest := skipCells (· = .space) (restCells cells)
  runCells (headClass rest) rest

-- ======== positions

def Valid (b : Buffer) (p : Nat × Nat) : Prop :=
  p.1 < b.lines.length ∧ p.2 ≤ (b.line p.1).length

/-- A position that a walk has come to: still where it was, or on a cell
that is not behind where it came from. -/
def Onward (b : Buffer) (p q : Nat × Nat) : Prop :=
  q = p ∨ (p.1 ≤ q.1 ∧ (q.2 < (b.line q.1).length ∨ b.line q.1 = [])
    ∧ (q.1 = p.1 → p.2 < (b.line p.1).length → p.2 ≤ q.2))

theorem lineCells_ne_nil (cur : Text) : lineCells cur ≠ [] := by
  unfold lineCells
  split
  · exact List.cons_ne_nil _ _
  · next h => exact fun hmap => h (List.map_eq_nil_iff.mp hmap)

theorem cellsBelow_succ {r : Nat} (hr : r + 1 < b.lines.length) :
    cellsBelow b r = lineCells (b.line (r + 1)) ++ cellsBelow b (r + 1) := by
  unfold cellsBelow rowCells
  rw [List.drop_eq_getElem_cons hr, List.flatMap_cons,
    ← line_of_getElem? (List.getElem?_eq_getElem hr)]

theorem cellsBelow_last {r : Nat} (hr : b.lines.length ≤ r + 1) :
    cellsBelow b r = [] := by
  unfold cellsBelow
  rw [List.drop_of_length_le hr]
  rfl

theorem cellsBelow_eq_nil {r : Nat} :
    cellsBelow b r = [] ↔ b.lines.length ≤ r + 1 := by
  constructor
  case mpr => exact cellsBelow_last
  case mp =>
    intro h
    refine Nat.le_of_not_lt fun hlt => ?_
    rw [cellsBelow_succ hlt] at h
    exact lineCells_ne_nil _ (List.append_eq_nil_iff.mp h).1

theorem cellsFrom_start (r : Nat) :
    cellsFrom b (r, 0) = lineCells (b.line r) ++ cellsBelow b r := by
  unfold cellsFrom lineCells
  simp only
  by_cases hempty : b.line r = []
  · rw [if_pos hempty, hempty]
    show none :: (if cellsBelow b r = [] then [] else _) = _
    split
    · next h =>
      rw [h]
      rfl
    · rfl
  · rw [if_neg hempty, if_pos (List.length_pos_iff.mpr hempty)]
    rfl

theorem cellsFrom_ne_nil : cellsFrom b p ≠ [] := by
  unfold cellsFrom
  simp only
  split
  · next h =>
    intro hnil
    have hmap := (List.append_eq_nil_iff.mp hnil).1
    have hlen := congrArg List.length hmap
    rw [List.length_map, List.length_drop] at hlen
    have : (b.line p.1).length - p.2 = 0 := hlen
    omega
  · exact List.cons_ne_nil _ _

theorem classAt_cells : classAt b p = headClass (cellsFrom b p) := by
  unfold classAt byteAt cellsFrom headClass
  simp only
  by_cases h : p.2 < (b.line p.1).length
  · rw [if_pos h, List.drop_eq_getElem_cons h,
      List.getD_eq_getElem?_getD, List.getElem?_eq_getElem h]
    rfl
  · rw [if_neg h, List.getD_eq_getElem?_getD,
      List.getElem?_eq_none_iff.mpr (Nat.le_of_not_lt h)]
    show charClass (chr ' ') = .space
    decide

theorem cellsFrom_tail {r c : Nat} (hend : ¬ c + 1 < (b.line r).length) :
    (cellsFrom b (r, c)).tail
      = if cellsBelow b r = [] ∧ (b.line r).length ≤ c then
          (b.line r).getLast?.toList.map some
        else cellsBelow b r := by
  unfold cellsFrom
  simp only
  by_cases hlt : c < (b.line r).length
  · rw [if_pos hlt, if_neg fun h => absurd h.2 (by omega),
      List.drop_eq_getElem_cons hlt, List.drop_of_length_le (by omega)]
    rfl
  · rw [if_neg hlt, List.tail_cons]
    by_cases hbelow : cellsBelow b r = []
    · rw [if_pos hbelow, if_pos ⟨hbelow, by omega⟩]
    · rw [if_neg hbelow, if_neg fun h => hbelow h.1]

theorem cellsFrom_last {r : Nat} (hr : cellsBelow b r = [])
    (hne : b.line r ≠ []) : cellsFrom b (r, (b.line r).length - 1)
      = (b.line r).getLast?.toList.map some := by
  have hpos := List.length_pos_iff.mpr hne
  have hlt : (b.line r).length - 1 < (b.line r).length := by omega
  unfold cellsFrom
  simp only
  rw [if_pos hlt, hr, List.append_nil, List.getLast?_eq_getElem?,
    List.drop_eq_getElem_cons hlt, List.drop_of_length_le (by omega),
    List.getElem?_eq_getElem hlt]
  rfl

/-- A step forward leaves the first cell behind. -/
theorem cells_advanceOne (hp : Valid b p) :
    cellsFrom b (advanceOne b p) = restCells (cellsFrom b p) := by
  obtain ⟨r, c⟩ := p
  obtain ⟨hr, hc⟩ := hp
  have hc : c ≤ (b.line r).length := hc
  unfold advanceOne restCells
  simp only
  by_cases hinside : c + 1 < (b.line r).length
  · have hlt : c < (b.line r).length := by omega
    rw [if_pos hinside]
    unfold cellsFrom
    simp only
    rw [if_pos hinside, if_pos hlt, List.drop_eq_getElem_cons hlt,
      List.map_cons, List.cons_append, List.tail_cons]
    refine (if_neg fun h => ?_).symm
    have hlen := congrArg List.length (List.append_eq_nil_iff.mp h).1
    rw [List.length_map, List.length_drop] at hlen
    have : (b.line r).length - (c + 1) = 0 := hlen
    omega
  · have htail := cellsFrom_tail hinside
    rw [if_neg hinside]
    by_cases hlast : r + 1 < b.lines.length
    · have hne : cellsBelow b r ≠ [] := by
        rw [ne_eq, cellsBelow_eq_nil]
        omega
      rw [if_neg fun h => hne h.1] at htail
      rw [if_pos hlast, htail, if_neg hne, cellsFrom_start,
        cellsBelow_succ hlast]
    · have hnil : cellsBelow b r = [] := cellsBelow_last (by omega)
      rw [if_neg hlast]
      by_cases hlt : c < (b.line r).length
      · rw [if_neg fun h => absurd h.2 (by omega), hnil] at htail
        rw [if_pos htail, show (b.line r).length - 1 = c by omega]
      · rw [if_pos ⟨hnil, by omega⟩] at htail
        by_cases hcur : b.line r = []
        · rw [hcur] at hc htail
          have hc0 : c = 0 := Nat.le_zero.mp hc
          have htail : (cellsFrom b (r, c)).tail = [] := htail
          rw [if_pos htail, hcur, hc0]
          rfl
        · rw [if_neg (by
            rw [htail, List.getLast?_eq_some_getLast hcur]
            exact List.cons_ne_nil _ _), htail]
          exact cellsFrom_last hnil hcur

theorem advanceOne_valid (hp : Valid b p) : Valid b (advanceOne b p) := by
  obtain ⟨r, c⟩ := p
  obtain ⟨hr, hc⟩ := hp
  unfold advanceOne
  simp only
  split
  · next h => exact ⟨hr, Nat.le_of_lt h⟩
  · split
    · next h => exact ⟨h, Nat.zero_le _⟩
    · exact ⟨hr, Nat.sub_le _ _⟩

theorem advanceOne_stuck (hp : Valid b p) (h : advanceOne b p = p) :
    (cellsFrom b p).tail = [] := by
  have hcells := cells_advanceOne hp
  rw [h] at hcells
  unfold restCells at hcells
  split at hcells
  · next htail => exact htail
  · have hlen := congrArg List.length hcells
    have hpos := List.length_pos_iff.mpr (cellsFrom_ne_nil (b := b) (p := p))
    rw [List.length_tail] at hlen
    omega

theorem advanceOne_moves (hp : Valid b p) (h : advanceOne b p ≠ p) :
    (cellsFrom b p).tail ≠ [] := by
  obtain ⟨r, c⟩ := p
  obtain ⟨hr, hc⟩ := hp
  have hc : c ≤ (b.line r).length := hc
  unfold advanceOne at h
  simp only at h
  by_cases hinside : c + 1 < (b.line r).length
  · have hlt : c < (b.line r).length := by omega
    unfold cellsFrom
    simp only
    rw [if_pos hlt, List.drop_eq_getElem_cons hlt]
    intro htail
    have hlen := congrArg List.length (List.append_eq_nil_iff.mp htail).1
    rw [List.length_map, List.length_drop] at hlen
    have : (b.line r).length - (c + 1) = 0 := hlen
    omega
  · rw [if_neg hinside] at h
    rw [cellsFrom_tail hinside]
    by_cases hlast : r + 1 < b.lines.length
    · have hne : cellsBelow b r ≠ [] := by
        rw [ne_eq, cellsBelow_eq_nil]
        omega
      rw [if_neg fun h => hne h.1]
      exact hne
    · rw [if_neg hlast] at h
      have hnil : cellsBelow b r = [] := cellsBelow_last (by omega)
      have hmoved : c ≠ (b.line r).length - 1 := by
        intro heq
        exact h (by rw [← heq])
      have hcur : b.line r ≠ [] := by
        intro hempty
        rw [hempty] at hc hmoved
        exact hmoved (Nat.le_zero.mp hc)
      rw [if_pos ⟨hnil, by omega⟩, List.getLast?_eq_some_getLast hcur]
      exact List.cons_ne_nil _ _

theorem Onward.refl (b : Buffer) (p : Nat × Nat) : Onward b p p := .inl rfl

theorem onward_advanceOne (b : Buffer) (p : Nat × Nat) :
    p.1 ≤ (advanceOne b p).1
      ∧ ((advanceOne b p).2 < (b.line (advanceOne b p).1).length
        ∨ b.line (advanceOne b p).1 = [])
      ∧ ((advanceOne b p).1 = p.1 → p.2 < (b.line p.1).length →
        p.2 ≤ (advanceOne b p).2) := by
  have hstart : ∀ r, 0 < (b.line r).length ∨ b.line r = [] := by
    intro r
    by_cases hempty : b.line r = []
    · exact .inr hempty
    · exact .inl (List.length_pos_iff.mpr hempty)
  unfold advanceOne
  simp only
  split
  · next h => exact ⟨Nat.le_refl _, .inl h, fun _ _ => Nat.le_succ _⟩
  · split
    · exact ⟨Nat.le_succ _, hstart _, fun h => absurd h (Nat.succ_ne_self _)⟩
    · refine ⟨Nat.le_refl _, ?_, fun _ h => ?_⟩
      · show (b.line p.1).length - 1 < (b.line p.1).length ∨ _
        rcases hstart p.1 with hpos | hempty
        · left
          omega
        · exact .inr hempty
      · show p.2 ≤ (b.line p.1).length - 1
        omega

theorem Onward.step (h : Onward b (advanceOne b p) q) : Onward b p q := by
  obtain ⟨hrow, hcell, hcol⟩ := onward_advanceOne b p
  right
  rcases h with rfl | ⟨hrow', hcell', hcol'⟩
  · exact ⟨hrow, hcell, hcol⟩
  · refine ⟨Nat.le_trans hrow hrow', hcell', fun hsame hlt => ?_⟩
    have heq : (advanceOne b p).1 = p.1 := by omega
    have hle := hcol heq hlt
    rw [heq] at hcell hcol'
    rcases hcell with hcell | hempty
    · exact Nat.le_trans hle (hcol' hsame hcell)
    · rw [hempty] at hlt
      exact absurd hlt (Nat.not_lt_zero _)

theorem Onward.trans {r : Nat × Nat} (hpq : Onward b p q)
    (hqr : Onward b q r) : Onward b p r := by
  rcases hpq with rfl | ⟨hrow, hcell, hcol⟩
  · exact hqr
  · rcases hqr with rfl | ⟨hrow', hcell', hcol'⟩
    · exact .inr ⟨hrow, hcell, hcol⟩
    · refine .inr ⟨Nat.le_trans hrow hrow', hcell', fun hsame hlt => ?_⟩
      have heq : q.1 = p.1 := by omega
      rw [heq] at hcell hcol'
      rcases hcell with hcell | hempty
      · exact Nat.le_trans (hcol heq hlt) (hcol' hsame hcell)
      · rw [hempty] at hlt
        exact absurd hlt (Nat.not_lt_zero _)

-- ======== walks

/-- What a walk does: it drops cells, and comes to a position onward. -/
structure Walks (b : Buffer) (p q : Nat × Nat) (cells : List Cell) : Prop where
  valid : Valid b q
  onward : Onward b p q
  cells : cellsFrom b q = cells

theorem cells_split {cells : List Cell} (h : cells.tail ≠ []) :
    ∃ c d rest, cells = c :: d :: rest := by
  cases cells with
  | nil => exact absurd rfl h
  | cons c tail =>
    cases tail with
    | nil => exact absurd rfl h
    | cons d rest => exact ⟨c, d, rest, rfl⟩

theorem advanceOne_walks (hp : Valid b p) :
    Walks b p (advanceOne b p) (restCells (cellsFrom b p)) :=
  ⟨advanceOne_valid hp, Onward.step (Onward.refl b _), cells_advanceOne hp⟩

theorem skipCells_of_single {kind : CharClass → Bool} {cells : List Cell}
    (h : cells.tail = []) : skipCells kind cells = cells := by
  cases cells with
  | nil => rfl
  | cons c tail =>
    cases tail with
    | nil => rfl
    | cons d rest => cases h

theorem runCells_of_single {cls : CharClass} {cells : List Cell}
    (h : cells.tail = []) : runCells cls cells = cells := by
  cases cells with
  | nil => rfl
  | cons c tail =>
    cases tail with
    | nil => rfl
    | cons d rest => cases h

/-- The walk goes over the cells of the kind, and stops. -/
theorem advanceWhile_walks {k : CharClass → Bool} (hp : Valid b p) :
    Walks b p (advanceWhile b k p) (skipCells k (cellsFrom b p)) := by
  induction p using Motion.advanceWhile.induct b k with
  | case1 p hkind hstuck =>
    rw [advanceWhile, if_pos hkind, dif_pos hstuck,
      skipCells_of_single (advanceOne_stuck hp hstuck)]
    exact ⟨hp, Onward.refl b p, rfl⟩
  | case2 p hkind hmoves ih =>
    rw [advanceWhile, if_pos hkind, dif_neg hmoves]
    obtain ⟨hvalid, honward, hcells⟩ := ih (advanceOne_valid hp)
    refine ⟨hvalid, honward.step, ?_⟩
    rw [hcells, cells_advanceOne hp]
    rw [classAt_cells] at hkind
    have htail := advanceOne_moves hp hmoves
    obtain ⟨c, d, rest, heq⟩ := cells_split htail
    rw [heq] at hkind ⊢
    have hkind : k (cellClass c) = true := hkind
    show skipCells k (d :: rest)
      = if k (cellClass c) then skipCells k (d :: rest) else _
    rw [if_pos hkind]
  | case3 p hkind =>
    rw [advanceWhile, if_neg hkind]
    refine ⟨hp, Onward.refl b p, ?_⟩
    rw [classAt_cells] at hkind
    by_cases htail : (cellsFrom b p).tail = []
    · rw [skipCells_of_single htail]
    · obtain ⟨c, d, rest, heq⟩ := cells_split htail
      rw [heq] at hkind ⊢
      have hkind : ¬ k (cellClass c) = true := hkind
      show _ = if k (cellClass c) then _ else c :: d :: rest
      rw [if_neg hkind]

/-- A word is left cell by cell. -/
theorem advanceClass_walks {c : CharClass} (hp : Valid b p) :
    Walks b p (advanceClass b c p) (runCells c (cellsFrom b p)) := by
  induction p using Motion.advanceClass.induct b c with
  | case1 p hstuck =>
    rw [advanceClass, dif_pos hstuck,
      runCells_of_single (advanceOne_stuck hp hstuck)]
    exact ⟨hp, Onward.refl b p, rfl⟩
  | case2 p hmoves hclass ih =>
    rw [advanceClass, dif_neg hmoves, if_pos hclass]
    obtain ⟨hvalid, honward, hcells⟩ := ih (advanceOne_valid hp)
    refine ⟨hvalid, honward.step, ?_⟩
    rw [hcells, cells_advanceOne hp]
    rw [classAt_cells, cells_advanceOne hp] at hclass
    obtain ⟨a, d, rest, heq⟩ := cells_split (advanceOne_moves hp hmoves)
    rw [heq] at hclass ⊢
    have hclass : cellClass d = c := hclass
    show runCells c (d :: rest) = if cellClass d = c then _ else _
    rw [if_pos hclass]
  | case3 p hmoves hclass =>
    rw [advanceClass, dif_neg hmoves, if_neg hclass]
    refine ⟨hp, Onward.refl b p, ?_⟩
    rw [classAt_cells, cells_advanceOne hp] at hclass
    obtain ⟨a, d, rest, heq⟩ := cells_split (advanceOne_moves hp hmoves)
    rw [heq] at hclass ⊢
    have hclass : ¬ cellClass d = c := hclass
    show _ = if cellClass d = c then _ else _
    rw [if_neg hclass]

theorem wordNextPos_walks (hp : Valid b p) :
    Walks b p (Motion.wordNextPos b p) (nextWord (cellsFrom b p)) := by
  obtain ⟨hvalid, honward, hcells⟩ :=
    advanceWhile_walks (k := (· = classAt b p)) hp
  obtain ⟨hvalid', honward', hcells'⟩ :=
    advanceWhile_walks (k := (· = .space)) hvalid
  refine ⟨hvalid', honward.trans honward', ?_⟩
  unfold Motion.wordNextPos nextWord
  rw [hcells', hcells, classAt_cells]

theorem wordEnd_walks (hp : Valid b (pos b)) :
    ∃ q, Motion.wordEnd b = Motion.goTo b q
      ∧ Walks b (pos b) q (endWord (cellsFrom b (pos b))) := by
  obtain ⟨hvalid₁, honward₁, hcells₁⟩ := advanceOne_walks hp
  obtain ⟨hvalid₂, honward₂, hcells₂⟩ :=
    advanceWhile_walks (k := (· = .space)) hvalid₁
  obtain ⟨hvalid₃, honward₃, hcells₃⟩ := advanceClass_walks
    (c := classAt b (advanceWhile b (· = .space) (advanceOne b (pos b))))
    hvalid₂
  refine ⟨_, rfl, hvalid₃, (honward₁.trans honward₂).trans honward₃, ?_⟩
  unfold endWord
  rw [hcells₃, classAt_cells, hcells₂, hcells₁]

theorem boundary_of_cells (hq : Valid b q)
    (hstarts : ((cellsFrom b q).head?.elim true startsChar) = true) :
    boundary (b.line q.1) q.2 = true := by
  by_cases hlt : q.2 < (b.line q.1).length
  · unfold cellsFrom at hstarts
    simp only at hstarts
    rw [if_pos hlt, List.drop_eq_getElem_cons hlt] at hstarts
    apply boundary_of_byte (List.getElem?_eq_getElem hlt)
    have hstarts : (!isContinuation (b.line q.1)[q.2]) = true := hstarts
    simpa using hstarts
  · have hend : q.2 = (b.line q.1).length := by
      have := hq.2
      omega
    rw [hend]
    exact boundary_length _

theorem Sound.valid (h : Sound b) : Valid b (pos b) := ⟨h.row, h.col_le⟩

-- ======== w and e

theorem times_walks {f : Buffer → Buffer} {g : List Cell → List Cell}
    (hf : ∀ b, Valid b (pos b) → ∃ q, f b = Motion.goTo b q
      ∧ Walks b (pos b) q (g (cellsFrom b (pos b))))
    (n : Nat) (hb : Valid b (pos b)) :
    ∃ q, times (fun b => some (f b)) n b = some (Motion.goTo b q)
      ∧ Valid b q ∧ cellsFrom b q = g^[n] (cellsFrom b (pos b)) := by
  induction n generalizing b with
  | zero => exact ⟨pos b, rfl, hb, rfl⟩
  | succ n ih =>
    obtain ⟨q, hq, hvalid, -, hcells⟩ := hf b hb
    obtain ⟨r, hr, hvalid', hcells'⟩ := ih (b := Motion.goTo b q) hvalid
    refine ⟨r, ?_, hvalid', ?_⟩
    · show times _ n (f b) = _
      rw [hq]
      exact hr
    · have hcells' : cellsFrom b r = g^[n] (cellsFrom b q) := hcells'
      rw [hcells', hcells]
      rfl

/-- A counted walk is safe where it ends on a cell that starts a
character. -/
def walkSafe (g : List Cell → List Cell) (n : Nat) (b : Buffer) : Bool :=
  (g^[n] (cellsFrom b (pos b))).head?.elim true startsChar

theorem times_walks_sound {f : Buffer → Buffer} {g : List Cell → List Cell}
    (hf : ∀ b, Valid b (pos b) → ∃ q, f b = Motion.goTo b q
      ∧ Walks b (pos b) q (g (cellsFrom b (pos b))))
    {n : Nat} (h : Sound b) (hsafe : walkSafe g n b = true) :
    ∃ b', times (fun b => some (f b)) n b = some b' ∧ Sound b' := by
  obtain ⟨q, hq, hvalid, hcells⟩ := times_walks hf n h.valid
  refine ⟨_, hq, h.goTo hvalid.1 (boundary_of_cells hvalid ?_)⟩
  rw [hcells]
  exact hsafe

theorem wordNext_sound {n : Nat} (h : Sound b)
    (hsafe : walkSafe nextWord n b = true) :
    ∃ b', times (fun b => some (Motion.wordNext b)) n b = some b' ∧ Sound b' :=
  times_walks_sound (fun _ hb => ⟨_, rfl, wordNextPos_walks hb⟩) h hsafe

theorem wordEnd_sound {n : Nat} (h : Sound b)
    (hsafe : walkSafe endWord n b = true) :
    ∃ b', times (fun b => some (Motion.wordEnd b)) n b = some b' ∧ Sound b' :=
  times_walks_sound (fun _ => wordEnd_walks) h hsafe

-- ======== b

theorem retreatOne_valid (hp : Valid b p) : Valid b (retreatOne b p) := by
  obtain ⟨r, c⟩ := p
  obtain ⟨hr, hc⟩ := hp
  have hr : r < b.lines.length := hr
  have hc : c ≤ (b.line r).length := hc
  unfold retreatOne
  simp only
  split
  · refine ⟨hr, ?_⟩
    show c - 1 ≤ (b.line r).length
    omega
  · split
    · refine ⟨?_, Nat.sub_le _ _⟩
      omega
    · exact ⟨hr, hc⟩

theorem retreatWhile_valid {k : CharClass → Bool} (hp : Valid b p) :
    Valid b (retreatWhile b k p) := by
  induction p using Motion.retreatWhile.induct b k with
  | case1 hkind =>
    rw [retreatWhile, if_pos hkind, dif_pos rfl]
    exact hp
  | case2 p hkind hstart hstuck =>
    rw [retreatWhile, if_pos hkind, dif_neg hstart, if_pos hstuck]
    exact hp
  | case3 p hkind hstart hmoves ih =>
    rw [retreatWhile, if_pos hkind, dif_neg hstart, if_neg hmoves]
    exact ih (retreatOne_valid hp)
  | case4 p hkind =>
    rw [retreatWhile, if_neg hkind]
    exact hp

theorem charClass_of_not_ascii {byte : Byte} (h : isAscii byte = false) :
    charClass byte = .punct := by
  have hlarge : ¬ byte < 0x80#8 := of_decide_eq_false h
  have hword : ¬ ((chr 'a' ≤ byte ∧ byte ≤ chr 'z')
      ∨ (chr 'A' ≤ byte ∧ byte ≤ chr 'Z')
      ∨ (chr '0' ≤ byte ∧ byte ≤ chr '9') ∨ byte = chr '_') := by
    have hz : chr 'z' = 0x7a#8 := by decide
    have hZ : chr 'Z' = 0x5a#8 := by decide
    have h9 : chr '9' = 0x39#8 := by decide
    have hline : chr '_' = 0x5f#8 := by decide
    rw [hz, hZ, h9, hline]
    intro h
    rcases h with h | h | h | h
    · bv_omega
    · bv_omega
    · bv_omega
    · rw [h] at hlarge
      exact hlarge (by decide)
  have hspace : ¬ (byte = chr ' ' ∨ byte = chr '\t') := by
    intro h
    rcases h with h | h
    · rw [h] at hlarge
      exact hlarge (by decide)
    · rw [h] at hlarge
      exact hlarge (by decide)
  unfold charClass
  rw [if_neg hword, if_neg hspace]

/-- Where the class changes a character starts. -/
theorem boundary_of_class (hleads : Leads (b.line p.1)) (hp : Valid b p)
    (hclass : classAt b (p.1, p.2 - 1) ≠ classAt b p) :
    boundary (b.line p.1) p.2 = true := by
  by_cases hlt : p.2 < (b.line p.1).length
  · apply boundary_of_byte (List.getElem?_eq_getElem hlt)
    cases hcont : isContinuation (b.line p.1)[p.2] with
    | false => rfl
    | true =>
      obtain ⟨-, a, ha, hascii⟩ :=
        hleads p.2 _ (List.getElem?_eq_getElem hlt) hcont
      have hhere : classAt b p = .punct := by
        unfold classAt byteAt
        rw [List.getD_eq_getElem?_getD, List.getElem?_eq_getElem hlt]
        exact charClass_of_not_ascii (isAscii_of_continuation hcont)
      have hbefore : classAt b (p.1, p.2 - 1) = .punct := by
        unfold classAt byteAt
        simp only
        rw [List.getD_eq_getElem?_getD, ha]
        exact charClass_of_not_ascii hascii
      exact absurd (hbefore.trans hhere.symm) hclass
  · have hend : p.2 = (b.line p.1).length := by
      have := hp.2
      omega
    rw [hend]
    exact boundary_length _

/-- The walk back stops at the start of a character. -/
theorem retreatClass_boundary {cls : CharClass}
    (hleads : ∀ r, Leads (b.line r)) (hp : Valid b p)
    (hcls : classAt b p = cls) : Valid b (retreatClass b cls p)
      ∧ boundary (b.line (retreatClass b cls p).1)
        (retreatClass b cls p).2 = true := by
  induction p using Motion.retreatClass.induct b cls with
  | case1 =>
    rw [retreatClass, dif_pos rfl]
    exact ⟨hp, boundary_zero _⟩
  | case2 p hstart hclass =>
    rw [retreatClass, dif_neg hstart, if_pos hclass]
    refine ⟨hp, ?_⟩
    by_cases hcol : p.2 = 0
    · rw [hcol]
      exact boundary_zero _
    · apply boundary_of_class (hleads _) hp
      have hone : retreatOne b p = (p.1, p.2 - 1) :=
        if_pos (Nat.pos_of_ne_zero hcol)
      rw [hone] at hclass
      rw [hcls]
      exact hclass
  | case3 p hstart hclass ih =>
    rw [retreatClass, dif_neg hstart, if_neg hclass]
    exact ih (retreatOne_valid hp) (not_not.mp hclass)

theorem times_sound {f : Buffer → Option Buffer}
    (hf : ∀ b, Sound b → ∃ b', f b = some b' ∧ Sound b') (n : Nat)
    (h : Sound b) : ∃ b', times f n b = some b' ∧ Sound b' := by
  induction n generalizing b with
  | zero => exact ⟨b, rfl, h⟩
  | succ n ih =>
    obtain ⟨c, hc, hsound⟩ := hf b h
    obtain ⟨d, hd, hsound'⟩ := ih hsound
    refine ⟨d, ?_, hsound'⟩
    show (f b).bind _ = _
    rw [hc]
    exact hd

theorem wordBack_sound (h : Sound b) (n : Nat) :
    ∃ b', times (fun b => some (Motion.wordBack b)) n b = some b'
      ∧ Sound b' := by
  refine times_sound (fun b h => ⟨_, rfl, ?_⟩) n h
  obtain ⟨hvalid, hboundary⟩ := retreatClass_boundary h.line
    (retreatWhile_valid (k := (· = .space)) (retreatOne_valid h.valid)) rfl
  exact h.goTo hvalid.1 hboundary

-- ======== dw

/-- `dw` is safe in two cases. If the next word is in the line, it has to
be ahead of the cursor and to start a character; behind the last line it is
not ahead. Otherwise the line is cut at the cursor, and the byte before the
cursor has to start a character. -/
def deleteWordSafe (b : Buffer) : Bool :=
  let cur := b.line b.row
  let next := nextWord (cellsFrom b (pos b))
  if (cellsBelow b b.row).length < next.length then
    (decide (b.col < cur.length) || cur.isEmpty)
      && next.head?.elim true startsChar
  else boundary cur (b.col - 1)

theorem cellsBelow_length {row r : Nat} (h : row ≤ r) :
    (cellsBelow b r).length ≤ (cellsBelow b row).length := by
  induction r, h using Nat.le_induction with
  | base => exact Nat.le_refl _
  | succ r _ ih =>
    refine Nat.le_trans ?_ ih
    by_cases hr : r + 1 < b.lines.length
    · rw [cellsBelow_succ hr, List.length_append]
      omega
    · rw [cellsBelow_last (by omega : b.lines.length ≤ r + 1 + 1)]
      exact Nat.zero_le _

/-- A walk stays in its row while it has not used it up. -/
theorem row_iff (hp : Valid b p) (hq : Valid b q) (h : Onward b p q) :
    q.1 = p.1 ↔ (cellsBelow b p.1).length < (cellsFrom b q).length := by
  constructor
  case mp =>
    intro hrow
    unfold cellsFrom
    simp only
    rw [hrow]
    split
    · next hlt =>
      rw [List.length_append, List.length_map, List.length_drop]
      omega
    · rw [List.length_cons]
      split
      · next hnil =>
        rw [hnil]
        exact Nat.succ_pos _
      · omega
  case mpr =>
    intro hlen
    refine Decidable.byContradiction fun hrow => ?_
    rcases h with rfl | ⟨hle, hcell, -⟩
    · exact hrow rfl
    · have hbelow := cellsBelow_length (b := b) (show p.1 ≤ q.1 - 1 by omega)
      rw [cellsBelow_succ (by have := hq.1; omega),
        show q.1 - 1 + 1 = q.1 by omega, List.length_append] at hbelow
      unfold cellsFrom lineCells at *
      simp only at hlen
      rcases hcell with hlt | hempty
      · have hne : b.line q.1 ≠ [] := by
          intro hnil
          rw [hnil] at hlt
          exact absurd hlt (Nat.not_lt_zero _)
        rw [if_pos hlt, List.length_append, List.length_map,
          List.length_drop] at hlen
        rw [if_neg hne, List.length_map] at hbelow
        omega
      · rw [hempty] at hlen
        rw [if_pos hempty] at hbelow
        simp only [List.length_nil, Nat.not_lt_zero, if_false,
          List.length_cons] at hlen
        rw [List.length_singleton] at hbelow
        split at hlen
        · have : (List.map some ([] : Text).getLast?.toList).length = 0 := rfl
          omega
        · omega

/-- Deleting a word that is safe takes whole characters. -/
theorem deleteWord_sound (h : Sound b) (hsafe : deleteWordSafe b = true) :
    ∃ r, Edit.deleteWord b = some r ∧ Leads r.1 ∧ Sound r.2 := by
  have hle := h.col_le
  have hleads := h.line b.row
  obtain ⟨hvalid, honward, hcells⟩ := wordNextPos_walks h.valid
  generalize hq : Motion.wordNextPos b (pos b) = q at hvalid honward hcells
  have hstop : Edit.wordStop b (b.line b.row)
      = if q.1 = b.row then q.2 else (b.line b.row).length := by
    unfold Edit.wordStop Motion.wordNext
    rw [hq]
    rfl
  have hrow := row_iff h.valid hvalid honward
  rw [hcells] at hrow
  have hrow : q.1 = b.row ↔ (cellsBelow b b.row).length
      < (nextWord (cellsFrom b (pos b))).length := hrow
  unfold Edit.deleteWord
  rw [h.current]
  show ∃ r, (drain (b.line b.row) b.col (Edit.wordStop b (b.line b.row))
    >>= _) = some r ∧ _
  rw [hstop]
  unfold deleteWordSafe at hsafe
  by_cases hhere : q.1 = b.row
  · rw [if_pos (hrow.mp hhere), Bool.and_eq_true] at hsafe
    obtain ⟨hahead, hstarts⟩ := hsafe
    rw [← hcells] at hstarts
    have hboundary := boundary_of_cells hvalid hstarts
    rw [hhere] at hboundary
    simp only [Bool.or_eq_true, decide_eq_true_eq, List.isEmpty_iff]
      at hahead
    have hbetween : b.col ≤ q.2
        ∧ (q.2 < (b.line b.row).length ∨ b.col = 0) := by
      rcases hahead with hlt | hempty
      · rcases honward with rfl | ⟨-, hcell, hcol⟩
        · exact ⟨Nat.le_refl _, .inl hlt⟩
        · refine ⟨hcol hhere hlt, .inl ?_⟩
          rw [hhere] at hcell
          rcases hcell with hcell | hempty
          · exact hcell
          · rw [hempty] at hlt
            exact absurd hlt (Nat.not_lt_zero _)
      · rw [hempty] at hle
        have hcol : b.col = 0 := Nat.le_zero.mp hle
        exact ⟨by omega, .inr hcol⟩
    obtain ⟨hlow, hhigh⟩ := hbetween
    rw [if_pos hhere, drain_eq hlow h.col hboundary]
    refine ⟨_, rfl, ?_, h.edit (hleads.cut hboundary) ?_⟩
    · exact (hleads.take _).drop (boundary_take h.col hlow)
    · have hlen : ((b.line b.row).take b.col ++ (b.line b.row).drop q.2).length
          = b.col + ((b.line b.row).length - q.2) := by
        rw [List.length_append, List.length_take, List.length_drop]
        omega
      rw [hlen, if_neg (by omega)]
      exact boundary_cut hleads h.col hboundary
  · rw [if_neg fun hlt => hhere (hrow.mpr hlt)] at hsafe
    have hend := boundary_length (b.line b.row)
    rw [if_neg hhere, drain_eq hle h.col hend]
    refine ⟨_, rfl, ?_, h.edit (hleads.cut hend) ?_⟩
    · exact (hleads.take _).drop (boundary_take h.col hle)
    · have hlen : ((b.line b.row).take b.col
          ++ (b.line b.row).drop (b.line b.row).length).length = b.col := by
        rw [List.drop_length, List.append_nil, List.length_take]
        omega
      rw [hlen]
      split
      · apply boundary_append_left ?_ (hleads.drop hend)
        exact boundary_take hsafe (by omega)
      · exact boundary_cut hleads h.col hend

end LinuxRs.Vi
