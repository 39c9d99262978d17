/-
The edit script of `diff` (user_program/src/bin/diff.rs): `lcs_diff` and the
chunks of `print_normal_diff`.

# From the back

The table and the walk go by prefixes of the two lists, and the walk starts
at the ends. Its pushes are a script of the reversed prefixes (`Aligns`), on
which the table is `lcs`; the final `reverse` turns script and lists around.

# Chunks

A chunk is a maximal run of edits that do not keep. Its two intervals are
the lines that the run deletes and inserts, and between two chunks at least
one line is kept.
-/
import LinuxRs.Lib.Subsequence
import Mathlib.Data.List.Pairwise
import Mathlib.Order.Bounds.Defs

namespace LinuxRs.Diff

open LinuxRs.Lib

universe u

variable {α : Type u} [DecidableEq α]

-- ======== the code

inductive Edit
  | keep
  | delete
  | insert
  deriving DecidableEq

abbrev Table := Nat → Nat → Nat

def Table.put (dp : Table) (i j value : Nat) : Table := fun i' j' =>
  if i' = i ∧ j' = j then value else dp i' j'

/-- The inner loop: the row of `a[i]`, from a column on. -/
def fillRow (item : α) (i : Nat) : List α → Nat → Table → Table
  | [], _, dp => dp
  | bItem :: b, j, dp =>
    fillRow item i b (j + 1) (dp.put (i + 1) (j + 1)
      (if item = bItem then dp i j + 1 else max (dp (i + 1) j) (dp i (j + 1))))

def fill (b : List α) : List α → Nat → Table → Table
  | [], _, dp => dp
  | item :: a, i, dp => fill b a (i + 1) (fillRow item i b 0 dp)

def backtrack (a b : List α) (dp : Table) : Nat → Nat → List Edit
  | 0, 0 => []
  | 0, j + 1 => .insert :: backtrack a b dp 0 j
  | i + 1, 0 => .delete :: backtrack a b dp i 0
  | i + 1, j + 1 =>
    if a[i]? = b[j]? then .keep :: backtrack a b dp i j
    else if dp i (j + 1) ≤ dp (i + 1) j then
      .insert :: backtrack a b dp (i + 1) j
    else .delete :: backtrack a b dp i (j + 1)
  termination_by i j => i + j

def lcsDiff (a b : List α) : List Edit :=
  (backtrack a b (fill b a 0 fun _ _ => 0) a.length b.length).reverse

/-- What is left behind the kept lines and the run that follows them. -/
def behind (edits : List Edit) : List Edit :=
  (edits.dropWhile (· = .keep)).dropWhile (· ≠ .keep)

theorem behind_lt (e : Edit) (es : List Edit) :
    (behind (e :: es)).length < (e :: es).length := by
  have hkeep := (List.dropWhile_sublist (l := es) (· = Edit.keep)).length_le
  have hrun (l : List Edit) :=
    (List.dropWhile_sublist (l := l) (· ≠ Edit.keep)).length_le
  unfold behind
  by_cases he : e = .keep
  · rw [List.dropWhile_cons, if_pos (decide_eq_true he)]
    exact Nat.lt_succ_of_le (Nat.le_trans (hrun _) hkeep)
  · rw [List.dropWhile_cons, if_neg (by simp [he]), List.dropWhile_cons,
      if_pos (decide_eq_true he)]
    exact Nat.lt_succ_of_le (hrun es)

/-- A run of changes, as the lines it covers on each side. -/
structure Chunk where
  aStart : Nat
  aEnd : Nat
  bStart : Nat
  bEnd : Nat

/-- The loop of `print_normal_diff` over the edits that are left. -/
def chunks (edits : List Edit) (ai bi : Nat) : List Chunk :=
  match edits with
  | [] => []
  | e :: es =>
    let kept := ((e :: es).takeWhile (· = .keep)).length
    let rest := (e :: es).dropWhile (· = .keep)
    let run := rest.takeWhile (· ≠ .keep)
    let ca := run.count .delete
    let cb := run.count .insert
    if run = [] then chunks (behind (e :: es)) (ai + kept) (bi + kept)
    else
      { aStart := ai + kept, aEnd := ai + kept + ca,
        bStart := bi + kept, bEnd := bi + kept + cb }
        :: chunks (behind (e :: es)) (ai + kept + ca) (bi + kept + cb)
  termination_by edits.length
  decreasing_by all_goals exact behind_lt e es

-- ======== what a script does

/-- Applying the edits to the first list, with the lines of the second one
to insert. -/
def applyEdits : List Edit → List α → List α → Option (List α)
  | [], [], _ => some []
  | .keep :: es, x :: a, _ :: b => (applyEdits es a b).map (x :: ·)
  | .delete :: es, _ :: a, b => applyEdits es a b
  | .insert :: es, a, y :: b => (applyEdits es a b).map (y :: ·)
  | _, _, _ => none

def changed (side : Edit) : List Edit → Nat → List Nat
  | [], _ => []
  | e :: es, i =>
    if e = side then i :: changed side es (i + 1)
    else if e = .keep then changed side es (i + 1)
    else changed side es i

/-- The edits lead from the one list to the other. -/
inductive Aligns : List Edit → List α → List α → Prop
  | nil : Aligns [] [] []
  | keep {es : List Edit} {a b : List α} (x : α) :
      Aligns es a b → Aligns (.keep :: es) (x :: a) (x :: b)
  | delete {es : List Edit} {a b : List α} (x : α) :
      Aligns es a b → Aligns (.delete :: es) (x :: a) b
  | insert {es : List Edit} {a b : List α} (y : α) :
      Aligns es a b → Aligns (.insert :: es) a (y :: b)

variable {es es' : List Edit} {a a' b b' : List α}

omit [DecidableEq α] in
theorem Aligns.append (h : Aligns es a b) (h' : Aligns es' a' b') :
    Aligns (es ++ es') (a ++ a') (b ++ b') := by
  induction h with
  | nil => exact h'
  | keep x _ ih => exact .keep x ih
  | delete x _ ih => exact .delete x ih
  | insert y _ ih => exact .insert y ih

omit [DecidableEq α] in
theorem Aligns.reverse (h : Aligns es a b) :
    Aligns es.reverse a.reverse b.reverse := by
  induction h with
  | nil => exact .nil
  | keep x _ ih =>
    simp only [List.reverse_cons]
    exact ih.append (.keep x .nil)
  | delete x _ ih =>
    simpa using ih.append (.delete x .nil)
  | insert y _ ih =>
    simpa using ih.append (.insert y .nil)

omit [DecidableEq α] in
theorem Aligns.applies (h : Aligns es a b) : applyEdits es a b = some b := by
  induction h with
  | nil => rfl
  | keep x _ ih => simp [applyEdits, ih]
  | delete x _ ih => simpa [applyEdits] using ih
  | insert y _ ih => simp [applyEdits, ih]

omit [DecidableEq α] in
theorem Aligns.kept (h : Aligns es a b) : ∃ s : List α, s.Sublist a ∧
    s.Sublist b ∧ s.length = es.count .keep := by
  induction h with
  | nil => exact ⟨[], .slnil, .slnil, rfl⟩
  | keep x _ ih =>
    obtain ⟨s, hsa, hsb, hlen⟩ := ih
    exact ⟨x :: s, hsa.cons_cons x, hsb.cons_cons x, by simp [hlen]⟩
  | delete x _ ih =>
    obtain ⟨s, hsa, hsb, hlen⟩ := ih
    exact ⟨s, hsa.cons x, hsb, by simp [hlen]⟩
  | insert y _ ih =>
    obtain ⟨s, hsa, hsb, hlen⟩ := ih
    exact ⟨s, hsa, hsb.cons y, by simp [hlen]⟩

omit [DecidableEq α] in
theorem Aligns.lengths (h : Aligns es a b) :
    es.count .keep + es.count .delete = a.length ∧
      es.count .keep + es.count .insert = b.length := by
  induction h with
  | nil => exact ⟨rfl, rfl⟩
  | keep x _ ih => simp; omega
  | delete x _ ih => simp; omega
  | insert y _ ih => simp; omega

theorem count_edits (es : List Edit) :
    es.count .keep + es.count .delete + es.count .insert = es.length := by
  induction es with
  | nil => rfl
  | cons e es ih => cases e <;> simp <;> omega

-- ======== the table

def back (l : List α) (i : Nat) : List α := (l.take i).reverse

omit [DecidableEq α] in
theorem back_succ {l : List α} {i : Nat} {x : α} (h : l[i]? = some x) :
    back l (i + 1) = x :: back l i := by
  unfold back
  rw [List.take_add_one, h]
  simp

omit [DecidableEq α] in
@[simp] theorem back_zero (l : List α) : back l 0 = [] := by
  simp [back]

/-- The table holds the lengths up to a row, and up to a column in the next
one. -/
structure Filled (a b : List α) (dp : Table) (i j : Nat) : Prop where
  rows : ∀ i' j', i' ≤ i → j' ≤ b.length →
    dp i' j' = lcs (back a i') (back b j')
  row : ∀ j', j' ≤ j → dp (i + 1) j' = lcs (back a (i + 1)) (back b j')
  column : ∀ i', dp i' 0 = 0

theorem fillRow_filled {item : α} {i j : Nat} {dp : Table} {rest : List α}
    (hi : a[i]? = some item) (hrest : b.drop j = rest)
    (hj : j ≤ b.length) (h : Filled a b dp i j) :
    Filled a b (fillRow item i rest j dp) i b.length := by
  induction rest generalizing j dp with
  | nil =>
    rw [show b.length = j from Nat.le_antisymm (List.drop_eq_nil_iff.mp hrest) hj]
    exact h
  | cons y rest ih =>
    have hy : b[j]? = some y := by
      rw [← List.head?_drop, hrest]
      rfl
    have hlt := (List.getElem?_eq_some_iff.mp hy).1
    apply ih
    · rw [← List.drop_drop, hrest]
      rfl
    · exact hlt
    · refine ⟨fun i' j' hi' hj' => ?_, fun j' hj' => ?_, fun i' => ?_⟩
      · unfold Table.put
        rw [if_neg (by omega)]
        exact h.rows i' j' hi' hj'
      · unfold Table.put
        by_cases hlast : j' = j + 1
        · subst hlast
          rw [if_pos ⟨rfl, rfl⟩, back_succ hi, back_succ hy, lcs_cons,
            ← back_succ hi, ← back_succ hy, h.rows i j (Nat.le_refl i) hj,
            h.row j (Nat.le_refl j), h.rows i (j + 1) (Nat.le_refl i) hlt]
        · rw [if_neg (by omega)]
          exact h.row j' (by omega)
      · unfold Table.put
        rw [if_neg (by omega)]
        exact h.column i'

/-- Rows are filled from the rows above them. -/
theorem fill_filled {i : Nat} {dp : Table} {rest : List α}
    (hrest : a.drop i = rest) (hi : i ≤ a.length) (h : Filled a b dp i 0) :
    Filled a b (fill b rest i dp) a.length 0 := by
  induction rest generalizing i dp with
  | nil =>
    rw [show a.length = i from Nat.le_antisymm (List.drop_eq_nil_iff.mp hrest) hi]
    exact h
  | cons x rest ih =>
    have hx : a[i]? = some x := by
      rw [← List.head?_drop, hrest]
      rfl
    have hrow := fillRow_filled hx (List.drop_zero) (Nat.zero_le _) h
    apply ih
    · rw [← List.drop_drop, hrest]
      rfl
    · exact (List.getElem?_eq_some_iff.mp hx).1
    · refine ⟨fun i' j' hi' hj' => ?_, fun j' hj' => ?_, hrow.column⟩
      · by_cases hlast : i' = i + 1
        · subst hlast
          exact hrow.row j' hj'
        · exact hrow.rows i' j' (by omega) hj'
      · obtain rfl : j' = 0 := by omega
        rw [hrow.column, back_zero, lcs_nil_right]

theorem table_eq (a b : List α) {i j : Nat} (hi : i ≤ a.length)
    (hj : j ≤ b.length) :
    fill b a 0 (fun _ _ => 0) i j = lcs (back a i) (back b j) := by
  have hstart : Filled a b (fun _ _ => 0) 0 0 := by
    refine ⟨fun i' j' hi' _ => ?_, fun j' hj' => ?_, fun _ => rfl⟩
    · obtain rfl : i' = 0 := by omega
      simp
    · obtain rfl : j' = 0 := by omega
      simp
  exact (fill_filled (List.drop_zero) (Nat.zero_le _) hstart).rows i j hi hj

-- ======== the walk

/-- The way back keeps as many lines as the table says. -/
theorem backtrack_spec {dp : Table} {i j : Nat} (hi : i ≤ a.length)
    (hj : j ≤ b.length) (hdp : ∀ i j, i ≤ a.length → j ≤ b.length →
      dp i j = lcs (back a i) (back b j)) :
    Aligns (backtrack a b dp i j) (back a i) (back b j) ∧
      (backtrack a b dp i j).count .keep = lcs (back a i) (back b j) := by
  have hget (l : List α) {k : Nat} (hk : k + 1 ≤ l.length) :
      ∃ x, l[k]? = some x := ⟨_, List.getElem?_eq_getElem hk⟩
  induction i, j using backtrack.induct a b dp with
  | case1 =>
    rw [backtrack]
    simp [Aligns.nil]
  | case2 j ih =>
    obtain ⟨y, hy⟩ := hget b hj
    obtain ⟨hscript, hcount⟩ := ih hi (by omega)
    rw [backtrack, back_succ hy]
    refine ⟨.insert y hscript, ?_⟩
    simpa using hcount
  | case3 i ih =>
    obtain ⟨x, hx⟩ := hget a hi
    obtain ⟨hscript, hcount⟩ := ih (by omega) hj
    rw [backtrack, back_succ hx]
    refine ⟨.delete x hscript, ?_⟩
    simpa using hcount
  | case4 i j heq ih =>
    obtain ⟨x, hx⟩ := hget a hi
    have hy : b[j]? = some x := heq ▸ hx
    obtain ⟨hscript, hcount⟩ := ih (by omega) (by omega)
    rw [backtrack, if_pos heq, back_succ hx, back_succ hy, lcs_cons, if_pos rfl]
    refine ⟨.keep x hscript, ?_⟩
    rw [List.count_cons_self, hcount]
  | case5 i j hne hle ih =>
    obtain ⟨x, hx⟩ := hget a hi
    obtain ⟨y, hy⟩ := hget b hj
    have hxy : x ≠ y := fun h => hne (by rw [hx, hy, h])
    obtain ⟨hscript, hcount⟩ := ih hi (by omega)
    rw [hdp _ _ (by omega) hj, hdp _ _ hi (by omega)] at hle
    rw [backtrack, if_neg hne, if_pos (by
      rw [hdp _ _ (by omega) hj, hdp _ _ hi (by omega)]
      exact hle), back_succ hy]
    refine ⟨.insert y hscript, ?_⟩
    rw [List.count_cons_of_ne (by decide), hcount, back_succ hx, lcs_cons,
      if_neg hxy, ← back_succ hx, ← back_succ hy, Nat.max_eq_left hle]
  | case6 i j hne hlt ih =>
    obtain ⟨x, hx⟩ := hget a hi
    obtain ⟨y, hy⟩ := hget b hj
    have hxy : x ≠ y := fun h => hne (by rw [hx, hy, h])
    obtain ⟨hscript, hcount⟩ := ih (by omega) hj
    rw [hdp _ _ (by omega) hj, hdp _ _ hi (by omega)] at hlt
    rw [backtrack, if_neg hne, if_neg (by
      rw [hdp _ _ (by omega) hj, hdp _ _ hi (by omega)]
      exact hlt), back_succ hx]
    refine ⟨.delete x hscript, ?_⟩
    rw [List.count_cons_of_ne (by decide), hcount, back_succ hy, lcs_cons,
      if_neg hxy, ← back_succ hx, ← back_succ hy, 
      Nat.max_eq_right (Nat.le_of_lt (Nat.not_le.mp hlt))]

theorem lcsDiff_spec (a b : List α) : Aligns (lcsDiff a b) a b ∧
    (lcsDiff a b).count .keep = lcs a.reverse b.reverse := by
  obtain ⟨hscript, hcount⟩ := backtrack_spec (Nat.le_refl a.length)
    (Nat.le_refl b.length) fun i j hi hj => table_eq a b hi hj
  unfold back at hscript hcount
  rw [List.take_length, List.take_length] at hscript hcount
  refine ⟨?_, ?_⟩
  · have hback := hscript.reverse
    rw [List.reverse_reverse, List.reverse_reverse] at hback
    exact hback
  · unfold lcsDiff
    rw [List.count_reverse]
    exact hcount

-- ======== the chunks

variable {side : Edit} {kept run : List Edit} {ai bi : Nat}

theorem changed_kept (hside : side ≠ .keep) (h : ∀ e ∈ kept, e = .keep)
    (es : List Edit) (i : Nat) :
    changed side (kept ++ es) i = changed side es (i + kept.length) := by
  induction kept generalizing i with
  | nil => rfl
  | cons e kept ih =>
    obtain rfl := h e List.mem_cons_self
    rw [List.cons_append, changed, if_neg (Ne.symm hside), if_pos rfl,
      ih fun e' he' => h e' (List.mem_cons_of_mem _ he'), List.length_cons,
      Nat.add_right_comm, Nat.add_assoc]

theorem changed_run (h : ∀ e ∈ run, e ≠ .keep) (es : List Edit) (i : Nat) :
    changed side (run ++ es) i = List.range' i (run.count side)
      ++ changed side es (i + run.count side) := by
  induction run generalizing i with
  | nil => rfl
  | cons e run ih =>
    have hrun := ih fun e' he' => h e' (List.mem_cons_of_mem _ he')
    rw [List.cons_append, changed]
    by_cases he : e = side
    · subst he
      rw [if_pos rfl, List.count_cons_self, List.range'_succ, hrun,
        List.cons_append, show i + 1 + run.count e = i + (run.count e + 1) by
          omega]
    · rw [if_neg he, if_neg (h e List.mem_cons_self), hrun,
        List.count_cons_of_ne he]

/-- The chunks hold what is changed, no line twice and no line kept. -/
structure Covers (cs : List Chunk) (es : List Edit) (ai bi : Nat) : Prop where
  deleted : cs.flatMap (fun c => List.range' c.aStart (c.aEnd - c.aStart))
    = changed .delete es ai
  inserted : cs.flatMap (fun c => List.range' c.bStart (c.bEnd - c.bStart))
    = changed .insert es bi
  from_start : ∀ c ∈ cs, ai ≤ c.aStart ∧ bi ≤ c.bStart
  apart : (∀ e, es.head? = some e → e = .keep) → ∀ c ∈ cs,
    ai < c.aStart ∧ bi < c.bStart
  ordered : cs.Pairwise fun c d => c.aEnd < d.aStart ∧ c.bEnd < d.bStart
  inside : ∀ c ∈ cs, c.aStart ≤ c.aEnd ∧ c.bStart ≤ c.bEnd ∧
    c.aEnd ≤ ai + es.count .keep + es.count .delete ∧
    c.bEnd ≤ bi + es.count .keep + es.count .insert

theorem split_edits (es : List Edit) : es = es.takeWhile (· = .keep) ++
      ((es.dropWhile (· = .keep)).takeWhile (· ≠ .keep) ++ behind es) ∧
    (∀ e ∈ es.takeWhile (· = .keep), e = .keep) ∧
    (∀ e ∈ (es.dropWhile (· = .keep)).takeWhile (· ≠ .keep), e ≠ .keep) ∧
    (∀ e, (behind es).head? = some e → e = .keep) := by
  refine ⟨?_, fun e he => ?_, fun e he => ?_, fun e he => ?_⟩
  · unfold behind
    rw [List.takeWhile_append_dropWhile, List.takeWhile_append_dropWhile]
  · exact of_decide_eq_true (List.all_eq_true.mp List.all_takeWhile e he)
  · exact of_decide_eq_true (List.all_eq_true.mp List.all_takeWhile e he)
  · have hnot := List.head?_dropWhile_not (· ≠ Edit.keep)
      (es.dropWhile (· = .keep))
    unfold behind at he
    rw [he] at hnot
    simpa using hnot

theorem Covers.cons (ai bi : Nat) {cs : List Chunk} {rest : List Edit}
    (hkept : ∀ e ∈ kept, e = .keep) (hrun : ∀ e ∈ run, e ≠ .keep)
    (hrest : ∀ e, rest.head? = some e → e = .keep)
    (h : Covers cs rest (ai + kept.length + run.count .delete)
      (bi + kept.length + run.count .insert)) :
    Covers ((if run = [] then [] else
      [{ aStart := ai + kept.length,
         aEnd := ai + kept.length + run.count .delete,
         bStart := bi + kept.length,
         bEnd := bi + kept.length + run.count .insert }]) ++ cs)
      (kept ++ (run ++ rest)) ai bi := by
  have hkeeps : (kept ++ (run ++ rest)).count .keep
      = kept.length + rest.count .keep := by
    rw [List.count_append, List.count_append,
      List.count_eq_length.mpr fun e he => (hkept e he).symm,
      List.count_eq_zero.mpr fun he => hrun _ he rfl, Nat.zero_add]
  have hothers (side : Edit) (hside : side ≠ .keep) :
      (kept ++ (run ++ rest)).count side = run.count side + rest.count side := by
    rw [List.count_append, List.count_append,
      List.count_eq_zero.mpr fun he => hside (hkept _ he), Nat.zero_add]
  have hdelete := hothers .delete (by decide)
  have hinsert := hothers .insert (by decide)
  have hdeleted := h.deleted
  have hinserted := h.inserted
  -- An edit that does not keep stands first only in front of a run.
  have hfront (hhead : ∀ e, (kept ++ (run ++ rest)).head? = some e → e = .keep) :
      0 < kept.length ∨ run = [] := by
    cases kept with
    | cons e kept => exact .inl (Nat.succ_pos _)
    | nil =>
      cases run with
      | nil => exact .inr rfl
      | cons e run =>
        exact absurd (hhead e rfl) (hrun e List.mem_cons_self)
  by_cases hnil : run = []
  · subst hnil
    rw [if_pos rfl, List.nil_append]
    simp only [List.count_nil, Nat.add_zero, Nat.zero_add] at *
    refine ⟨?_, ?_, fun c hc => ?_, fun hhead c hc => ?_, h.ordered,
      fun c hc => ?_⟩
    · rw [changed_kept (by decide) hkept, List.nil_append]
      exact h.deleted
    · rw [changed_kept (by decide) hkept, List.nil_append]
      exact h.inserted
    · have := h.from_start c hc
      omega
    · have := h.apart hrest c hc
      omega
    · have := h.inside c hc
      omega
  · rw [if_neg hnil, List.singleton_append]
    refine ⟨?_, ?_, fun c hc => ?_, fun hhead c hc => ?_,
      List.pairwise_cons.mpr ⟨fun d hd => h.apart hrest d hd, h.ordered⟩,
      fun c hc => ?_⟩
    · rw [changed_kept (by decide) hkept, changed_run hrun, List.flatMap_cons,
        h.deleted, Nat.add_sub_cancel_left]
    · rw [changed_kept (by decide) hkept, changed_run hrun, List.flatMap_cons,
        h.inserted, Nat.add_sub_cancel_left]
    · rcases List.mem_cons.mp hc with rfl | hc
      · exact ⟨Nat.le_add_right _ _, Nat.le_add_right _ _⟩
      · have := h.from_start c hc
        omega
    · have hpos := (hfront hhead).resolve_right hnil
      rcases List.mem_cons.mp hc with rfl | hc
      · dsimp only
        omega
      · have := h.from_start c hc
        omega
    · rcases List.mem_cons.mp hc with rfl | hc
      · dsimp only
        omega
      · have := h.inside c hc
        omega

theorem chunks_cons (e : Edit) (es : List Edit) (ai bi : Nat) :
    chunks (e :: es) ai bi = (let kept := (e :: es).takeWhile (· = .keep)
         let run := ((e :: es).dropWhile (· = .keep)).takeWhile (· ≠ .keep)
         (if run = [] then [] else
          [{ aStart := ai + kept.length,
             aEnd := ai + kept.length + run.count .delete,
             bStart := bi + kept.length,
             bEnd := bi + kept.length + run.count .insert }])
          ++ chunks (behind (e :: es)) (ai + kept.length + run.count .delete)
            (bi + kept.length + run.count .insert)) := by
  rw [chunks]
  dsimp only
  split
  next hnil => rw [hnil, List.nil_append]; rfl
  next => rfl

theorem chunks_cover (es : List Edit) (ai bi : Nat) :
    Covers (chunks es ai bi) es ai bi := by
  induction hlen : es.length using Nat.strongRecOn generalizing es ai bi with
  | _ n ih =>
    cases es with
    | nil =>
      rw [chunks]
      exact ⟨rfl, rfl, by simp, by simp, .nil, by simp⟩
    | cons e es =>
      obtain ⟨hsplit, hkept, hrun, hrest⟩ := split_edits (e :: es)
      have hlt := behind_lt e es
      have h := Covers.cons ai bi hkept hrun hrest
        (ih _ (hlen ▸ hlt) (behind (e :: es)) _ _ rfl)
      rw [← hsplit] at h
      rw [chunks_cons]
      exact h

-- ======== diff

/-- The script of `lcs_diff` turns the first list into the second one with
as many kept lines as any common subsequence has, keeps everything exactly
when the lists are equal, and the chunks printed from it are in order and
apart and cover just the lines that it deletes and inserts. -/
theorem diff_exact (a b : List α) : applyEdits (lcsDiff a b) a b = some b ∧
    IsGreatest {n | ∃ s : List α, s.Sublist a ∧ s.Sublist b ∧ s.length = n}
      ((lcsDiff a b).count .keep) ∧
    ((∀ e ∈ lcsDiff a b, e = .keep) ↔ a = b) ∧
    (let cs := chunks (lcsDiff a b) 0 0
     cs.Pairwise (fun c d => c.aEnd < d.aStart ∧ c.bEnd < d.bStart) ∧
     cs.flatMap (fun c => List.range' c.aStart (c.aEnd - c.aStart))
       = changed .delete (lcsDiff a b) 0 ∧
     cs.flatMap (fun c => List.range' c.bStart (c.bEnd - c.bStart))
       = changed .insert (lcsDiff a b) 0 ∧
     ∀ c ∈ cs, c.aStart ≤ c.aEnd ∧ c.aEnd ≤ a.length ∧
       c.bStart ≤ c.bEnd ∧ c.bEnd ≤ b.length) := by
  obtain ⟨hscript, hcount⟩ := lcsDiff_spec a b
  obtain ⟨ha, hb⟩ := hscript.lengths
  have hbest {s : List α} (hsa : s.Sublist a) (hsb : s.Sublist b) :
      s.length ≤ (lcsDiff a b).count .keep := by
    rw [hcount, ← List.length_reverse]
    exact length_le_lcs (List.reverse_sublist.mpr hsa)
      (List.reverse_sublist.mpr hsb)
  refine ⟨hscript.applies, ⟨hscript.kept, fun n hn => ?_⟩, ⟨fun hall => ?_,
    fun heq => ?_⟩, ?_⟩
  · obtain ⟨s, hsa, hsb, rfl⟩ := hn
    exact hbest hsa hsb
  · obtain ⟨s, hsa, hsb, hlen⟩ := hscript.kept
    have hdelete : (lcsDiff a b).count .delete = 0 :=
      List.count_eq_zero.mpr fun he => by cases hall _ he
    have hinsert : (lcsDiff a b).count .insert = 0 :=
      List.count_eq_zero.mpr fun he => by cases hall _ he
    rw [← hsa.eq_of_length (by omega), ← hsb.eq_of_length (by omega)]
  · have hself := hbest (List.Sublist.refl a) (heq ▸ List.Sublist.refl a)
    have hedits := count_edits (lcsDiff a b)
    have hall : (lcsDiff a b).count .keep = (lcsDiff a b).length := by
      have := congrArg List.length heq
      omega
    exact fun e he => (List.count_eq_length.mp hall e he).symm
  · have hcover := chunks_cover (lcsDiff a b) 0 0
    refine ⟨hcover.ordered, hcover.deleted, hcover.inserted, fun c hc => ?_⟩
    have := hcover.inside c hc
    omega

end LinuxRs.Diff
