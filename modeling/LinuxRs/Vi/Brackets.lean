/-
`%` of vi (user_program/src/bin/vi/motion.rs): from a bracket to its partner
and back.

The two loops of `matching_bracket` are one scan, on the text behind the
cursor or on the reversed text before it with the two brackets swapped
(`scanBracket`). A scan from depth 1 stops behind a balanced text
(`scanBracket_iff`), and a balanced text is balanced read backwards, so the
scan from the partner stops at the bracket it was found from.

The depth is an `i32` in the source. It stays below the length of the line,
which no string of the target has above `i32::MAX`.
-/
import LinuxRs.Lib.Balance
import LinuxRs.Vi.Motion

namespace LinuxRs.Vi

open LinuxRs.Lib

variable {opening closing : Byte} {depth k : Nat} {bytes w r : Text}

-- ======== one scan

/-- The scan finds the bracket that closes. -/
theorem scanBracket_closes (hne : opening ≠ closing) (hpos : 0 < depth)
    (h : Closes opening closing depth w) :
    Motion.scanBracket opening closing depth (w ++ closing :: r)
      = some w.length := by
  induction w generalizing depth with
  | nil =>
    have hd := closes_nil.mp h
    subst hd
    rw [List.nil_append, Motion.scanBracket, if_neg (Ne.symm hne), if_pos rfl,
      if_pos rfl]
    rfl
  | cons x w ih =>
    rw [List.cons_append, Motion.scanBracket]
    split
    next hx =>
      have hw := (closes_cons (depth + 1) hpos (by simp [hx, hne])).mp h
      rw [ih (by omega) hw]
      rfl
    next ho =>
      split
      next hx =>
        have hlt := h.open_yet [x] ⟨w, rfl⟩
        simp only [hx, List.count_singleton_self, List.count_singleton,
          beq_iff_eq, hne.symm, if_false] at hlt
        rw [if_neg (by omega)]
        have hw := (closes_cons (depth - 1) hpos (by
          simp [hx, hne.symm]; omega)).mp h
        rw [ih (by omega) hw]
        rfl
      next hc =>
        have hw := (closes_cons depth hpos (by simp [ho, hc])).mp h
        rw [ih hpos hw]
        rfl

/-- What the scan passes over is balanced. -/
theorem scanBracket_stops (hne : opening ≠ closing) (hpos : 0 < depth)
    (h : Motion.scanBracket opening closing depth bytes = some k) :
    ∃ w r, bytes = w ++ closing :: r ∧ w.length = k ∧
      Closes opening closing depth w := by
  -- What the loop has passed goes in front of what it passes later.
  have later {x : Byte} {rest : Text} {depth depth' j : Nat} (hpos : 0 < depth)
      (hstep : depth' + [x].count closing = depth + [x].count opening)
      (hrest : ∃ w r, rest = w ++ closing :: r ∧ w.length = j ∧
        Closes opening closing depth' w) :
      ∃ w r, x :: rest = w ++ closing :: r ∧ w.length = j + 1 ∧
        Closes opening closing depth w := by
    obtain ⟨w, r, rfl, rfl, hw⟩ := hrest
    exact ⟨x :: w, r, rfl, rfl, (closes_cons _ hpos hstep).mpr hw⟩
  induction bytes generalizing depth k with
  | nil => cases h
  | cons x rest ih =>
    rw [Motion.scanBracket] at h
    split at h
    next hx =>
      obtain ⟨j, hj, rfl⟩ := Option.map_eq_some_iff.mp h
      exact later hpos (by simp [hx, hne]) (ih (by omega) hj)
    next ho =>
      split at h
      next hx =>
        split at h
        next hd =>
          cases h
          subst hd
          exact ⟨[], rest, by rw [hx]; rfl, rfl, closes_nil.mpr rfl⟩
        next hd =>
          obtain ⟨j, hj, rfl⟩ := Option.map_eq_some_iff.mp h
          exact later hpos (by simp [hx, hne.symm]; omega)
            (ih (show 0 < depth - 1 by omega) hj)
      next hc =>
        obtain ⟨j, hj, rfl⟩ := Option.map_eq_some_iff.mp h
        exact later hpos (by simp [ho, hc]) (ih hpos hj)

theorem scanBracket_iff (hne : opening ≠ closing) :
    Motion.scanBracket opening closing 1 bytes = some k
      ↔ ∃ w r, bytes = w ++ closing :: r ∧ w.length = k ∧
        WellNested opening closing w := by
  constructor
  · intro h
    obtain ⟨w, r, hbytes, hk, hw⟩ := scanBracket_stops hne Nat.one_pos h
    exact ⟨w, r, hbytes, hk, closes_one.mp hw⟩
  · intro h
    obtain ⟨w, r, rfl, rfl, hw⟩ := h
    exact scanBracket_closes hne Nat.one_pos (closes_one.mpr hw)

-- ======== a bracket and its partner

def Kind (opening closing : Byte) : Prop :=
  (opening, closing) ∈ [(chr '(', chr ')'), (chr '[', chr ']'),
    (chr '\x7b', chr '\x7d')]

theorem Kind.ne (h : Kind opening closing) : opening ≠ closing := by
  unfold Kind at h
  simp only [List.mem_cons, Prod.mk.injEq, List.not_mem_nil, or_false] at h
  rcases h with ⟨rfl, rfl⟩ | ⟨rfl, rfl⟩ | ⟨rfl, rfl⟩ <;> decide

theorem Kind.bracketOf (h : Kind opening closing) :
    Motion.bracketOf opening = some (opening, closing, true) ∧
      Motion.bracketOf closing = some (opening, closing, false) := by
  unfold Kind at h
  simp only [List.mem_cons, Prod.mk.injEq, List.not_mem_nil, or_false] at h
  rcases h with ⟨rfl, rfl⟩ | ⟨rfl, rfl⟩ | ⟨rfl, rfl⟩ <;> decide

theorem kind_of_bracketOf {byte : Byte} {forward : Bool}
    (h : Motion.bracketOf byte = some (opening, closing, forward)) :
    Kind opening closing ∧ byte = if forward then opening else closing := by
  unfold Motion.bracketOf at h
  unfold Kind
  split_ifs at h with h₁ h₂ h₃ h₄ h₅ h₆ <;>
    simp only [Option.some.injEq, Prod.mk.injEq] at h <;>
    obtain ⟨rfl, rfl, rfl⟩ := h <;>
    simp only [*, if_true, Bool.false_eq_true, if_false] <;>
    decide

/-- Two brackets that belong together. -/
structure Partners (line : Text) (first last : Nat) : Prop where
  split : ∃ opening closing before between after,
    line = before ++ opening :: (between ++ closing :: after) ∧
    first = before.length ∧ last = before.length + 1 + between.length ∧
    Kind opening closing ∧ WellNested opening closing between

variable {line : Text} {col col' : Nat}

/-- Two partners are found from each other. -/
theorem Partners.cols {first last : Nat} (h : Partners line first last) :
    Motion.bracketCol line first = some last ∧
      Motion.bracketCol line last = some first := by
  obtain ⟨opening, closing, before, between, after, hline, rfl, rfl, hkind,
    hbal⟩ := h.split
  have hback : line = (before ++ opening :: between) ++ closing :: after := by
    rw [hline, List.append_assoc, List.cons_append]
  have hlen : (before ++ opening :: between).length
      = before.length + 1 + between.length := by
    simp only [List.length_append, List.length_cons]
    omega
  constructor
  · have hget : (line)[before.length]? = some opening := by
      rw [hline, List.getElem?_append_right (Nat.le_refl _), Nat.sub_self]
      rfl
    have hdrop : line.drop (before.length + 1)
        = between ++ closing :: after := by
      rw [hline, ← List.drop_drop, List.drop_left]
      rfl
    simp only [Motion.bracketCol, hget, hkind.bracketOf.1, hdrop,
      Option.bind_eq_bind, Option.bind_some, if_true,
      (scanBracket_iff hkind.ne).mpr ⟨between, after, rfl, rfl, hbal⟩]
    rfl
  · have hget : (line)[before.length + 1 + between.length]? = some closing := by
      rw [hback, ← hlen, List.getElem?_append_right (Nat.le_refl _),
        Nat.sub_self]
      rfl
    have htake : (line.take (before.length + 1 + between.length)).reverse
        = between.reverse ++ opening :: before.reverse := by
      rw [hback, ← hlen, List.take_left]
      simp
    simp only [Motion.bracketCol, hget, hkind.bracketOf.2, htake,
      Option.bind_eq_bind, Option.bind_some, Bool.false_eq_true, if_false,
      (scanBracket_iff hkind.ne.symm).mpr
        ⟨between.reverse, before.reverse, rfl, rfl, hbal.reverse⟩]
    simp only [Option.map_some, List.length_reverse, Option.some.injEq]
    omega

/-- The bracket that is found is the partner. -/
theorem partners_of_bracketCol (h : Motion.bracketCol line col = some col') :
    Partners line (min col col') (max col col') := by
  obtain ⟨byte, hbyte, h⟩ := Option.bind_eq_some_iff.mp h
  obtain ⟨⟨opening, closing, forward⟩, hof, h⟩ := Option.bind_eq_some_iff.mp h
  obtain ⟨hkind, hb⟩ := kind_of_bracketOf hof
  obtain ⟨hlt, hget⟩ := List.getElem?_eq_some_iff.mp hbyte
  have hsplit : line = line.take col ++ byte :: line.drop (col + 1) := by
    rw [← hget, List.getElem_cons_drop, List.take_append_drop]
  have hlen : (line.take col).length = col := by
    rw [List.length_take]
    omega
  cases forward with
  | true =>
    obtain ⟨k, hk, rfl⟩ := Option.map_eq_some_iff.mp h
    obtain ⟨w, r, hdrop, rfl, hw⟩ := (scanBracket_iff hkind.ne).mp hk
    refine ⟨opening, closing, line.take col, w, r, ?_, ?_, ?_, hkind, hw⟩
    · rw [← hdrop, ← show byte = opening from hb]
      exact hsplit
    · omega
    · omega
  | false =>
    obtain ⟨k, hk, rfl⟩ := Option.map_eq_some_iff.mp h
    obtain ⟨w, r, htake, rfl, hw⟩ := (scanBracket_iff hkind.ne.symm).mp hk
    have hbefore : line.take col = r.reverse ++ opening :: w.reverse := by
      rw [← List.reverse_reverse (line.take col), htake]
      simp
    have hcol := congrArg List.length hbefore
    simp only [List.length_append, List.length_cons, List.length_reverse,
      hlen] at hcol
    refine ⟨opening, closing, r.reverse, w.reverse, line.drop (col + 1), ?_,
      ?_, ?_, hkind, hw.reverse⟩
    · rw [← List.cons_append, ← List.append_assoc, ← hbefore,
        ← show byte = closing from hb]
      exact hsplit
    · rw [List.length_reverse]
      omega
    · rw [List.length_reverse, List.length_reverse]
      omega

-- ======== the motion

/-- `%` is an involution: where it moves the cursor, the two columns hold an
opening and a closing bracket of one kind around a balanced text, and `%`
moves back. -/
theorem matchingBracket_involution {b b' : Buffer}
    (h : Motion.matchingBracket b = some b') (hmoved : b'.col ≠ b.col) :
    ∃ line opening closing, b.current = some line ∧
      (line)[min b.col b'.col]? = some opening ∧
      (line)[max b.col b'.col]? = some closing ∧
      Kind opening closing ∧ WellNested opening closing
        ((line.take (max b.col b'.col)).drop (min b.col b'.col + 1)) ∧
      Motion.matchingBracket b' = some b := by
  obtain ⟨line, hline, h⟩ := Option.bind_eq_some_iff.mp h
  cases h
  cases hcol : Motion.bracketCol line b.col with
  | none =>
    rw [hcol] at hmoved
    exact absurd rfl hmoved
  | some col' =>
    have hpart := partners_of_bracketCol hcol
    obtain ⟨opening, closing, before, between, after, hsplit, hfirst, hlast,
      hkind, hbal⟩ := hpart.split
    have hback : Motion.bracketCol line col' = some b.col := by
      rcases Nat.le_total b.col col' with hle | hle
      · rw [Nat.min_eq_left hle, Nat.max_eq_right hle] at hpart
        exact hpart.cols.2
      · rw [Nat.min_eq_right hle, Nat.max_eq_left hle] at hpart
        exact hpart.cols.1
    simp only [Option.getD_some]
    refine ⟨line, opening, closing, hline, ?_, ?_, hkind, ?_, ?_⟩
    · rw [hsplit, hfirst, List.getElem?_append_right (Nat.le_refl _),
        Nat.sub_self]
      rfl
    · rw [hsplit, hlast, List.getElem?_append_right (by omega),
        show before.length + 1 + between.length - before.length
          = between.length + 1 by omega, List.getElem?_cons_succ,
        List.getElem?_append_right (Nat.le_refl _), Nat.sub_self]
      rfl
    · have htake : line.take (max b.col col')
          = (before ++ [opening]) ++ between := by
        rw [hsplit, hlast]
        have : before ++ opening :: (between ++ closing :: after)
            = ((before ++ [opening]) ++ between) ++ closing :: after := by
          simp
        rw [this]
        apply List.take_left'
        simp only [List.length_append, List.length_singleton]
      rw [htake, hfirst, List.drop_left' (by simp)]
      exact hbal
    · unfold Motion.matchingBracket
      have hcur : ({ b with col := col' } : Buffer).current = some line := hline
      rw [hcur, Option.bind_eq_bind, Option.bind_some, hback]
      rfl

/-- In `x(a[(b)c)d` the pair inside counts, and the `[` does not. -/
theorem matchingBracket_involution_nested :
    let b : Buffer := { Buffer.empty with lines := [ascii "x(a[(b)c)d"], col := 1 }
    ∃ b', Motion.matchingBracket b = some b' ∧ b'.col = 8 ∧
      Motion.matchingBracket b' = some b := by
  refine ⟨_, rfl, by decide, ?_⟩
  obtain ⟨line, opening, closing, -, -, -, -, -, h⟩ :=
    matchingBracket_involution (b := { Buffer.empty with
      lines := [ascii "x(a[(b)c)d"], col := 1 }) rfl (by decide)
  exact h

end LinuxRs.Vi
