/-
Character boundaries in the lines of vi.

# Leading bytes

UTF-8 never has a continuation byte first, nor behind a byte of ASCII.
`Leads` says this of a text, and no more of UTF-8 is needed: every edit
puts together parts that start at a boundary, so it keeps `Leads`.
-/
import LinuxRs.Vi.Edit

namespace LinuxRs.Vi

-- ======== the bytes

def isAscii (b : Byte) : Bool := b < 0x80#8

theorem isAscii_of_continuation {b : Byte} (h : isContinuation b = true) :
    isAscii b = false := by
  unfold isContinuation at h
  unfold isAscii
  simp only [Bool.and_eq_true, decide_eq_true_eq] at h
  simp only [decide_eq_false_iff_not]
  bv_omega

theorem continuation_of_isAscii {b : Byte} (h : isAscii b = true) :
    isContinuation b = false := by
  cases hb : isContinuation b with
  | false => rfl
  | true =>
    rw [isAscii_of_continuation hb] at h
    cases h

/-- Every continuation byte has a byte before it, and not one of ASCII. -/
def Leads (s : Text) : Prop :=
  ∀ i b, s[i]? = some b → isContinuation b = true →
    0 < i ∧ ∃ a, s[i - 1]? = some a ∧ isAscii a = false

-- ======== boundaries

section Boundaries

variable {s t : Text} {i j : Nat}

theorem boundary_iff : boundary s i = true ↔
    i = 0 ∨ i = s.length ∨ ∃ b, s[i]? = some b ∧ isContinuation b = false := by
  unfold boundary
  cases hb : s[i]? with
  | none =>
    have := List.getElem?_eq_none_iff.mp hb
    simp
  | some b =>
    have hlt := (List.getElem?_eq_some_iff.mp hb).1
    have hne : i ≠ s.length := by omega
    simp [hne]

theorem boundary_zero (s : Text) : boundary s 0 = true :=
  Iff.mpr boundary_iff (.inl rfl)

theorem boundary_length (s : Text) : boundary s s.length = true :=
  Iff.mpr boundary_iff (.inr (.inl rfl))

theorem boundary_le (h : boundary s i = true) : i ≤ s.length := by
  rcases Iff.mp boundary_iff h with rfl | rfl | ⟨b, hb, -⟩
  · exact Nat.zero_le _
  · exact Nat.le_refl _
  · have := (List.getElem?_eq_some_iff.mp hb).1
    omega

theorem boundary_byte {b : Byte} (hs : Leads s) (h : boundary s i = true)
    (hb : s[i]? = some b) : isContinuation b = false := by
  rcases Iff.mp boundary_iff h with rfl | rfl | ⟨b', hb', hcont⟩
  · cases hc : isContinuation b with
    | false => rfl
    | true => exact absurd (hs 0 b hb hc).1 (by omega)
  · have := (List.getElem?_eq_some_iff.mp hb).1
    omega
  · rw [hb] at hb'
    cases hb'
    exact hcont

theorem boundary_of_byte {b : Byte} (hb : s[i]? = some b)
    (hcont : isContinuation b = false) : boundary s i = true :=
  Iff.mpr boundary_iff (.inr (.inr ⟨b, hb, hcont⟩))

theorem boundary_of_ascii {b : Byte} (hb : s[i]? = some b)
    (hascii : isAscii b = true) : boundary s i = true :=
  boundary_of_byte hb (continuation_of_isAscii hascii)

theorem boundary_succ {b : Byte} (hs : Leads s) (hb : s[i]? = some b)
    (hascii : isAscii b = true) : boundary s (i + 1) = true := by
  have hlt := (List.getElem?_eq_some_iff.mp hb).1
  cases hnext : s[i + 1]? with
  | none =>
    have := List.getElem?_eq_none_iff.mp hnext
    refine Iff.mpr boundary_iff (.inr (.inl ?_))
    omega
  | some c =>
    apply boundary_of_byte hnext
    cases hc : isContinuation c with
    | false => rfl
    | true =>
      obtain ⟨-, a, ha, hnot⟩ := hs (i + 1) c hnext hc
      rw [Nat.add_sub_cancel, hb] at ha
      cases ha
      rw [hascii] at hnot
      cases hnot

theorem boundary_take (h : boundary s i = true) (hi : i ≤ j) :
    boundary (s.take j) i = true := by
  rcases Iff.mp boundary_iff h with rfl | rfl | ⟨b, hb, hcont⟩
  · exact boundary_zero _
  · rw [List.take_of_length_le hi]
    exact boundary_length s
  · by_cases hij : i = j
    · subst hij
      have hlt := (List.getElem?_eq_some_iff.mp hb).1
      refine Iff.mpr boundary_iff (.inr (.inl ?_))
      rw [List.length_take]
      omega
    · apply boundary_of_byte (b := b) ?_ hcont
      rw [List.getElem?_take_of_lt (by omega)]
      exact hb

theorem boundary_of_take (h : boundary (s.take j) i = true)
    (hj : boundary s j = true) : boundary s i = true := by
  have hle := boundary_le hj
  rcases Iff.mp boundary_iff h with rfl | hi | ⟨b, hb, hcont⟩
  · exact boundary_zero s
  · rw [List.length_take] at hi
    have : i = j := by omega
    rw [this]
    exact hj
  · have hlt := (List.getElem?_eq_some_iff.mp hb).1
    rw [List.length_take] at hlt
    rw [List.getElem?_take_of_lt (by omega)] at hb
    exact boundary_of_byte hb hcont

end Boundaries

-- ======== texts that lead

section Leads

variable {s t : Text} {i : Nat}

theorem Leads.nil : Leads [] := by
  intro i b hb
  cases hb

theorem Leads.of_all (h : ∀ b ∈ s, isContinuation b = false) : Leads s := by
  intro i b hb hcont
  rw [h b (List.mem_of_getElem? hb)] at hcont
  cases hcont

theorem Leads.take (h : Leads s) (n : Nat) : Leads (s.take n) := by
  intro i b hb hcont
  have hlt := (List.getElem?_eq_some_iff.mp hb).1
  rw [List.length_take] at hlt
  rw [List.getElem?_take_of_lt (by omega)] at hb
  obtain ⟨hpos, a, ha, hascii⟩ := h i b hb hcont
  refine ⟨hpos, a, ?_, hascii⟩
  rw [List.getElem?_take_of_lt (by omega)]
  exact ha

theorem Leads.drop (h : Leads s) {n : Nat} (hn : boundary s n = true) :
    Leads (s.drop n) := by
  intro i b hb hcont
  rw [List.getElem?_drop] at hb
  obtain ⟨hpos, a, ha, hascii⟩ := h (n + i) b hb hcont
  have hi : 0 < i := by
    refine Nat.pos_of_ne_zero fun h0 => ?_
    rw [h0] at hb
    rw [boundary_byte h hn hb] at hcont
    cases hcont
  refine ⟨hi, a, ?_, hascii⟩
  rw [List.getElem?_drop, ← Nat.add_sub_assoc hi]
  exact ha

theorem Leads.append (hs : Leads s) (ht : Leads t) : Leads (s ++ t) := by
  intro i b hb hcont
  by_cases hi : i < s.length
  · rw [List.getElem?_append_left hi] at hb
    obtain ⟨hpos, a, ha, hascii⟩ := hs i b hb hcont
    refine ⟨hpos, a, ?_, hascii⟩
    rw [List.getElem?_append_left (by omega)]
    exact ha
  · rw [List.getElem?_append_right (by omega)] at hb
    obtain ⟨hpos, a, ha, hascii⟩ := ht _ b hb hcont
    refine ⟨by omega, a, ?_, hascii⟩
    rw [List.getElem?_append_right (by omega),
      show i - 1 - s.length = i - s.length - 1 by omega]
    exact ha

theorem Leads.of_append_left (h : Leads (s ++ t)) : Leads s := by
  have := h.take s.length
  rwa [List.take_left] at this

theorem boundary_append_left (h : boundary s i = true) (ht : Leads t) :
    boundary (s ++ t) i = true := by
  rcases Iff.mp boundary_iff h with rfl | rfl | ⟨b, hb, hcont⟩
  · exact boundary_zero _
  · cases t with
    | nil =>
      rw [List.append_nil]
      exact boundary_length s
    | cons c rest =>
      apply boundary_of_byte (b := c)
      · rw [List.getElem?_append_right (Nat.le_refl _), Nat.sub_self]
        rfl
      · exact boundary_byte ht (boundary_zero _) rfl
  · apply boundary_of_byte (b := b) ?_ hcont
    rw [List.getElem?_append_left (List.getElem?_eq_some_iff.mp hb).1]
    exact hb

theorem boundary_append_right (ht : Leads t) (h : boundary t i = true) :
    boundary (s ++ t) (s.length + i) = true := by
  rcases Iff.mp boundary_iff h with rfl | rfl | ⟨b, hb, hcont⟩
  · exact boundary_append_left (boundary_length s) ht
  · rw [← List.length_append]
    exact boundary_length _
  · apply boundary_of_byte (b := b) ?_ hcont
    rw [List.getElem?_append_right (by omega), Nat.add_sub_cancel_left]
    exact hb

end Leads

-- ======== operations

section Operations

variable {s t : Text} {i j : Nat}

theorem boundary_firstChar (s : Text) :
    boundary s (firstChar s).length = true := by
  cases s with
  | nil => exact boundary_zero _
  | cons b rest =>
    show boundary (b :: rest) ((rest.takeWhile isContinuation).length + 1)
      = true
    have hsplit : rest.takeWhile isContinuation
        ++ rest.dropWhile isContinuation = rest :=
      List.takeWhile_append_dropWhile
    cases hdrop : rest.dropWhile isContinuation with
    | nil =>
      rw [hdrop, List.append_nil] at hsplit
      rw [hsplit]
      exact boundary_length (b :: rest)
    | cons c tail =>
      apply boundary_of_byte (b := c)
      · have hget : (rest.takeWhile isContinuation
            ++ rest.dropWhile isContinuation)[
              (rest.takeWhile isContinuation).length]? = some c := by
          rw [List.getElem?_append_right (Nat.le_refl _), Nat.sub_self, hdrop]
          rfl
        rw [hsplit] at hget
        exact hget
      · have hne : rest.dropWhile isContinuation ≠ [] := by
          rw [hdrop]
          exact List.cons_ne_nil c tail
        have hhead := List.head_dropWhile_not isContinuation hne
        simpa only [hdrop, List.head_cons] using hhead

theorem boundary_of_drop (hs : Leads s) (hi : boundary s i = true)
    (hj : boundary (s.drop i) j = true) : boundary s (i + j) = true := by
  have hle := boundary_le hi
  have := boundary_append_right (s := s.take i) (hs.drop hi) hj
  rw [List.take_append_drop, List.length_take, Nat.min_eq_left hle] at this
  exact this

theorem insertText_eq (hi : boundary s i = true) :
    insertText s i t = some (s.take i ++ t ++ s.drop i) := if_pos hi

theorem splitOff_eq (hi : boundary s i = true) :
    splitOff s i = some (s.take i, s.drop i) := if_pos hi

theorem removeChar_eq (hi : boundary s i = true) (hlt : i < s.length) :
    removeChar s i = some (firstChar (s.drop i),
      s.take i ++ s.drop (i + (firstChar (s.drop i)).length)) :=
  if_pos ⟨hi, hlt⟩

theorem drain_eq (hij : i ≤ j) (hi : boundary s i = true)
    (hj : boundary s j = true) :
    drain s i j = some ((s.take j).drop i, s.take i ++ s.drop j) :=
  if_pos ⟨hij, hi, hj⟩

theorem Leads.cut (hs : Leads s) (hj : boundary s j = true) :
    Leads (s.take i ++ s.drop j) := (hs.take i).append (hs.drop hj)

theorem Leads.insert (hs : Leads s) (ht : Leads t)
    (hi : boundary s i = true) : Leads (s.take i ++ t ++ s.drop i) :=
  ((hs.take i).append ht).append (hs.drop hi)

theorem boundary_charEnd (hs : Leads s) (hi : boundary s i = true) :
    boundary s (i + (firstChar (s.drop i)).length) = true :=
  boundary_of_drop hs hi (boundary_firstChar _)

theorem boundary_cut (hs : Leads s) (hi : boundary s i = true)
    (hj : boundary s j = true) : boundary (s.take i ++ s.drop j) i = true :=
  boundary_append_left (boundary_take hi (Nat.le_refl i)) (hs.drop hj)

end Operations

end LinuxRs.Vi
