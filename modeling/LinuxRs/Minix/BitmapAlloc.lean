/-
What the allocation of identifiers does to a bitmap
(kernel/src/fs/bitmap.rs), for any content of its blocks.

# The bits in a row

Blocks, words and bits in a word number the bits in one row (`Bitmap.bit`).
A change of a word changes this row in that word only
(`bit_modifyWord`), so the search of `alloc` and the population counts of
`count_free` can be compared with the row itself: the least clear bit, and
how many there are.

# Identifiers

They are `u32`, and `base_id + bit` and `id - base_id` wrap around, as in a
release build; the two undo each other for every `base_id`.
-/
import LinuxRs.Minix.VolumeBounds
import Mathlib.Data.Nat.Count

namespace LinuxRs.Minix.Volume.Bitmap

open LinuxRs.Lib

-- ======== identifiers

/-- `Bitmap::new` with the slots of any type `Bitmap<N>`; the capacity of the
buffers is a `usize`. -/
def create (slots : Nat) (baseId : BitVec 32) (buffers : List (Nat × Block))
    (bitCount : BitVec 32) : Except Fault Bitmap :=
  if slots < buffers.length then .error .panicked
  else if buffers.length * bitsPerBlock % 2 ^ 32 < bitCount.toNat then
    .error .panicked
  else match buffers with
    | [] => .error .panicked
    | (number, b) :: rest => .ok {
        buffers := (number, putWord b 0 (wordAt b 0 ||| 1#64)) :: rest
        baseId := baseId.toNat
        bitCount := bitCount.toNat }

/-- `Bitmap::alloc`, with the identifier as it is returned. -/
def allocId (m : Bitmap) : Except Fault (Option (Bitmap × BitVec 32)) :=
  m.alloc.map (·.map fun r => (r.1, BitVec.ofNat 32 r.2))

def deallocId (m : Bitmap) (id : BitVec 32) : Except Fault Bitmap :=
  let bit := (id - BitVec.ofNat 32 m.baseId).toNat
  if m.bitCount ≤ bit then .error .panicked
  else
    m.modifyWord (bit / bitsPerWord) (· &&& ~~~(1#64 <<< (bit % bitsPerWord)))

inductive Call
  | alloc
  | dealloc (id : BitVec 32)

def next (m : Bitmap) : Call → Option Bitmap
  | .alloc =>
    match m.allocId with
    | .ok (some (m', _)) => some m'
    | .ok none => some m
    | .error _ => none
  | .dealloc id => (m.deallocId id).toOption

-- ======== the bits in a row

/-- Blocks for all the bits, as `new` asserts; the bits are counted by a
`usize`. -/
structure Fits (m : Bitmap) : Prop where
  blocks : m.bitCount ≤ m.buffers.length * bitsPerBlock
  usize : m.bitCount < 2 ^ 32

def bit (m : Bitmap) (i : Nat) : Bool :=
  match m.readWord (i / bitsPerWord) with
  | .ok word => word.getLsbD (i % bitsPerWord)
  | .error _ => false

variable {m m' : Bitmap} {i j : Nat}

theorem Fits.word (h : m.Fits) (hi : i < m.bitCount) :
    ∃ word, m.readWord (i / bitsPerWord) = .ok word := by
  have hblocks := h.blocks
  have hlt : i / bitsPerWord / wordsPerBlock < m.buffers.length := by
    unfold bitsPerBlock at hblocks
    unfold bitsPerWord wordsPerBlock
    omega
  unfold readWord
  rw [List.getElem?_eq_getElem hlt]
  exact ⟨_, rfl⟩

theorem bit_word {word : BitVec 64} {k : Nat} (h : m.readWord i = .ok word)
    (hk : k < 64) : m.bit (i * bitsPerWord + k) = word.getLsbD k := by
  unfold bit bitsPerWord
  rw [show (i * 64 + k) / 64 = i by omega, show (i * 64 + k) % 64 = k by omega,
    h]

theorem bit_below {word : BitVec 64} {n : Nat} (hread : m.readWord i = .ok word)
    (hbefore : ∀ j, j < i * 64 → m.bit j = true) (hn : n ≤ 64)
    (hset : ∀ k, k < n → word.getLsbD k = true) :
    ∀ j, j < i * 64 + n → m.bit j = true := by
  intro j hj
  by_cases hlow : j < i * 64
  · exact hbefore j hlow
  · have hone := bit_word hread (show j - i * 64 < 64 by omega)
    unfold bitsPerWord at hone
    rw [show i * 64 + (j - i * 64) = j by omega] at hone
    rw [hone]
    exact hset _ (by omega)

/-- A word is changed and every other stays. -/
theorem modifyWord_ok {word : BitVec 64} (h : m.readWord i = .ok word)
    (f : BitVec 64 → BitVec 64) :
    ∃ m', m.modifyWord i f = .ok m' ∧ m'.baseId = m.baseId ∧
      m'.bitCount = m.bitCount ∧ m'.buffers.length = m.buffers.length ∧
      ∀ j, m'.readWord j = if j = i then .ok (f word) else m.readWord j := by
  unfold readWord at h
  unfold modifyWord
  cases hslot : m.buffers[i / wordsPerBlock]? with
  | none =>
    rw [hslot] at h
    cases h
  | some slot =>
    rw [hslot] at h
    cases h
    refine ⟨_, rfl, rfl, rfl, List.length_set, fun j => ?_⟩
    have hlt := (List.getElem?_eq_some_iff.mp hslot).1
    unfold readWord
    by_cases hblock : i / wordsPerBlock = j / wordsPerBlock
    · rw [← hblock, List.getElem?_set_self hlt, hslot]
      dsimp only
      rw [wordAt_putWord]
      by_cases hword : j = i
      · rw [if_pos hword, hword, if_pos rfl]
      · rw [if_neg hword, if_neg fun hmod => hword (by
          unfold wordsPerBlock at hblock hmod
          omega)]
    · rw [List.getElem?_set_ne hblock, if_neg fun hji => hblock (by rw [hji])]

theorem bit_modifyWord {f : BitVec 64 → BitVec 64} {word : BitVec 64}
    (h : m.readWord i = .ok word) (hrun : m.modifyWord i f = .ok m') :
    m'.bit j = if j / bitsPerWord = i then (f word).getLsbD (j % bitsPerWord)
      else m.bit j := by
  obtain ⟨m'', hrun', -, -, -, hread⟩ := modifyWord_ok h f
  obtain rfl := Except.ok.inj (hrun.symm.trans hrun')
  unfold bit
  rw [hread]
  by_cases hj : j / bitsPerWord = i
  · rw [if_pos hj, if_pos hj]
  · rw [if_neg hj, if_neg hj]

theorem Fits.modifyWord {f : BitVec 64 → BitVec 64} (h : m.Fits)
    (hi : i < m.bitCount)
    (hrun : m.modifyWord (i / bitsPerWord) f = .ok m') : m'.Fits := by
  obtain ⟨word, hread⟩ := h.word hi
  obtain ⟨m'', hrun', -, hcount, hlen, -⟩ := modifyWord_ok hread f
  obtain rfl := Except.ok.inj (hrun.symm.trans hrun')
  refine ⟨?_, ?_⟩
  · rw [hcount, hlen]
    exact h.blocks
  · rw [hcount]
    exact h.usize

theorem create_fits {slots : Nat} {baseId bitCount : BitVec 32}
    {blocks : List (Nat × Block)}
    (h : create slots baseId blocks bitCount = .ok m) : m.Fits := by
  unfold create at h
  split at h
  next => cases h
  next =>
    split at h
    next => cases h
    next hcount =>
      split at h
      next => cases h
      next =>
        cases h
        refine ⟨?_, bitCount.isLt⟩
        dsimp only
        rw [List.length_cons] at hcount ⊢
        have := Nat.mod_le ((List.length ‹_› + 1) * bitsPerBlock) (2 ^ 32)
        omega

-- ======== setting and clearing one bit

theorem getLsbD_mask {k b : Nat} (hb : b < 64) :
    (1#64 <<< k).getLsbD b = decide (b = k) := by
  rw [BitVec.getLsbD_shiftLeft, BitVec.getLsbD_one]
  rcases Nat.lt_trichotomy b k with hlt | rfl | hgt
  · simp [hlt, Nat.ne_of_lt hlt]
  · simp [hb]
  · simp [Nat.ne_of_gt hgt, show b - k ≠ 0 by omega]

theorem getLsbD_wordAt (b : Block) (k : Nat) {q n : Nat} (hq : q < 8)
    (hn : n < 8) :
    (wordAt b k).getLsbD (8 * q + n) = (b (8 * k + q)).getLsbD n := by
  unfold wordAt
  simp only [BitVec.getLsbD_append]
  split_ifs
  · rw [show q = 0 by omega, Nat.add_zero, Nat.mul_zero, Nat.zero_add]
  · rw [show q = 1 by omega, show 8 * 1 + n - 8 = n by omega]
  · rw [show q = 2 by omega, show 8 * 2 + n - 8 - 8 = n by omega]
  · rw [show q = 3 by omega, show 8 * 3 + n - 8 - 8 - 8 = n by omega]
  · rw [show q = 4 by omega, show 8 * 4 + n - 8 - 8 - 8 - 8 = n by omega]
  · rw [show q = 5 by omega, show 8 * 5 + n - 8 - 8 - 8 - 8 - 8 = n by omega]
  · rw [show q = 6 by omega,
      show 8 * 6 + n - 8 - 8 - 8 - 8 - 8 - 8 = n by omega]
  · rw [show q = 7 by omega,
      show 8 * 7 + n - 8 - 8 - 8 - 8 - 8 - 8 - 8 = n by omega]

theorem putWord_wordAt (b : Block) (w : BitVec 64) (k : Nat) :
    putWord (putWord b k w) k (wordAt b k) = b := by
  funext j
  unfold putWord
  by_cases hj : j / 8 = k
  · rw [if_pos hj]
    apply BitVec.eq_of_getLsbD_eq
    intro n hn
    rw [BitVec.getLsbD_extractLsb', decide_eq_true hn, Bool.true_and,
      getLsbD_wordAt b k (Nat.mod_lt _ (by decide)) hn,
      show 8 * k + j % 8 = j by omega]
  · rw [if_neg hj, if_neg hj]

theorem modifyWord_undo {f g : BitVec 64 → BitVec 64} {word : BitVec 64}
    (h : m.readWord i = .ok word) (hrun : m.modifyWord i f = .ok m')
    (hundo : g (f word) = word) : m'.modifyWord i g = .ok m := by
  unfold readWord at h
  unfold modifyWord at hrun ⊢
  cases hslot : m.buffers[i / wordsPerBlock]? with
  | none =>
    rw [hslot] at h
    cases h
  | some slot =>
    rw [hslot] at h hrun
    cases h
    cases hrun
    obtain ⟨hlt, hget⟩ := List.getElem?_eq_some_iff.mp hslot
    rw [List.getElem?_set_self hlt]
    dsimp only
    rw [wordAt_putWord, if_pos rfl, hundo, putWord_wordAt, List.set_set,
      ← hget, List.set_getElem_self]

theorem bit_set {word : BitVec 64} {k : Nat} (h : m.readWord i = .ok word)
    (hk : k < 64) (hrun : m.modifyWord i (· ||| 1#64 <<< k) = .ok m') :
    m'.bit j = (decide (j = i * bitsPerWord + k) || m.bit j) := by
  rw [bit_modifyWord h hrun]
  unfold bitsPerWord
  by_cases hj : j / 64 = i
  · have hbit : m.bit j = word.getLsbD (j % 64) := by
      rw [← bit_word h (Nat.mod_lt _ (by decide))]
      unfold bitsPerWord
      rw [show i * 64 + j % 64 = j by omega]
    rw [if_pos hj, BitVec.getLsbD_or, getLsbD_mask (Nat.mod_lt _ (by decide)),
      hbit, Bool.or_comm]
    congr 1
    apply decide_eq_decide.mpr
    omega
  · rw [if_neg hj, decide_eq_false (by omega), Bool.false_or]

theorem clear_set {word : BitVec 64} {k : Nat} (h : word.getLsbD k = false) :
    (word ||| 1#64 <<< k) &&& ~~~(1#64 <<< k) = word := by
  apply BitVec.eq_of_getLsbD_eq
  intro n hn
  rw [BitVec.getLsbD_and, BitVec.getLsbD_or, BitVec.getLsbD_not,
    getLsbD_mask hn, decide_eq_true hn]
  by_cases hnk : n = k
  · subst hnk
    simp [h]
  · simp [hnk]

-- ======== the search

/-- Bit `i` is clear, and no bit before it. -/
structure Least (m : Bitmap) (i : Nat) : Prop where
  lt : i < m.bitCount
  clear : m.bit i = false
  before : ∀ j, j < i → m.bit j = true

theorem Least.not_set (h : m.Least i) : ¬m.bit i = true := by
  rw [h.clear]
  decide

/-- The scan from a word on finds the least free bit there, or that there is
none. By induction on the words. -/
theorem allocFrom_spec (h : m.Fits) (words wordIndex : Nat)
    (hend : m.bitCount ≤ (wordIndex + words) * bitsPerWord)
    (hstart : words ≠ 0 → (wordIndex + words - 1) * bitsPerWord < m.bitCount)
    (hbefore : ∀ j, j < wordIndex * bitsPerWord → m.bit j = true) :
    (∃ i m', m.Least i ∧
      m.allocFrom words wordIndex = .ok (some (m', m.baseId + i)) ∧
      m.modifyWord (i / bitsPerWord) (· ||| 1#64 <<< (i % bitsPerWord))
        = .ok m')
    ∨ (m.allocFrom words wordIndex = .ok none ∧
      ∀ j, j < m.bitCount → m.bit j = true) := by
  induction words generalizing wordIndex with
  | zero =>
    rw [Nat.add_zero] at hend
    exact .inr ⟨rfl, fun j hj => hbefore j (by omega)⟩
  | succ words ih =>
    have hlast := hstart (by omega)
    unfold bitsPerWord at hend hlast hbefore
    obtain ⟨word, hread⟩ := h.word (i := wordIndex * 64) (by omega)
    rw [show wordIndex * 64 / bitsPerWord = wordIndex by
      unfold bitsPerWord; omega] at hread
    unfold allocFrom
    rw [hread]
    dsimp only
    split
    next hfull =>
      apply ih
      · unfold bitsPerWord
        omega
      · unfold bitsPerWord
        omega
      · intro j hj
        unfold bitsPerWord at hj
        refine bit_below hread hbefore (Nat.le_refl 64) (fun k hk => ?_) j
          (by omega)
        have hnot := congrArg (·.getLsbD k) hfull
        rw [BitVec.getLsbD_not, BitVec.getLsbD_zero, decide_eq_true hk] at hnot
        simpa using hnot
    next hfree =>
      have hctz : (~~~word).ctz.toNat < 64 :=
        BitVec.lt_def.mp (BitVec.ctz_lt_iff_ne_zero.mpr hfree)
      have hclear := BitVec.getLsbD_true_ctz_of_ne_zero hfree
      have hset (k : Nat) (hk : k < (~~~word).ctz.toNat) :
          word.getLsbD k = true := by
        have hnot := BitVec.getLsbD_false_of_lt_ctz hk
        rw [BitVec.getLsbD_not, decide_eq_true (by omega)] at hnot
        simpa using hnot
      generalize (~~~word).ctz.toNat = k at hctz hclear hset ⊢
      have hlow := bit_below hread hbefore (Nat.le_of_lt hctz) hset
      unfold bitsPerWord
      split
      next hpast => exact .inr ⟨rfl, fun j hj => hlow j (by omega)⟩
      next hbits =>
        obtain ⟨m', hmodify, -⟩ := modifyWord_ok hread (· ||| 1#64 <<< k)
        refine .inl ⟨wordIndex * 64 + k, m', ⟨by omega, ?_, hlow⟩, ?_, ?_⟩
        · rw [show m.bit (wordIndex * 64 + k) = _ from bit_word hread hctz]
          rw [BitVec.getLsbD_not, decide_eq_true hctz] at hclear
          simpa using hclear
        · rw [hmodify]
          rfl
        · rw [show (wordIndex * 64 + k) / 64 = wordIndex by omega,
            show (wordIndex * 64 + k) % 64 = k by omega]
          exact hmodify

theorem alloc_spec (h : m.Fits) :
    (∃ i m', m.Least i ∧ m.alloc = .ok (some (m', m.baseId + i)) ∧
      m.modifyWord (i / bitsPerWord) (· ||| 1#64 <<< (i % bitsPerWord))
        = .ok m')
    ∨ (m.alloc = .ok none ∧ ∀ j, j < m.bitCount → m.bit j = true) := by
  apply allocFrom_spec h
  · unfold bitsPerWord
    omega
  · unfold bitsPerWord
    omega
  · intro j hj
    omega

-- ======== the count

def free (m : Bitmap) : Nat := Nat.count (fun i => m.bit i = false) m.bitCount

theorem count_congr {p q : Nat → Prop} [DecidablePred p] [DecidablePred q]
    {n : Nat} (h : ∀ k, k < n → (p k ↔ q k)) : Nat.count p n = Nat.count q n :=
  Nat.le_antisymm (Nat.count_mono_left fun k hk => (h k hk).mp)
    (Nat.count_mono_left fun k hk => (h k hk).mpr)

theorem cpopNatRec_count {w : Nat} (x : BitVec w) (n : Nat) :
    x.cpopNatRec n 0 = Nat.count (fun k => x.getLsbD k = true) n := by
  induction n with
  | zero => simp
  | succ n ih =>
    rw [BitVec.cpopNatRec_succ, BitVec.cpopNatRec_eq, ih, Nat.count_succ]
    cases x.getLsbD n <;> rfl

/-- Word by word the set bits are counted. -/
theorem usedFrom_count (h : m.Fits) (words wordIndex : Nat)
    (hend : (wordIndex + words) * bitsPerWord ≤ m.bitCount) :
    m.usedFrom words wordIndex
      = .ok (Nat.count (fun k => m.bit (wordIndex * bitsPerWord + k) = true)
        (words * bitsPerWord)) := by
  induction words generalizing wordIndex with
  | zero => simp [usedFrom]
  | succ words ih =>
    unfold bitsPerWord at hend
    obtain ⟨word, hread⟩ := h.word (i := wordIndex * 64) (by omega)
    rw [show wordIndex * 64 / bitsPerWord = wordIndex by
      unfold bitsPerWord; omega] at hread
    have hword : word.cpop.toNat
        = Nat.count (fun k => m.bit (wordIndex * bitsPerWord + k) = true)
          64 := by
      rw [BitVec.toNat_cpop, cpopNatRec_count]
      apply count_congr
      intro k hk
      rw [bit_word hread hk]
    unfold usedFrom
    rw [hread]
    dsimp only
    rw [ih (wordIndex + 1) (by unfold bitsPerWord; omega), hword]
    unfold bitsPerWord
    rw [show (words + 1) * 64 = 64 + words * 64 by omega, Nat.count_add]
    simp only [Except.map, Nat.add_mul, Nat.one_mul, Nat.add_assoc]

/-- In the last word only the bits of the bitmap count. -/
theorem usedInTail_count (h : m.Fits) {full rest : Nat} (hrest : rest < 64)
    (hend : full * bitsPerWord + rest = m.bitCount) : m.usedInTail full rest
      = .ok (Nat.count (fun k => m.bit (full * bitsPerWord + k) = true)
        rest) := by
  unfold usedInTail
  split
  next hpos =>
    unfold bitsPerWord at hend
    obtain ⟨word, hread⟩ := h.word (i := full * 64) (by omega)
    rw [show full * 64 / bitsPerWord = full by
      unfold bitsPerWord; omega] at hread
    rw [hread]
    show Except.ok (word &&& (1#64 <<< rest - 1#64)).cpop.toNat = _
    rw [and_mask_eq word hrest,
      BitVec.toNat_cpop_setWidth_eq_of_le (Nat.le_of_lt hrest),
      BitVec.toNat_cpop, cpopNatRec_count]
    congr 1
    apply count_congr
    intro k hk
    rw [bit_word hread (by omega), BitVec.getLsbD_setWidth, decide_eq_true hk,
      Bool.true_and]
  next hzero =>
    obtain rfl : rest = 0 := by omega
    rw [Nat.count_zero]

/-- The count by words is the number of clear bits. -/
theorem countFree_spec (h : m.Fits) : m.countFree = .ok m.free := by
  have hsplit : m.bitCount / bitsPerWord * bitsPerWord
      + m.bitCount % bitsPerWord = m.bitCount :=
    Nat.div_add_mod' m.bitCount bitsPerWord
  have hfull := usedFrom_count h (m.bitCount / bitsPerWord) 0 (by
    rw [Nat.zero_add]
    omega)
  have htail := usedInTail_count h
    (show m.bitCount % bitsPerWord < 64 from Nat.mod_lt _ (by decide)) hsplit
  have hused : Nat.count (fun i => m.bit i = true) m.bitCount + m.free
      = m.bitCount := by
    unfold free
    induction m.bitCount with
    | zero => rfl
    | succ n ih =>
      rw [Nat.count_succ, Nat.count_succ]
      cases m.bit n <;> simp <;> omega
  have hsum : Nat.count (fun i => m.bit i = true) m.bitCount
      = Nat.count (fun k => m.bit k = true)
          (m.bitCount / bitsPerWord * bitsPerWord)
        + Nat.count
          (fun k => m.bit (m.bitCount / bitsPerWord * bitsPerWord + k) = true)
          (m.bitCount % bitsPerWord) := by
    rw [← Nat.count_add, hsplit]
  simp only [Nat.zero_mul, Nat.zero_add] at hfull
  unfold countFree
  dsimp only
  rw [hfull, htail]
  dsimp only
  rw [← hsum, if_pos (by omega)]
  congr 1
  omega

theorem free_set {i : Nat} (hcount : m'.bitCount = m.bitCount)
    (hi : m.Least i) (hset : ∀ j, m'.bit j = (decide (j = i) || m.bit j)) :
    m'.free + 1 = m.free := by
  have hsame (j : Nat) (hj : j ≠ i) : m'.bit j = m.bit j := by
    rw [hset, decide_eq_false hj, Bool.false_or]
  have hbit : m'.bit i = true := by
    rw [hset, decide_eq_true rfl, Bool.true_or]
  have hlt := hi.lt
  obtain ⟨rest, hrest⟩ : ∃ rest, m.bitCount = i + 1 + rest :=
    ⟨m.bitCount - (i + 1), by omega⟩
  have hlow : Nat.count (fun j => m'.bit j = false) i
      = Nat.count (fun j => m.bit j = false) i :=
    count_congr fun j hj => by rw [hsame j (by omega)]
  have hhigh : Nat.count (fun k => m'.bit (i + 1 + k) = false) rest
      = Nat.count (fun k => m.bit (i + 1 + k) = false) rest :=
    count_congr fun k _ => by rw [hsame _ (by omega)]
  unfold free
  rw [hcount, hrest, Nat.count_add _ (i + 1), Nat.count_add _ (i + 1),
    Nat.count_succ _ i, Nat.count_succ _ i, if_neg (by simp [hbit]),
    if_pos hi.clear, hlow, hhigh]
  omega

-- ======== the operations

/-- Just so many allocations succeed, and the next one finds nothing. -/
inductive Drains : Bitmap → Nat → Prop
  | full {m : Bitmap} : m.allocId = .ok none → Drains m 0
  | more {m m' : Bitmap} {id : BitVec 32} {n : Nat} :
      m.allocId = .ok (some (m', id)) → Drains m' n → Drains m (n + 1)

/-- Numbers are allocated, counted and freed as the bits say. -/
structure Exact (m : Bitmap) : Prop where
  /-- Nothing is found, and nothing changes, exactly when no bit is clear. -/
  exhausted : m.allocId = .ok none ↔ ∀ i, i < m.bitCount → m.bit i = true
  /-- The least clear bit is found and set, and its identifier gives the
  bitmap back. -/
  found : ∀ i, m.Least i → ∃ m', m.allocId
      = .ok (some (m', BitVec.ofNat 32 m.baseId + BitVec.ofNat 32 i)) ∧
    m'.baseId = m.baseId ∧ m'.bitCount = m.bitCount ∧
    (∀ j, m'.bit j = (decide (j = i) || m.bit j)) ∧
    m'.deallocId (BitVec.ofNat 32 m.baseId + BitVec.ofNat 32 i) = .ok m
  /-- The count is how often an allocation will succeed. -/
  counted : ∃ n, m.countFree = .ok n ∧ Drains m n

/-- What is allocated is the least free number. -/
theorem Least.found (h : m.Fits) {i : Nat} (hi : m.Least i) : ∃ m', m.allocId
      = .ok (some (m', BitVec.ofNat 32 m.baseId + BitVec.ofNat 32 i)) ∧
    m'.baseId = m.baseId ∧ m'.bitCount = m.bitCount ∧
    (∀ j, m'.bit j = (decide (j = i) || m.bit j)) ∧
    m'.deallocId (BitVec.ofNat 32 m.baseId + BitVec.ofNat 32 i) = .ok m := by
  rcases alloc_spec h with ⟨k, m', hk, halloc, hmodify⟩ | ⟨-, hall⟩
  · obtain rfl : k = i := by
      rcases Nat.lt_trichotomy k i with hlt | heq | hgt
      · exact absurd (hi.before k hlt) hk.not_set
      · exact heq
      · exact absurd (hk.before i hgt) hi.not_set
    obtain ⟨word, hread⟩ := h.word hk.lt
    have hmod : k % bitsPerWord < 64 := Nat.mod_lt _ (by decide)
    obtain ⟨m'', hrun, hbase, hcount, -⟩ :=
      modifyWord_ok hread (· ||| 1#64 <<< (k % bitsPerWord))
    obtain rfl := Except.ok.inj (hmodify.symm.trans hrun)
    have hclear : word.getLsbD (k % bitsPerWord) = false := by
      rw [← bit_word hread hmod, Nat.div_add_mod']
      exact hk.clear
    refine ⟨m', ?_, hbase, hcount, fun j => ?_, ?_⟩
    · unfold allocId
      rw [halloc, ← BitVec.ofNat_add]
      rfl
    · rw [bit_set hread hmod hmodify, Nat.div_add_mod']
    · have hid : (BitVec.ofNat 32 m.baseId + BitVec.ofNat 32 k
          - BitVec.ofNat 32 m.baseId).toNat = k := by
        rw [BitVec.add_comm, BitVec.add_sub_cancel, BitVec.toNat_ofNat]
        exact Nat.mod_eq_of_lt (Nat.lt_trans hk.lt h.usize)
      unfold deallocId
      rw [hbase, hid, hcount]
      rw [if_neg (Nat.not_le.mpr hk.lt)]
      exact modifyWord_undo hread hmodify (clear_set hclear)
  · exact absurd (hall i hi.lt) hi.not_set

theorem exhausted_iff (h : m.Fits) :
    m.allocId = .ok none ↔ ∀ i, i < m.bitCount → m.bit i = true := by
  unfold allocId
  rcases alloc_spec h with ⟨k, m', hk, halloc, -⟩ | ⟨halloc, hall⟩
  · rw [halloc]
    refine ⟨fun hnone => ?_, fun hall => ?_⟩
    · cases hnone
    · exact absurd (hall k hk.lt) hk.not_set
  · rw [halloc]
    exact ⟨fun _ => hall, fun _ => rfl⟩

theorem Fits.next (h : m.Fits) {call : Call} (hrun : m.next call = some m') :
    m'.Fits := by
  cases call with
  | alloc =>
    rcases alloc_spec h with ⟨k, m'', hk, halloc, hmodify⟩ | ⟨halloc, -⟩
    · simp only [Bitmap.next, allocId, halloc] at hrun
      cases hrun
      exact h.modifyWord hk.lt hmodify
    · simp only [Bitmap.next, allocId, halloc] at hrun
      cases hrun
      exact h
  | dealloc id =>
    simp only [Bitmap.next, deallocId] at hrun
    split at hrun
    next => cases hrun
    next hlt =>
      cases hmodify : m.modifyWord _ _ with
      | error e =>
        rw [hmodify] at hrun
        cases hrun
      | ok m'' =>
        rw [hmodify] at hrun
        cases hrun
        exact h.modifyWord (Nat.not_le.mp hlt) hmodify

theorem Fits.drains (h : m.Fits) : Drains m m.free := by
  induction hn : m.free generalizing m with
  | zero =>
    refine .full ((exhausted_iff h).mpr fun i hi => ?_)
    have := Nat.count_iff_forall_not.mp hn i hi
    simpa using this
  | succ n ih =>
    rcases alloc_spec h with ⟨i, -, hi, -, -⟩ | ⟨-, hall⟩
    · obtain ⟨m', halloc, -, hcount, hset, -⟩ := hi.found h
      have hfree := free_set hcount hi hset
      have hnext : m.next .alloc = some m' := by
        unfold Bitmap.next
        rw [halloc]
      exact .more halloc (ih (h.next hnext) (by omega))
    · have hzero : m.free = 0 := Nat.count_iff_forall_not.mpr fun i hi => by
        rw [hall i hi]
        decide
      omega

/-- For every content of the blocks that `new` gets, and after every run of
the operations, they do what is said of them. -/
theorem bitmap_exact {slots : Nat} {baseId bitCount : BitVec 32}
    {blocks : List (Nat × Block)} {m₀ m : Bitmap}
    (hnew : create slots baseId blocks bitCount = .ok m₀)
    (hrun : Reachable Bitmap.next m₀ m) : m.Exact := by
  have hfits : m.Fits := Reachable.invariant (create_fits hnew)
    (fun _ _ _ h hstep => Fits.next h hstep) hrun
  exact ⟨exhausted_iff hfits, fun i hi => hi.found hfits,
    ⟨_, countFree_spec hfits, hfits.drains⟩⟩

/-- Three bits from identifier 7 on, of which the second one is clear. -/
theorem bitmap_exact_three :
    ∃ m, create 8 7#32 [(2, fun i => if i = 0 then 4#8 else 0#8)] 3#32 = .ok m ∧
      m.Exact := by
  refine ⟨_, rfl, ?_⟩
  have hnew : create 8 7#32 [(2, fun i => if i = 0 then 4#8 else 0#8)] 3#32
      = .ok _ := rfl
  exact bitmap_exact hnew .refl

end LinuxRs.Minix.Volume.Bitmap
