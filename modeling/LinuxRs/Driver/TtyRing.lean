/-
The byte ring of the terminal queues
(kernel/src/driver/character/tty/ring_buffer.rs).

Indices stay below the capacity, so a ring carries both bounds. `toList`
is its content in reading order; the operations are specified on it and
nothing else of the ring is used later on.
-/
import LinuxRs.Lib.Ring

namespace LinuxRs.Driver

open LinuxRs.Lib

def ringCapacity : Nat := 1024

/-- `MASK`, the number of bytes a ring can hold. -/
def ringMask : Nat := 1023

/-- `RingBuffer`; both indices stay inside the storage. -/
structure RingBuffer where
  buf : Nat → BitVec 8
  head : Nat
  tail : Nat
  head_lt : head < ringCapacity
  tail_lt : tail < ringCapacity

namespace RingBuffer

def new : RingBuffer := ⟨fun _ => 0#8, 0, 0, by decide, by decide⟩

/-- `RingBuffer::len`; `wrapping_sub` and the mask, on indices in range. -/
def len (r : RingBuffer) : Nat := (r.head + ringCapacity - r.tail) % ringCapacity

def remaining (r : RingBuffer) : Nat := ringMask - r.len

def isEmpty (r : RingBuffer) : Bool := r.head = r.tail

def isFull (r : RingBuffer) : Bool := r.remaining = 0

theorem succ_lt (i : Nat) : (i + 1) % ringCapacity < ringCapacity :=
  Nat.mod_lt _ (by decide)

/-- `RingBuffer::push`; a full ring drops the byte. -/
def push (r : RingBuffer) (byte : BitVec 8) : RingBuffer :=
  if r.isFull then r
  else { r with
    buf := Ring.copyIn r.buf r.head [byte]
    head := (r.head + 1) % ringCapacity
    head_lt := succ_lt r.head }

def pop (r : RingBuffer) : Option (BitVec 8 × RingBuffer) :=
  if r.isEmpty then none
  else some (r.buf r.tail, { r with
    tail := (r.tail + 1) % ringCapacity
    tail_lt := succ_lt r.tail })

def lastIndex (r : RingBuffer) : Nat := (r.head + ringMask) % ringCapacity

def last (r : RingBuffer) : Option (BitVec 8) :=
  if r.isEmpty then none else some (r.buf r.lastIndex)

def popLast (r : RingBuffer) : RingBuffer :=
  if r.isEmpty then r
  else { r with
    head := r.lastIndex
    head_lt := Nat.mod_lt _ (by decide) }

def clear (r : RingBuffer) : RingBuffer :=
  { r with tail := r.head, tail_lt := r.head_lt }

-- ======== the content

def toList (r : RingBuffer) : List (BitVec 8) :=
  Ring.content ringCapacity r.buf r.tail r.len

variable {r r' : RingBuffer} {byte : BitVec 8}

theorem len_cases (r : RingBuffer) :
    (r.tail ≤ r.head ∧ r.len = r.head - r.tail) ∨
      (r.head < r.tail ∧ r.len = r.head + 1024 - r.tail) := by
  have hh := r.head_lt
  have ht := r.tail_lt
  unfold len ringCapacity at *
  omega

@[simp] theorem length_toList (r : RingBuffer) : r.toList.length = r.len :=
  Ring.length_content ..

theorem len_le (r : RingBuffer) : r.len ≤ ringMask := by
  have hlt : r.len < ringCapacity := Nat.mod_lt _ (by decide)
  unfold ringCapacity at hlt
  unfold ringMask
  omega

theorem isEmpty_iff : r.isEmpty = true ↔ r.toList = [] := by
  rw [← List.length_eq_zero_iff, length_toList]
  unfold isEmpty
  rw [decide_eq_true_iff]
  have hcases := r.len_cases
  have ht := r.tail_lt
  unfold ringCapacity at ht
  omega

theorem isFull_iff : r.isFull = true ↔ r.toList.length = ringMask := by
  rw [length_toList]
  unfold isFull remaining
  rw [decide_eq_true_iff]
  have hle := r.len_le
  omega

theorem head_eq (r : RingBuffer) :
    (r.tail + r.len) % ringCapacity = r.head := by
  have hcases := r.len_cases
  have hh := r.head_lt
  have ht := r.tail_lt
  unfold ringCapacity at *
  omega

/-- A byte that is pushed comes last. -/
theorem toList_push (h : r.isFull = false) :
    (r.push byte).toList = r.toList ++ [byte] := by
  have hlt : r.len < 1023 := by
    have hne : r.len ≠ ringMask := by
      intro heq
      rw [← length_toList] at heq
      rw [Iff.mpr isFull_iff heq] at h
      cases h
    have hle := r.len_le
    unfold ringMask at hne hle
    omega
  have hlen : (r.push byte).len = r.len + 1 := by
    have hcases := r.len_cases
    have hh := r.head_lt
    have ht := r.tail_lt
    unfold push
    rw [h]
    unfold len ringCapacity at *
    simp only [Bool.false_eq_true, if_false]
    omega
  have happend : Ring.content ringCapacity
      (Ring.copyIn r.buf ((r.tail + r.len) % ringCapacity) [byte]) r.tail
      (r.len + 1) = Ring.content ringCapacity r.buf r.tail r.len ++ [byte] := by
    apply Ring.content_copyIn
    · simp only [List.length_singleton, ringCapacity]
      omega
    · rw [head_eq]
      exact r.head_lt
  rw [head_eq] at happend
  unfold toList
  rw [hlen, ← happend]
  unfold push
  rw [h]
  rfl

theorem isFull_eq_false (h : r.toList.length < ringMask) :
    r.isFull = false := by
  apply Bool.eq_false_iff.mpr
  intro hfull
  have hlen := Iff.mp isFull_iff hfull
  omega

theorem toList_foldl_push (bytes : List (BitVec 8)) (r : RingBuffer)
    (h : r.toList.length + bytes.length ≤ ringMask) :
    (bytes.foldl push r).toList = r.toList ++ bytes := by
  induction bytes generalizing r with
  | nil => simp
  | cons byte bytes ih =>
    rw [List.length_cons] at h
    have hpush : (r.push byte).toList = r.toList ++ [byte] := by
      apply toList_push
      apply isFull_eq_false
      omega
    have hfit : (r.push byte).toList.length + bytes.length ≤ ringMask := by
      rw [hpush, List.length_append, List.length_singleton]
      omega
    rw [List.foldl_cons, ih _ hfit, hpush, List.append_assoc,
      List.singleton_append]

/-- The byte that is popped was the first. -/
theorem pop_some (h : r.pop = some (byte, r')) :
    r.toList = byte :: r'.toList := by
  unfold pop at h
  split at h
  next => cases h
  next hne =>
    cases h
    have hcases := r.len_cases
    have hh := r.head_lt
    have ht := r.tail_lt
    have hpos : r.head ≠ r.tail := by
      intro heq
      exact hne (decide_eq_true heq)
    unfold ringCapacity at hh ht
    have hfront : Ring.content ringCapacity r.buf r.tail r.len
        = Ring.copyOut r.buf r.tail 1 ++ Ring.content ringCapacity r.buf
          ((r.tail + 1) % ringCapacity) (r.len - 1) := by
      apply Ring.content_eq_copyOut
      · omega
      · unfold ringCapacity
        omega
    unfold toList
    rw [hfront]
    have hlen : ({ r with
        tail := (r.tail + 1) % ringCapacity
        tail_lt := succ_lt r.tail } : RingBuffer).len = r.len - 1 := by
      unfold len ringCapacity at *
      dsimp only
      omega
    rw [hlen]
    rfl

theorem pop_none_iff : r.pop = none ↔ r.toList = [] := by
  rw [← isEmpty_iff]
  unfold pop
  split
  next h => simp [h]
  next h => simp [h]

theorem last_some (h : r.last = some byte) :
    r.toList = r.popLast.toList ++ [byte] := by
  unfold last at h
  split at h
  next => cases h
  next hne =>
    cases h
    have hcases := r.len_cases
    have hh := r.head_lt
    have ht := r.tail_lt
    have hpos : r.head ≠ r.tail := by
      intro heq
      exact hne (decide_eq_true heq)
    have hlen : r.popLast.len + 1 = r.len := by
      unfold popLast
      rw [if_neg hne]
      unfold len lastIndex ringMask ringCapacity at *
      dsimp only
      omega
    have hcell : (r.tail + r.popLast.len) % ringCapacity = r.lastIndex := by
      have hhead := r.popLast.head_eq
      unfold popLast at hhead ⊢
      rw [if_neg hne] at hhead ⊢
      exact hhead
    have hsame : r.popLast.buf = r.buf ∧ r.popLast.tail = r.tail := by
      unfold popLast
      rw [if_neg hne]
      exact ⟨rfl, rfl⟩
    unfold toList
    rw [hsame.1, hsame.2, ← hlen, Ring.content_succ, hcell]

theorem last_none_iff : r.last = none ↔ r.toList = [] := by
  rw [← isEmpty_iff]
  unfold last
  split
  next h => simp [h]
  next h => simp [h]

@[simp] theorem toList_clear (r : RingBuffer) : r.clear.toList = [] := by
  rw [← isEmpty_iff]
  exact decide_eq_true rfl

@[simp] theorem toList_new : new.toList = [] := by
  rw [← isEmpty_iff]
  rfl

end RingBuffer

end LinuxRs.Driver
