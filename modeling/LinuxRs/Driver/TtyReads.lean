/-
What a read of a terminal returns
(kernel/src/driver/character/tty/mod.rs, `read` and `drain_cooked`).

# Lines and reads

In canonical mode a read waits for a line to be complete, or for a queue
that is nearly full. The copying that follows looks for the end-of-file
character only: it goes on behind a newline, and into a line that is still
being edited. `canonical_read` says what a read takes and returns.
-/
import LinuxRs.Driver.TtyInput

namespace LinuxRs.Driver

open LinuxRs.Lib

namespace TtyState

-- ======== the read

/-- `TtyDevice::read` into a buffer with room for `room` bytes, by a task
without pending signals; `none` is a reader that sleeps. -/
def read (s : TtyState) (room : Nat) : Option (TtyState × List (BitVec 8)) :=
  if room = 0 then some (s, [])
  else if s.hasReadableData then some (s.drainCooked room)
  else none

variable {s s' : TtyState} {room : Nat} {bytes : List (BitVec 8)}

/-- The bytes that a read takes off the queue: those that it returns, and
the end-of-file character behind them if it ends the read. -/
structure Takes (s s' : TtyState) (room : Nat) (bytes : List (BitVec 8)) :
    Prop where
  returned : bytes = (s.cookedInput.toList.takeWhile (· ≠ s.eof)).take room
  taken : ∃ taken, s.cookedInput.toList = taken ++ s'.cookedInput.toList
    ∧ s'.pendingLines = s.pendingLines - taken.countP (boundary s.eof)
    ∧ (taken = bytes ∧ (bytes.length = room ∨ s'.cookedInput.toList = [])
      ∨ taken = bytes ++ [s.eof] ∧ bytes.length < room)

theorem takeCooked_pendingLines (s : TtyState) (byte : BitVec 8)
    (rest : RingBuffer) : (s.takeCooked byte rest).pendingLines
      = s.pendingLines - [byte].countP (boundary s.eof) := by
  rw [List.countP_singleton]
  show (if s.isLineBoundary byte ∧ 0 < s.pendingLines then s.pendingLines - 1
    else s.pendingLines) = _
  by_cases hb : boundary s.eof byte = true
  · rw [if_pos hb]
    split
    · rfl
    · next hzero =>
      have hzero : ¬ 0 < s.pendingLines := fun h => hzero ⟨hb, h⟩
      omega
  · rw [if_neg hb, if_neg fun h => hb h.1]
    rfl

/-- A read takes one line, or the part of it that there is room for. -/
theorem drainCooked_takes (hcanon : s.isCanonical = true) (room : Nat) :
    s.Takes (s.drainCooked room).1 room (s.drainCooked room).2 := by
  induction room generalizing s with
  | zero =>
    refine ⟨(List.take_zero ..).symm, [], rfl, rfl, .inl ⟨rfl, .inl rfl⟩⟩
  | succ room ih =>
    unfold drainCooked
    split
    next hnone =>
      have hempty := RingBuffer.pop_none_iff.mp hnone
      refine ⟨?_, [], rfl, rfl, .inl ⟨rfl, .inr hempty⟩⟩
      rw [hempty]
      rfl
    next byte rest hpop =>
      have hqueue := RingBuffer.pop_some hpop
      split
      next hend =>
        -- the end-of-file character: taken, and not returned
        obtain ⟨-, rfl⟩ := hend
        refine ⟨?_, [s.eof], hqueue, s.takeCooked_pendingLines _ rest,
          .inr ⟨rfl, Nat.succ_pos room⟩⟩
        rw [hqueue, List.takeWhile_cons_of_neg (by simp)]
        rfl
      next hgo =>
        have hbyte : byte ≠ s.eof := fun h => hgo ⟨hcanon, h⟩
        obtain ⟨hreturned, taken, hrest, hlines, hends⟩ :=
          ih (s := s.takeCooked byte rest) hcanon
        have heof : (s.takeCooked byte rest).eof = s.eof := rfl
        have hcooked : (s.takeCooked byte rest).cookedInput = rest := rfl
        rw [heof] at hreturned hlines hends
        rw [hcooked] at hreturned hrest
        refine ⟨?_, byte :: taken, ?_, ?_, ?_⟩
        · have hwhile : (byte :: rest.toList).takeWhile (· ≠ s.eof)
              = byte :: rest.toList.takeWhile (· ≠ s.eof) :=
            List.takeWhile_cons_of_pos (decide_eq_true hbyte)
          rw [hqueue, hwhile, List.take_succ_cons, ← hreturned]
        · rw [hqueue, hrest]
          rfl
        · show _ = _
          rw [hlines, takeCooked_pendingLines, Nat.sub_sub,
            ← List.countP_append]
          rfl
        · rcases hends with ⟨rfl, hfull⟩ | ⟨rfl, hlt⟩
          · refine .inl ⟨rfl, ?_⟩
            rcases hfull with hlen | hempty
            · exact .inl (congrArg Nat.succ hlen)
            · exact .inr hempty
          · exact .inr ⟨rfl, Nat.succ_lt_succ hlt⟩

-- ======== the result

/-- In canonical mode: a read that returns something has not passed by an
incomplete line in a queue with room, and it returns the front of the
queue, as much as fits and is before the first end-of-file character,
which is taken with it if there is room for more. -/
theorem canonical_read (hcanon : s.isCanonical = true)
    (h : s.read room = some (s', bytes)) : (room = 0 ∨ 0 < s.pendingLines
      ∨ s.cookedInput.remaining ≤ readCanonicalLowWater)
    ∧ s.Takes s' room bytes := by
  unfold read at h
  by_cases hroom : room = 0
  · subst hroom
    rw [if_pos rfl] at h
    cases h
    exact ⟨.inl rfl, (List.take_zero ..).symm, [], rfl, rfl,
      .inl ⟨rfl, .inl rfl⟩⟩
  · rw [if_neg hroom] at h
    obtain ⟨hready, h⟩ := Option.ite_none_right_eq_some.mp h
    unfold hasReadableData at hready
    rw [if_pos hcanon] at hready
    have hdrain := drainCooked_takes hcanon room
    rw [Option.some.inj h] at hdrain
    exact ⟨.inr (of_decide_eq_true hready), hdrain⟩

/-- A line, and an end-of-file character behind it. -/
theorem canonical_read_line :
    ∃ s', ((TtyState.new .consoleDefault).receiveInput
        [97#8, 13#8, 4#8]).1.read 10 = some (s', [97#8, 10#8])
      ∧ ((TtyState.new .consoleDefault).receiveInput
        [97#8, 13#8, 4#8]).1.Takes s' 10 [97#8, 10#8] := by
  have hbytes : (((TtyState.new .consoleDefault).receiveInput
      [97#8, 13#8, 4#8]).1.read 10).map Prod.snd = some [97#8, 10#8] := by
    decide
  obtain ⟨⟨s', bytes⟩, hread, rfl⟩ := Option.map_eq_some_iff.mp hbytes
  exact ⟨s', hread, (canonical_read (by decide) hread).2⟩

/-- A line is typed, and the first letter of the next one: a read returns
both, though the letter belongs to no complete line and stands behind the
end of the first one. -/
theorem canonical_read_past_line :
    (((TtyState.new .consoleDefault).receiveInput
        [97#8, 13#8, 98#8]).1.read 10).map Prod.snd
      = some [97#8, 10#8, 98#8]
    ∧ ((TtyState.new .consoleDefault).receiveInput
        [97#8, 13#8, 98#8]).1.cookedInput.toList = [97#8, 10#8, 98#8]
    ∧ ((TtyState.new .consoleDefault).receiveInput
        [97#8, 13#8, 98#8]).1.isCanonical = true
    ∧ boundary 4#8 10#8 = true ∧ boundary 4#8 98#8 = false := by
  refine ⟨?_, ?_, ?_, ?_, ?_⟩ <;> decide

end TtyState

end LinuxRs.Driver
