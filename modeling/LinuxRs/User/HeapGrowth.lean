/-
The retry loop of `alloc` (user_lib/src/allocator.rs) from any state that a
program's heap can reach.

A round tries the free list and, when nothing fits, grows the heap. What
bounds the loop is the size a growth adds: it pays for the request, its
header, the rounding to its alignment and a free block's rest, and the new
range is still one block, or the end of one, when the free list is tried
again (`Sound.grow`, `Roomy.take_isSome`). Near the top of the address space
the growth itself fails and ends the loop. A request of no bytes is answered
before it.
-/
import LinuxRs.User.HeapAlign

namespace LinuxRs.User

open LinuxRs.Lib

namespace Heap

-- ======== the loop

/-- A run of the loop of `alloc` to its end, with the number of growths in it
that went through. -/
inductive AllocLoop (layout : Layout) : Heap → Nat → Heap → Prop
  | found {s s' : Heap} (htake : s.take layout = some s') :
      AllocLoop layout s 0 s'
  | refused {s : Heap} (htake : s.take layout = none)
      (hgrow : (s.grow layout).2 = false) :
      AllocLoop layout s 0 (s.grow layout).1
  | again {s s' : Heap} {n : Nat} (htake : s.take layout = none)
      (hgrow : (s.grow layout).2 = true)
      (hrest : AllocLoop layout (s.grow layout).1 n s') :
      AllocLoop layout s (n + 1) s'

variable {s s' : Heap} {layout : Layout} {n : Nat}

/-- The loop needs no more rounds than it takes. -/
theorem AllocLoop.alloc_eq (h : AllocLoop layout s n s') :
    ∀ rounds, n < rounds → s.alloc layout rounds = some s' := by
  induction h with
  | found htake =>
    intro rounds hrounds
    obtain ⟨r, rfl⟩ := Nat.exists_eq_add_one.mpr (Nat.zero_lt_of_lt hrounds)
    unfold Heap.alloc
    rw [htake]
  | refused htake hgrow =>
    intro rounds hrounds
    obtain ⟨r, rfl⟩ := Nat.exists_eq_add_one.mpr (Nat.zero_lt_of_lt hrounds)
    unfold Heap.alloc
    rw [htake]
    dsimp only
    rw [hgrow, if_neg (by decide)]
  | again htake hgrow _ ih =>
    intro rounds hrounds
    obtain ⟨r, rfl⟩ := Nat.exists_eq_add_one.mpr (Nat.zero_lt_of_lt hrounds)
    unfold Heap.alloc
    rw [htake]
    dsimp only
    rw [hgrow, if_pos rfl]
    exact ih r (by omega)

/-- The loop has one way only. -/
theorem AllocLoop.unique (h : AllocLoop layout s n s') :
    ∀ {m : Nat} {t : Heap}, AllocLoop layout s m t → m = n ∧ t = s' := by
  induction h with
  | found htake =>
    intro m t h'
    cases h' with
    | found htake' =>
      rw [htake] at htake'
      exact ⟨rfl, (Option.some.inj htake').symm⟩
    | refused htake' =>
      rw [htake] at htake'
      cases htake'
    | again htake' =>
      rw [htake] at htake'
      cases htake'
  | refused htake hgrow =>
    intro m t h'
    cases h' with
    | found htake' =>
      rw [htake] at htake'
      cases htake'
    | refused => exact ⟨rfl, rfl⟩
    | again _ hgrow' =>
      rw [hgrow] at hgrow'
      cases hgrow'
  | again htake hgrow _ ih =>
    intro m t h'
    cases h' with
    | found htake' =>
      rw [htake] at htake'
      cases htake'
    | refused _ hgrow' =>
      rw [hgrow] at hgrow'
      cases hgrow'
    | again _ _ hrest =>
      obtain ⟨hm, ht⟩ := ih hrest
      exact ⟨congrArg (· + 1) hm, ht⟩

-- ======== its bound

theorem sound_of_reachable {process : Process}
    (h : Reachable Heap.step (.start process) s) : ∃ lost, s.Sound lost := by
  apply h.invariant (I := fun s => ∃ lost, Heap.Sound lost s)
  · exact ⟨0, sound_start process⟩
  · intro t op t' ht hstep
    obtain ⟨lost, hsound⟩ := ht
    exact hsound.step hstep

theorem grow_suffices {lost : Nat} (h : s.Sound lost)
    (hgrow : (s.grow layout).2 = true) :
    ((s.grow layout).1.take layout).isSome = true := by
  rcases h.grow layout with ⟨-, -, -, hroomy⟩ | ⟨-, hfalse, -⟩
  · exact hroomy.take_isSome
  · rw [hgrow] at hfalse
    cases hfalse

theorem Sound.allocLoop {lost : Nat} (h : s.Sound lost) (layout : Layout) :
    (∃ s', s.take layout = some s' ∧ AllocLoop layout s 0 s') ∨
      (s.take layout = none ∧ (s.grow layout).2 = false ∧
        AllocLoop layout s 0 (s.grow layout).1) ∨
      (s.take layout = none ∧ ∃ s',
        (s.grow layout).1.take layout = some s' ∧
        AllocLoop layout s 1 s') := by
  cases htake : s.take layout with
  | some s' => exact .inl ⟨s', rfl, .found htake⟩
  | none =>
    cases hgrow : (s.grow layout).2 with
    | false => exact .inr (.inl ⟨rfl, rfl, .refused htake hgrow⟩)
    | true =>
      have hsome := grow_suffices h hgrow
      obtain ⟨s', hs'⟩ := Option.isSome_iff_exists.mp hsome
      exact .inr (.inr ⟨rfl, s', hs', .again htake hgrow (.found hs')⟩)

end Heap

/-- From every heap that a program can reach and for every request, the loop
of `alloc` ends after one successful growth at most, in one way only. After
none, it found a block or its growth failed; after one, it has met the
request, as a growth that goes through always does. -/
theorem alloc_grows_once (process : Process) (s : Heap) (layout : Layout)
    (h : Reachable Heap.step (.start process) s) :
    (∃ n s', n ≤ 1 ∧ Heap.AllocLoop layout s n s' ∧
      (∀ m t, Heap.AllocLoop layout s m t → m = n ∧ t = s') ∧
      (∀ rounds, n < rounds → s.alloc layout rounds = some s') ∧
      (n = 1 → (s.grow layout).1.take layout = some s')) ∧
    ((s.grow layout).2 = true →
      ((s.grow layout).1.take layout).isSome = true) := by
  obtain ⟨lost, hsound⟩ := Heap.sound_of_reachable h
  refine ⟨?_, Heap.grow_suffices hsound⟩
  rcases hsound.allocLoop layout with
    ⟨s', -, hloop⟩ | ⟨-, -, hloop⟩ | ⟨-, s', htake, hloop⟩
  · exact ⟨0, s', by decide, hloop, fun _ _ => hloop.unique, hloop.alloc_eq,
      fun hone => by cases hone⟩
  · exact ⟨0, _, by decide, hloop, fun _ _ => hloop.unique, hloop.alloc_eq,
      fun hone => by cases hone⟩
  · exact ⟨1, s', le_rfl, hloop, fun _ _ => hloop.unique, hloop.alloc_eq,
      fun _ => htake⟩

/-- After five bytes the last block of the heap is free and does not hold a
page: the one growth is made, and extends it. -/
theorem alloc_grows_once_extends :
    ∃ s, run Heap.step (.start pageProcess) [.alloc fiveBytes] = some s ∧
      s.allocator.freeList = [⟨0x100d, 0xff3⟩] ∧
      s.take pageLayout = none ∧ (s.grow pageLayout).2 = true ∧
      ((s.grow pageLayout).1.take pageLayout).isSome = true := by
  have hrun : (run Heap.step (.start pageProcess) [.alloc fiveBytes]).map
      (fun s => (s.allocator.freeList, (s.take pageLayout).isNone,
        (s.grow pageLayout).2)) = some ([⟨0x100d, 0xff3⟩], true, true) := by
    decide
  obtain ⟨s, hs, heq⟩ := Option.map_eq_some_iff.mp hrun
  obtain ⟨hfree, heq⟩ := Prod.mk.inj heq
  obtain ⟨htake, hgrow⟩ := Prod.mk.inj heq
  exact ⟨s, hs, hfree, Option.isNone_iff_eq_none.mp htake, hgrow,
    (alloc_grows_once pageProcess s pageLayout (.of_run .refl hs)).2 hgrow⟩

end LinuxRs.User
