/-
The free counts of `inspect` beside what the allocator still gives out
(miniximg/miniximg-core/src/{bitmap,fs}.rs).

# The count

`freeBits` is the set of clear bits among the represented ones, whatever the
image holds. `count_free` is its size (`countFree_ok`), and an allocation
takes one element out of it, so its size is also the number of allocations
that succeed (`allocates_iff`).

# The reserved bit

`inspect` takes one off each count, for bit 0. That bit is set when an image
is made, so it is not among the clear ones: the report is one short as long
as anything is free, and right when nothing is.
-/
import LinuxRs.Miniximg.Inspect
import LinuxRs.Miniximg.Geometry
import Mathlib.Data.Finset.Card
import Mathlib.Data.Finset.Range

namespace LinuxRs.Miniximg

open LinuxRs.Lib
open LinuxRs.Minix

-- ======== clear bits

namespace Bitmap

def freeBits (b : Bitmap) : Finset Nat :=
  (Finset.range b.bitCount).filter fun k => b.bits k = false

@[simp] theorem mem_freeBits {b : Bitmap} {k : Nat} :
    k ∈ b.freeBits ↔ k < b.bitCount ∧ b.bits k = false := by
  simp [freeBits]

theorem freeBits_marked {b : Bitmap} (k : Nat) :
    (b.marked k true).freeBits = b.freeBits.erase k := by
  ext j
  rw [Finset.mem_erase, mem_freeBits, mem_freeBits]
  show j < b.bitCount ∧ Function.update b.bits k true j = false ↔ _
  by_cases h : j = k
  · subst h
    simp
  · rw [Function.update_of_ne h]
    simp [h]

/-- The loop counts the bits that are not set, bit by bit. -/
theorem countFreeFrom_ok {b : Bitmap} (h : b.Roomy) :
    ∀ left relative : Nat, relative + left = b.bitCount →
      b.countFreeFrom relative left =
        .ok (b.freeBits.filter (relative ≤ ·)).card := by
  intro left
  induction left with
  | zero =>
    intro relative hsum
    have hempty : b.freeBits.filter (relative ≤ ·) = ∅ := by
      ext k
      simp
      omega
    rw [hempty]
    rfl
  | succ left ih =>
    intro relative hsum
    have hlt : relative < b.bitCount := by omega
    unfold countFreeFrom
    rw [isSet_of_lt h hlt, ih (relative + 1) (by omega)]
    cases hbit : b.bits relative with
    | true =>
      have hsame : b.freeBits.filter (relative ≤ ·)
          = b.freeBits.filter (relative + 1 ≤ ·) := by
        ext k
        simp only [Finset.mem_filter, mem_freeBits]
        constructor
        · intro hk
          have hne : relative ≠ k := fun heq => by
            rw [← heq, hbit] at hk
            exact absurd hk.1.2 (by decide)
          exact ⟨hk.1, by omega⟩
        · exact fun hk => ⟨hk.1, by omega⟩
      rw [hsame]
      rfl
    | false =>
      have hnext : b.freeBits.filter (relative ≤ ·)
          = insert relative (b.freeBits.filter (relative + 1 ≤ ·)) := by
        ext k
        simp only [Finset.mem_insert, Finset.mem_filter, mem_freeBits]
        constructor
        · intro hk
          by_cases heq : k = relative
          · exact .inl heq
          · exact .inr ⟨hk.1, by omega⟩
        · intro hk
          rcases hk with rfl | hk
          · exact ⟨⟨hlt, hbit⟩, Nat.le_refl _⟩
          · exact ⟨hk.1, by omega⟩
      rw [hnext, Finset.card_insert_of_notMem (by simp)]
      rfl

/-- A count that is reached has read every block of the bitmap. -/
theorem countFreeFrom_block {b : Bitmap} :
    ∀ left relative c : Nat, relative + left = b.bitCount →
      b.countFreeFrom relative left = .ok c →
      ∀ k, relative ≤ k → k < b.bitCount →
        k / bitsPerBlock < b.blockCount := by
  intro left
  induction left with
  | zero =>
    intro relative c hsum _ k h1 h2
    omega
  | succ left ih =>
    intro relative c hsum h k h1 h2
    have hrun : b.countFreeFrom relative (left + 1) =
        (b.isSet (b.startIndex + relative)) >>= fun taken =>
          (b.countFreeFrom (relative + 1) left) >>= fun rest =>
            pure (if taken = true then rest else rest + 1) := rfl
    rw [hrun] at h
    cases hset : b.isSet (b.startIndex + relative) with
    | error e => rw [hset] at h; cases h
    | ok taken =>
      rw [hset] at h
      have h : ((b.countFreeFrom (relative + 1) left) >>= fun rest =>
        pure (if taken = true then rest else rest + 1)) = .ok c := h
      cases hrest : b.countFreeFrom (relative + 1) left with
      | error e => rw [hrest] at h; cases h
      | ok rest =>
        rcases Nat.eq_or_lt_of_le h1 with rfl | hlt
        · unfold isSet bit at hset
          rw [if_neg (by omega), Nat.add_sub_cancel_left,
            if_neg (by omega)] at hset
          by_contra hno
          rw [if_neg hno] at hset
          cases hset
        · exact ih (relative + 1) rest (by omega) hrest k hlt h2

theorem countFree_ok {b : Bitmap} {c : Nat} :
    b.countFree = .ok c ↔ b.Roomy ∧ c = b.freeBits.card := by
  have hall : b.freeBits.filter (0 ≤ ·) = b.freeBits := by simp
  constructor
  · intro h
    have hroomy : b.Roomy := by
      rcases Nat.eq_zero_or_pos b.bitCount with hzero | hpos
      · unfold Roomy
        omega
      · have hlast := countFreeFrom_block b.bitCount 0 c (by omega) h
          (b.bitCount - 1) (Nat.zero_le _) (by omega)
        unfold Roomy bitsPerBlock at *
        omega
    refine ⟨hroomy, ?_⟩
    have hcount := countFreeFrom_ok hroomy b.bitCount 0 (by omega)
    rw [hall] at hcount
    unfold countFree at h
    rw [hcount] at h
    exact (Except.ok.inj h).symm
  · intro h
    obtain ⟨hroomy, rfl⟩ := h
    have hcount := countFreeFrom_ok hroomy b.bitCount 0 (by omega)
    rw [hall] at hcount
    exact hcount

theorem alloc_freeBits {b : Bitmap} (h : b.Roomy) :
    (b.alloc = .ok none ∧ b.freeBits = ∅) ∨ ∃ k ∈ b.freeBits,
      b.alloc = .ok (some (b.startIndex + k, b.marked k true)) := by
  rcases alloc_cases h with ⟨hnone, hall⟩ | ⟨k, hk, hclear, hsome⟩
  · refine .inl ⟨hnone, ?_⟩
    ext j
    simp only [mem_freeBits, Finset.notMem_empty, iff_false]
    intro hj
    rw [hall j hj.1] at hj
    exact absurd hj.2 (by decide)
  · exact .inr ⟨k, Iff.mpr mem_freeBits ⟨hk, hclear⟩, hsome⟩

end Bitmap

-- ======== allocations

/-- So many runs of an allocation succeed, one after the other, and the next
one reports that there is no space. -/
def Allocates {A : Type} (allocate : Io A) : Nat → MinixFileSystem → Prop
  | 0, fs => ∃ message fs',
      allocate fs = .error (.failed (.noSpace message)) fs'
  | n + 1, fs => ∃ a fs', allocate fs = .ok a fs' ∧ Allocates allocate n fs'

/-- An allocation takes a clear bit of a bitmap, or reports that there is
none. -/
def TakesFrom {A : Type} (bitmap : MinixFileSystem → Bitmap)
    (allocate : Io A) : Prop :=
  ∀ fs, (bitmap fs).Roomy → ((bitmap fs).freeBits = ∅ ∧ ∃ message fs',
      allocate fs = .error (.failed (.noSpace message)) fs') ∨
    ∃ k ∈ (bitmap fs).freeBits, ∃ a fs', allocate fs = .ok a fs' ∧
      bitmap fs' = (bitmap fs).marked k true

/-- As many allocations go through as there are free numbers. -/
theorem allocates_iff {A : Type} {bitmap : MinixFileSystem → Bitmap}
    {allocate : Io A} (h : TakesFrom bitmap allocate) {n : Nat}
    {fs : MinixFileSystem} (hroomy : (bitmap fs).Roomy) :
    Allocates allocate n fs ↔ n = (bitmap fs).freeBits.card := by
  induction n generalizing fs with
  | zero =>
    rcases h fs hroomy with ⟨hempty, hfail⟩ | ⟨k, hk, a, fs', hok, -⟩
    · rw [hempty]
      exact ⟨fun _ => rfl, fun _ => hfail⟩
    · constructor
      · intro hfail
        obtain ⟨message, fs'', hfail⟩ := hfail
        rw [hok] at hfail
        cases hfail
      · intro hzero
        have hcard := Finset.card_pos.mpr ⟨k, hk⟩
        omega
  | succ n ih =>
    rcases h fs hroomy with ⟨hempty, message, fs'', hfail⟩ |
      ⟨k, hk, a, fs', hok, hmarked⟩
    · constructor
      · intro hruns
        obtain ⟨a, fs', hok, -⟩ := hruns
        rw [hfail] at hok
        cases hok
      · intro hn
        rw [hempty] at hn
        cases hn
    · have hroomy' : (bitmap fs').Roomy := by
        rw [hmarked]
        exact hroomy
      have hcard : (bitmap fs').freeBits.card + 1
          = (bitmap fs).freeBits.card := by
        rw [hmarked, Bitmap.freeBits_marked]
        exact Finset.card_erase_add_one hk
      have hrest := ih hroomy'
      constructor
      · intro hruns
        obtain ⟨b, fs'', hok', hruns⟩ := hruns
        rw [hok] at hok'
        obtain ⟨rfl, rfl⟩ := EStateM.Result.ok.inj hok'
        have hn := hrest.mp hruns
        omega
      · intro hn
        exact ⟨a, fs', hok, hrest.mpr (by omega)⟩

/-- An inode number is handed out of the free ones, if there are any. -/
theorem allocateInodeNumber_takes :
    TakesFrom MinixFileSystem.inodeBitmap allocateInodeNumber := by
  intro fs hroomy
  unfold allocateInodeNumber
  rw [bind_of_ok (rfl : (get : Io _) fs = .ok fs fs)]
  rcases Bitmap.alloc_freeBits hroomy with ⟨hnone, hempty⟩ | ⟨k, hk, hsome⟩
  · rw [hnone]
    exact .inl ⟨hempty, _, _, rfl⟩
  · obtain ⟨s, hrun, -, -⟩ := writeBitmapBlocks_ok 2
      (fs.inodeBitmap.marked k true) fs.inodeBitmap.blockCount 0
      { fs with inodeBitmap := fs.inodeBitmap.marked k true }
    have hsync : syncInodeBitmap
        { fs with inodeBitmap := fs.inodeBitmap.marked k true } = .ok ()
          { fs with inodeBitmap := fs.inodeBitmap.marked k true,
                    storage := s } := hrun
    rw [hsome]
    refine .inr ⟨k, hk, BitVec.ofNat 16 (fs.inodeBitmap.startIndex + k),
      { fs with inodeBitmap := fs.inodeBitmap.marked k true, storage := s },
      ?_, rfl⟩
    show (do
      set { fs with inodeBitmap := fs.inodeBitmap.marked k true }
      syncInodeBitmap
      return BitVec.ofNat 16 (fs.inodeBitmap.startIndex + k) : Io _) fs = _
    rw [bind_of_ok (rfl : (set _ : Io _) fs = .ok _ _), bind_of_ok hsync]
    rfl

/-- An allocated zone is taken from the free ones. -/
theorem allocateZone_takes :
    TakesFrom MinixFileSystem.zoneBitmap allocateZone := by
  intro fs hroomy
  unfold allocateZone
  rw [bind_of_ok (rfl : (get : Io _) fs = .ok fs fs)]
  rcases Bitmap.alloc_freeBits hroomy with ⟨hnone, hempty⟩ | ⟨k, hk, hsome⟩
  · rw [hnone]
    exact .inl ⟨hempty, _, _, rfl⟩
  · obtain ⟨s, hrun, -, -⟩ := writeBitmapBlocks_ok
      (2 + fs.superBlock.inodeBitmapBlockCount.toNat)
      (fs.zoneBitmap.marked k true) fs.zoneBitmap.blockCount 0
      { fs with zoneBitmap := fs.zoneBitmap.marked k true }
    have hsync : syncZoneBitmap
        { fs with zoneBitmap := fs.zoneBitmap.marked k true } = .ok ()
          { fs with zoneBitmap := fs.zoneBitmap.marked k true,
                    storage := s } := hrun
    rw [hsome]
    refine .inr ⟨k, hk, BitVec.ofNat 16 (fs.zoneBitmap.startIndex + k),
      { fs with
        zoneBitmap := fs.zoneBitmap.marked k true
        storage := s.write
          (BitVec.ofNat 16 (fs.zoneBitmap.startIndex + k)).toNat zeroBlock },
      ?_, rfl⟩
    show (do
      set { fs with zoneBitmap := fs.zoneBitmap.marked k true }
      syncZoneBitmap
      writeZeroBlock (BitVec.ofNat 16 (fs.zoneBitmap.startIndex + k)).toNat
      return BitVec.ofNat 16 (fs.zoneBitmap.startIndex + k) : Io _) fs = _
    rw [bind_of_ok (rfl : (set _ : Io _) fs = .ok _ _), bind_of_ok hsync]
    rfl

-- ======== inspect

theorem of_ok {A : Type} {r : Except Stop A} {a : A} {fs fs' : MinixFileSystem}
    (h : Io.of r fs = .ok a fs') : r = .ok a ∧ fs' = fs := by
  unfold Io.of at h
  split at h
  next =>
    obtain ⟨rfl, rfl⟩ := EStateM.Result.ok.inj h
    exact ⟨rfl, rfl⟩
  next => cases h

theorem inspect_counts {fs fs' : MinixFileSystem} {report : InspectReport}
    (h : inspect fs = .ok report fs') :
    fs.inodeBitmap.Roomy ∧ fs.zoneBitmap.Roomy ∧
      report.freeInodes = fs.inodeBitmap.freeBits.card - 1 ∧
      report.freeZones = fs.zoneBitmap.freeBits.card - 1 := by
  unfold inspect at h
  rw [bind_of_ok (rfl : (get : Io _) fs = .ok fs fs)] at h
  obtain ⟨inodes, fs1, hinodes, h⟩ := bind_ok h
  obtain ⟨hinodes, rfl⟩ := of_ok hinodes
  obtain ⟨zones, fs2, hzones, h⟩ := bind_ok h
  obtain ⟨hzones, rfl⟩ := of_ok hzones
  obtain ⟨entries, fs3, -, h⟩ := bind_ok h
  obtain ⟨rfl, -⟩ := pure_ok h
  obtain ⟨hroomy, rfl⟩ := Bitmap.countFree_ok.mp hinodes
  obtain ⟨hroomy', rfl⟩ := Bitmap.countFree_ok.mp hzones
  exact ⟨hroomy, hroomy', rfl, rfl⟩

theorem freeBits_card_eq_zero {b : Bitmap} :
    b.freeBits.card = 0 ↔ ∀ k < b.bitCount, b.bits k = true := by
  rw [Finset.card_eq_zero, Finset.eq_empty_iff_forall_notMem]
  simp only [Bitmap.mem_freeBits, not_and, Bool.not_eq_false]

/-- In every state that `inspect` reports on: the number of free inodes is
the number of inode allocations that succeed exactly when none does, and so
it is for the zones. -/
theorem free_counts_iff {fs fs' : MinixFileSystem} {report : InspectReport}
    (h : inspect fs = .ok report fs') :
    (Allocates allocateInodeNumber report.freeInodes fs ↔
      ∀ k < fs.inodeBitmap.bitCount, fs.inodeBitmap.bits k = true) ∧
    (Allocates allocateZone report.freeZones fs ↔
      ∀ k < fs.zoneBitmap.bitCount, fs.zoneBitmap.bits k = true) := by
  obtain ⟨hinode, hzone, hinodes, hzones⟩ := inspect_counts h
  have hfull : ∀ c : Nat, c - 1 = c ↔ c = 0 := by omega
  rw [allocates_iff allocateInodeNumber_takes hinode, hinodes, hfull,
    freeBits_card_eq_zero, allocates_iff allocateZone_takes hzone, hzones,
    hfull, freeBits_card_eq_zero]
  exact ⟨Iff.rfl, Iff.rfl⟩

-- ======== new images

def oneInode (blocks : Nat) : CreateImageOptions :=
  ⟨blocks * blockSize, 1#16, 0o755#16, 0#16, 0#8, 0#32⟩

/-- Of a new image: the free inodes and zones in the report, then the clear
bits. -/
def newCounts (options : CreateImageOptions) :
    Option ((Nat × Nat) × (Nat × Nat)) :=
  match create 4 ⟨fun _ => zeroBlock, 0⟩ options with
  | some (.ok fs) =>
    match inspect fs with
    | .ok report _ => some ((report.freeInodes, report.freeZones),
        (fs.inodeBitmap.freeBits.card, fs.zoneBitmap.freeBits.card))
    | .error _ _ => none
  | _ => none

theorem newCounts_some {options : CreateImageOptions} {shown clear : Nat × Nat}
    (h : newCounts options = some (shown, clear)) : ∃ fs report fs',
      create 4 ⟨fun _ => zeroBlock, 0⟩ options = some (.ok fs) ∧
      inspect fs = .ok report fs' ∧
      (report.freeInodes, report.freeZones) = shown ∧
      (fs.inodeBitmap.freeBits.card, fs.zoneBitmap.freeBits.card) = clear := by
  unfold newCounts at h
  split at h
  next fs hcreate =>
    split at h
    next report fs' hinspect =>
      cases h
      exact ⟨fs, report, fs', hcreate, hinspect, rfl, rfl⟩
    next => cases h
  next => cases h

theorem newCounts_small : newCounts (oneInode 6) = some ((0, 0), (0, 0)) ∧
      newCounts (oneInode 8) = some ((0, 1), (0, 2)) := by
  decide +kernel

/-- A new image of six blocks has one data zone, which the root directory
has, and no inode left: both counts are right. -/
theorem free_counts_full : ∃ fs report fs',
      create 4 ⟨fun _ => zeroBlock, 0⟩ (oneInode 6) = some (.ok fs) ∧
      inspect fs = .ok report fs' ∧
      Allocates allocateInodeNumber report.freeInodes fs ∧
      Allocates allocateZone report.freeZones fs := by
  obtain ⟨hcounts, -⟩ := newCounts_small
  obtain ⟨fs, report, fs', hcreate, hinspect, -, hclear⟩ :=
    newCounts_some hcounts
  obtain ⟨hinodes, hzones⟩ := Prod.mk.inj hclear
  obtain ⟨hinode, hzone⟩ := free_counts_iff hinspect
  exact ⟨fs, report, fs', hcreate, hinspect,
    hinode.mpr (Iff.mp freeBits_card_eq_zero hinodes),
    hzone.mpr (Iff.mp freeBits_card_eq_zero hzones)⟩

/-- A new image of eight blocks has two free zones: both can be allocated,
and the report says one. -/
theorem free_zones_one_short : ∃ fs report fs',
      create 4 ⟨fun _ => zeroBlock, 0⟩ (oneInode 8) = some (.ok fs) ∧
      inspect fs = .ok report fs' ∧ report.freeZones = 1 ∧
      Allocates allocateZone 2 fs ∧
      ¬ Allocates allocateZone report.freeZones fs := by
  obtain ⟨-, hcounts⟩ := newCounts_small
  obtain ⟨fs, report, fs', hcreate, hinspect, hshown, hclear⟩ :=
    newCounts_some hcounts
  obtain ⟨-, hshown⟩ := Prod.mk.inj hshown
  obtain ⟨-, hclear⟩ := Prod.mk.inj hclear
  obtain ⟨-, hroomy, -, -⟩ := inspect_counts hinspect
  have hruns : ∀ n, Allocates allocateZone n fs ↔ n = 2 := by
    intro n
    rw [allocates_iff allocateZone_takes hroomy, hclear]
  refine ⟨fs, report, fs', hcreate, hinspect, hshown, (hruns 2).mpr rfl, ?_⟩
  rw [hruns, hshown]
  decide

end LinuxRs.Miniximg
