/-
Segment descriptors (kernel/src/segment/descriptor.rs) and the two places
that install them for user tasks: `fork` and `execve`.

# Where a task can reach

The processor adds the segment base to an offset that is at most the byte
limit. Task `n` is meant to reach the 64 MB window that starts at `n`
times 64 MB. A limit counts the units after the first one: a limit of `k`
pages allows `k + 1` of them, and `execve` stores the size of the window
in pages as the limit of the data segment.
-/
import LinuxRs.Lib.Run
import Mathlib.Tactic.IntervalCases
import Mathlib.Logic.Function.Basic

namespace LinuxRs.Task

open LinuxRs.Lib

-- ======== a descriptor

abbrev Descriptor := BitVec 64

namespace Descriptor

def new (base limit : BitVec 32) (access flags : BitVec 8) : Descriptor :=
  let limitLow := (limit &&& 0xFFFF#32).setWidth 64
  let limitHigh := ((limit >>> 16) &&& 0xF#32).setWidth 64
  let baseLow := (base &&& 0xFFFF#32).setWidth 64
  let baseMid := ((base >>> 16) &&& 0xFF#32).setWidth 64
  let baseHigh := ((base >>> 24) &&& 0xFF#32).setWidth 64
  limitLow ||| (baseLow <<< 16) ||| (baseMid <<< 32)
    ||| (access.setWidth 64 <<< 40) ||| (limitHigh <<< 48)
    ||| ((flags.setWidth 64 &&& 0xF#64) <<< 52) ||| (baseHigh <<< 56)

def userCode (base limit : BitVec 32) : Descriptor :=
  new base limit 0xFA#8 0xC#8

def userData (base limit : BitVec 32) : Descriptor :=
  new base limit 0xF2#8 0xC#8

def base (d : Descriptor) : BitVec 32 :=
  let lo := ((d >>> 16) &&& 0xFFFF#64).setWidth 32
  let mid := ((d >>> 32) &&& 0xFF#64).setWidth 32
  let hi := ((d >>> 56) &&& 0xFF#64).setWidth 32
  lo ||| (mid <<< 16) ||| (hi <<< 24)

/-- The 20-bit limit that `byte_limit` reads. -/
def rawLimit (d : Descriptor) : BitVec 32 :=
  let lo := (d &&& 0xFFFF#64).setWidth 32
  let hi := ((d >>> 48) &&& 0xF#64).setWidth 32
  lo ||| (hi <<< 16)

def gBit (d : Descriptor) : BitVec 32 := ((d >>> 55) &&& 1#64).setWidth 32

def byteLimit (d : Descriptor) : BitVec 32 :=
  if d.gBit = 1#32 then (d.rawLimit <<< 12) ||| 0xFFF#32 else d.rawLimit

def withBase (d : Descriptor) (base : BitVec 32) : Descriptor :=
  let baseLow := (base &&& 0xFFFF#32).setWidth 64
  let baseMid := ((base >>> 16) &&& 0xFF#32).setWidth 64
  let baseHigh := ((base >>> 24) &&& 0xFF#32).setWidth 64
  let cleared := d &&& ~~~(0xFFFF#64 <<< 16) &&& ~~~(0xFF#64 <<< 32)
    &&& ~~~(0xFF#64 <<< 56)
  cleared ||| (baseLow <<< 16) ||| (baseMid <<< 32) ||| (baseHigh <<< 56)

def withLimit (d : Descriptor) (limit : BitVec 32) : Descriptor :=
  let limitLow := (limit &&& 0xFFFF#32).setWidth 64
  let limitHigh := ((limit >>> 16) &&& 0xF#32).setWidth 64
  let cleared := d &&& ~~~0xFFFF#64 &&& ~~~(0xF#64 <<< 48)
  cleared ||| limitLow ||| (limitHigh <<< 48)

theorem base_withBase (d : Descriptor) (b : BitVec 32) :
    (d.withBase b).base = b := by
  ext i hi
  simp only [base, withBase]
  interval_cases i <;> simp

theorem base_withLimit (d : Descriptor) (l : BitVec 32) :
    (d.withLimit l).base = d.base := by
  ext i hi
  simp only [base, withLimit]
  interval_cases i <;> simp

theorem rawLimit_withBase (d : Descriptor) (b : BitVec 32) :
    (d.withBase b).rawLimit = d.rawLimit := by
  ext i hi
  simp only [rawLimit, withBase]
  interval_cases i <;> simp

theorem rawLimit_withLimit (d : Descriptor) (l : BitVec 32) :
    (d.withLimit l).rawLimit = l &&& 0xFFFFF#32 := by
  ext i hi
  simp only [rawLimit, withLimit]
  interval_cases i <;> simp

theorem gBit_withBase (d : Descriptor) (b : BitVec 32) :
    (d.withBase b).gBit = d.gBit := by
  ext i hi
  simp only [gBit, withBase]
  interval_cases i <;> simp

theorem gBit_withLimit (d : Descriptor) (l : BitVec 32) :
    (d.withLimit l).gBit = d.gBit := by
  ext i hi
  simp only [gBit, withLimit]
  interval_cases i <;> simp

theorem byteLimit_toNat {d : Descriptor} (hg : d.gBit = 1#32)
    (hr : d.rawLimit.toNat < 0x100000) :
    d.byteLimit.toNat = d.rawLimit.toNat * 4096 + 4095 := by
  have hand : d.rawLimit <<< 12 &&& 0xFFF#32 = 0#32 := by
    ext i hi
    simp only [BitVec.getElem_and, BitVec.getElem_shiftLeft,
      BitVec.getElem_zero]
    interval_cases i <;> simp
  rw [byteLimit, if_pos hg, ← BitVec.add_eq_or_of_and_eq_zero _ _ hand,
    BitVec.toNat_add, BitVec.toNat_shiftLeft, Nat.shiftLeft_eq,
    BitVec.toNat_ofNat]
  omega

end Descriptor

-- ======== the LDT of a task

/-- `LocalDescriptorTable`: its code and its data segment. -/
structure LocalDescriptorTable where
  code : Descriptor
  data : Descriptor

namespace LocalDescriptorTable

def new (base limit : BitVec 32) : LocalDescriptorTable :=
  ⟨.userCode base limit, .userData base limit⟩

def setBase (ldt : LocalDescriptorTable) (base : BitVec 32) :
    LocalDescriptorTable :=
  ⟨ldt.code.withBase base, ldt.data.withBase base⟩

def setCodeLimit (ldt : LocalDescriptorTable) (limit : BitVec 32) :
    LocalDescriptorTable :=
  { ldt with code := ldt.code.withLimit limit }

def setDataLimit (ldt : LocalDescriptorTable) (limit : BitVec 32) :
    LocalDescriptorTable :=
  { ldt with data := ldt.data.withLimit limit }

end LocalDescriptorTable

def taskLinearSize : BitVec 32 := 0x4000000#32

abbrev SegSys := Fin 64 → Option LocalDescriptorTable

def SegSys.boot : SegSys :=
  Function.update (fun _ => none) ⟨0, by decide⟩ (some (.new 0#32 0x9f#32))

structure AoutSizes where
  aText : BitVec 32
  aData : BitVec 32
  aBss : BitVec 32

/-- The size check of `AoutHeader::validate`, made in 64 bits. -/
def AoutSizes.valid (h : AoutSizes) : Bool :=
  h.aText.toNat + h.aData.toNat + h.aBss.toNat ≤ 0x3000000

def LocalDescriptorTable.execve (ldt : LocalDescriptorTable)
    (h : AoutSizes) : LocalDescriptorTable :=
  let codeLimit := (h.aText + 4096#32 - 1#32) &&& ~~~0xFFF#32
  (ldt.setCodeLimit (codeLimit >>> 12)).setDataLimit (taskLinearSize >>> 12)

/-- What installs a task's descriptors. -/
inductive SegOp
  | fork (parent child : Fin 64)
  | execve (t : Fin 64) (sizes : AoutSizes)
  | reap (t : Fin 64)

/-- One step. `fork` asserts that both segments have one base and that
the data limit is not below the code limit. -/
def SegSys.step (s : SegSys) : SegOp → Option SegSys
  | .fork parent child =>
    match s parent, s child with
    | some ldt, none =>
      if ldt.data.base = ldt.code.base ∧
          ldt.code.byteLimit ≤ ldt.data.byteLimit then
        let newBase := BitVec.ofNat 32 child.val * taskLinearSize
        some (Function.update s child (some (ldt.setBase newBase)))
      else none
    | _, _ => none
  | .execve t sizes =>
    (s t).map fun ldt =>
      if sizes.valid then Function.update s t (some (ldt.execve sizes))
      else s
  | .reap t => some (Function.update s t none)

-- ======== confinement

/-- The linear address lies in the 64 MB of the slot. -/
def InWindow (slot : Fin 64) (linear : BitVec 32) : Prop :=
  linear.toNat / 0x4000000 = slot.val

/-- Every offset the descriptor lets through lies in the slot's window. -/
def Descriptor.Confined (d : Descriptor) (slot : Fin 64) : Prop :=
  ∀ off, off ≤ d.byteLimit → InWindow slot (d.base + off)

def SegSys.Confined (s : SegSys) : Prop :=
  ∀ slot ldt, s slot = some ldt →
    ldt.code.Confined slot ∧ ldt.data.Confined slot

/-- A segment as it is installed: based at its window, in pages, and with
a limit of at most `pages`. -/
structure Descriptor.Installed (d : Descriptor) (slot : Fin 64)
    (pages : Nat) : Prop where
  base : d.base = BitVec.ofNat 32 slot.val * taskLinearSize
  granular : d.gBit = 1#32
  limit : d.rawLimit.toNat ≤ pages

theorem Descriptor.Installed.inWindow_iff {d : Descriptor} {slot : Fin 64}
    (h : d.Installed slot 0x4000) {off : BitVec 32} (hoff : off ≤ d.byteLimit) :
    InWindow slot (d.base + off) ↔ off.toNat < 0x4000000 := by
  have hlim := h.limit
  have hb := byteLimit_toNat h.granular (by omega)
  have hslot := slot.isLt
  have hbase : d.base.toNat = slot.val * 0x4000000 := by
    rw [h.base, BitVec.toNat_mul, BitVec.toNat_ofNat]
    show slot.val % 2 ^ 32 * 0x4000000 % 2 ^ 32 = _
    omega
  unfold InWindow
  rw [BitVec.toNat_add, hbase]
  omega

theorem Descriptor.Installed.confined {d : Descriptor} {slot : Fin 64}
    {pages : Nat} (h : d.Installed slot pages) (hp : pages < 0x4000) :
    d.Confined slot := by
  intro off hoff
  have hlim := h.limit
  have hb := byteLimit_toNat h.granular (by omega)
  have hle : off.toNat ≤ d.byteLimit.toNat := hoff
  have hall : d.Installed slot 0x4000 := ⟨h.base, h.granular, by omega⟩
  apply (hall.inWindow_iff hoff).mpr
  omega

-- ======== the invariant

/-- What the segments of a task are: the code segment ends below the
window, the data segment has at most `pages` as its limit. -/
structure LocalDescriptorTable.Installed (ldt : LocalDescriptorTable)
    (slot : Fin 64) (pages : Nat) : Prop where
  code : ldt.code.Installed slot 0x3000
  data : ldt.data.Installed slot pages

theorem Descriptor.Installed.withBase {d : Descriptor} {slot : Fin 64}
    {pages : Nat} (h : d.Installed slot pages) (child : Fin 64) :
    (d.withBase (BitVec.ofNat 32 child.val * taskLinearSize)).Installed child
      pages := by
  refine ⟨base_withBase .., ?_, ?_⟩
  · rw [gBit_withBase]
    exact h.granular
  · rw [rawLimit_withBase]
    exact h.limit

theorem Descriptor.Installed.withLimit {d : Descriptor} {slot : Fin 64}
    {pages : Nat} (h : d.Installed slot pages) {l : BitVec 32} {pages' : Nat}
    (hl : (l &&& 0xFFFFF#32).toNat ≤ pages') :
    (d.withLimit l).Installed slot pages' := by
  refine ⟨?_, ?_, ?_⟩
  · rw [base_withLimit]
    exact h.base
  · rw [gBit_withLimit]
    exact h.granular
  · rw [rawLimit_withLimit]
    exact hl

theorem AoutSizes.codePages_le {h : AoutSizes} (hv : h.valid = true) :
    ((((h.aText + 4096#32 - 1#32) &&& ~~~0xFFF#32) >>> 12) &&& 0xFFFFF#32).toNat
      ≤ 0x3000 := by
  simp only [AoutSizes.valid, decide_eq_true_eq] at hv
  have hle : ((h.aText + 4096#32 - 1#32) &&& ~~~0xFFF#32).toNat
      ≤ (h.aText + 4096#32 - 1#32).toNat := by
    rw [BitVec.toNat_and]
    exact Nat.and_le_left
  have hsum : (h.aText + 4096#32 - 1#32).toNat = h.aText.toNat + 4095 := by
    rw [BitVec.toNat_sub, BitVec.toNat_add]
    simp only [BitVec.toNat_ofNat]
    omega
  rw [BitVec.toNat_and, BitVec.toNat_ushiftRight, Nat.shiftRight_eq_div_pow]
  refine Nat.le_trans Nat.and_le_left ?_
  omega

theorem LocalDescriptorTable.Installed.execve {ldt : LocalDescriptorTable}
    {slot : Fin 64} {pages : Nat} (h : ldt.Installed slot pages)
    {sizes : AoutSizes} (hv : sizes.valid = true) :
    (ldt.execve sizes).Installed slot 0x4000 :=
  ⟨h.code.withLimit (AoutSizes.codePages_le hv), h.data.withLimit (by decide)⟩

def SegSys.Inv (pages : Nat) (s : SegSys) : Prop :=
  ∀ slot ldt, s slot = some ldt → ldt.Installed slot pages

theorem SegSys.Inv.boot : SegSys.Inv 0x9f SegSys.boot := by
  intro slot ldt h
  unfold SegSys.boot at h
  by_cases hs : slot = ⟨0, by decide⟩
  · subst hs
    rw [Function.update_self] at h
    cases h
    refine ⟨⟨?_, ?_, ?_⟩, ⟨?_, ?_, ?_⟩⟩ <;> decide
  · rw [Function.update_of_ne hs] at h
    cases h

def SegSys.Execs (s : SegSys) (op : SegOp) : Prop :=
  ∃ t sizes, op = .execve t sizes ∧ sizes.valid = true ∧ (s t).isSome = true

theorem SegSys.Inv.update {pages : Nat} {s : SegSys} (h : s.Inv pages)
    {slot : Fin 64} {ldt : LocalDescriptorTable}
    (hl : ldt.Installed slot pages) :
    SegSys.Inv pages (Function.update s slot (some ldt)) := by
  intro slot' ldt' h'
  by_cases hs : slot' = slot
  · subst hs
    rw [Function.update_self] at h'
    exact Option.some.inj h' ▸ hl
  · rw [Function.update_of_ne hs] at h'
    exact h slot' ldt' h'

/-- The descriptors of a task stay in its window if the limit of `exec`
does. -/
theorem SegSys.Inv.step {pages : Nat} {s s' : SegSys} (h : s.Inv pages)
    {op : SegOp} (hp : ¬ s.Execs op ∨ 0x4000 ≤ pages)
    (hs : s.step op = some s') : s'.Inv pages := by
  cases op with
  | fork parent child =>
    simp only [SegSys.step] at hs
    split at hs
    next ldt hparent hchild =>
      split at hs
      next =>
        cases hs
        have hl := h parent ldt hparent
        exact h.update ⟨hl.code.withBase child, hl.data.withBase child⟩
      next => cases hs
    next => cases hs
  | execve t sizes =>
    obtain ⟨ldt, hldt, rfl⟩ := Option.map_eq_some_iff.mp hs
    split
    next hv =>
      have hl := (h t ldt hldt).execve hv
      rcases hp with hno | hp
      · exact absurd ⟨t, sizes, rfl, hv, by rw [hldt]; rfl⟩ hno
      · exact h.update ⟨hl.code, hl.data.base, hl.data.granular,
          hl.data.limit.trans hp⟩
    next => exact h
  | reap t =>
    cases hs
    intro slot ldt hslot
    by_cases hst : slot = t
    · subst hst
      rw [Function.update_self] at hslot
      cases hslot
    · rw [Function.update_of_ne hst] at hslot
      exact h slot ldt hslot

theorem LocalDescriptorTable.not_confined_execve {ldt : LocalDescriptorTable}
    {slot : Fin 64} {pages : Nat} (h : ldt.Installed slot pages)
    {sizes : AoutSizes} (hv : sizes.valid = true) :
    ¬ (ldt.execve sizes).data.Confined slot := by
  intro hc
  have hi := (h.execve hv).data
  have hraw : (ldt.execve sizes).data.rawLimit = 0x4000#32 := by
    show (ldt.data.withLimit _).rawLimit = _
    rw [Descriptor.rawLimit_withLimit]
    decide
  have hb := Descriptor.byteLimit_toNat hi.granular (by rw [hraw]; decide)
  rw [hraw] at hb
  have hoff : taskLinearSize ≤ (ldt.execve sizes).data.byteLimit := by
    show taskLinearSize.toNat ≤ _
    rw [hb]
    decide
  have := (hi.inWindow_iff hoff).mp (hc _ hoff)
  exact absurd this (by decide)

-- ======== the result

/-- In every reachable state an offset that a segment of a task allows
reaches the task's window exactly if it is below 64 MB; and all the
states of a run confine all tasks exactly if no `execve` succeeds. -/
theorem segments_confined_iff (ops : List SegOp) :
    (∀ s, Reachable SegSys.step SegSys.boot s → ∀ slot ldt, s slot = some ldt →
      ∀ d, d = ldt.code ∨ d = ldt.data → ∀ off, off ≤ d.byteLimit →
        (InWindow slot (d.base + off) ↔ off.toNat < 0x4000000)) ∧
    ((∀ s ∈ visited SegSys.step SegSys.boot ops, s.Confined) ↔
      Guarded SegSys.step (fun s op => ¬ s.Execs op) SegSys.boot ops) := by
  constructor
  · intro s hs slot ldt hslot d hd off hoff
    have hinv : s.Inv 0x4000 := by
      refine Reachable.invariant ?_ ?_ hs
      · intro slot ldt h
        have hb := SegSys.Inv.boot slot ldt h
        exact ⟨hb.code, hb.data.base, hb.data.granular,
          hb.data.limit.trans (by decide)⟩
      · exact fun s op s' h hstep => h.step (.inr (by decide)) hstep
    have hl := hinv slot ldt hslot
    rcases hd with rfl | rfl
    · apply Descriptor.Installed.inWindow_iff _ hoff
      exact ⟨hl.code.base, hl.code.granular, hl.code.limit.trans (by decide)⟩
    · exact hl.data.inWindow_iff hoff
  · apply visited_iff_guarded (I := SegSys.Inv 0x9f)
    · exact fun s h slot ldt hslot =>
        ⟨(h slot ldt hslot).code.confined (by decide),
          (h slot ldt hslot).data.confined (by decide)⟩
    · exact fun s op s' h hg hs => h.step (.inl hg) hs
    · intro s op s' h hg hs hc
      rw [not_not] at hg
      obtain ⟨t, sizes, rfl, hv, hsome⟩ := hg
      obtain ⟨ldt, hldt, rfl⟩ := Option.map_eq_some_iff.mp hs
      rw [if_pos hv] at hc
      exact LocalDescriptorTable.not_confined_execve (h t ldt hldt) hv
        (hc t _ (Function.update_self ..)).2
    · exact SegSys.Inv.boot

/-- Task 63 after an `execve`: the offset 64 MB wraps to address 0. -/
theorem last_window_wraps : (run SegSys.step SegSys.boot
      [.fork 0 63, .execve 63 ⟨0x1000#32, 0#32, 0#32⟩]).bind
      (fun s => (s 63).map fun ldt =>
        (decide (taskLinearSize ≤ ldt.data.byteLimit),
          ldt.data.base + taskLinearSize)) = some (true, 0#32) := by
  decide

end LinuxRs.Task
