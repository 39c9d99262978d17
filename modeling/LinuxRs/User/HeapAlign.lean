/-
The alignment of the typed headers of the heap.

# Three sources of addresses

A growth rounds the break up, and a payload is rounded up to at least the
alignment of its header, so both start at multiples of four. The third
source is the end of a payload: `take_from_block` puts a free block there
whenever what is left is large enough, whatever the size of the payload.

# The exact condition

Merging makes no new starts, so alignment is lost in one place only. It
lasts along a run exactly when no allocation whose size is not a multiple
of four leaves room for a free block behind its payload.
-/
import LinuxRs.User.HeapRuns

namespace LinuxRs.User

open LinuxRs.Lib Extent

variable {layout : Layout} {block : FreeBlock} {free : List FreeBlock}

-- ======== placement

def Layout.payloadIn (layout : Layout) (block : FreeBlock) : Nat :=
  alignUp (block.start + headerSize) (max layout.align headerAlign)

def Layout.fitsIn (layout : Layout) (block : FreeBlock) : Bool :=
  (Placement.new block.start block.size layout).isSome

/-- The block that is cut for a request has no room for a free block behind
the payload, or the payload ends where one may start. -/
def Layout.EndsEven (layout : Layout) (free : List FreeBlock) : Prop :=
  ∀ block, free.find? layout.fitsIn = some block →
    layout.payloadIn block + layout.size + minFreeBlockSize ≤ block.stop →
      headerAlign ∣ layout.size

theorem Layout.headerAlign_dvd (layout : Layout) :
    headerAlign ∣ max layout.align headerAlign := by
  rcases Nat.le_total headerAlign layout.align with h | h
  · rw [max_eq_left h]
    obtain ⟨k, hk⟩ := layout.align_pow
    rw [hk] at h ⊢
    have hk2 : 2 ≤ k := by
      apply (Nat.pow_le_pow_iff_right (by decide : 1 < 2)).mp
      exact h
    exact Nat.pow_dvd_pow 2 hk2
  · rw [max_eq_right h]

theorem headerAlign_dvd_alignUp (addr : Nat) :
    headerAlign ∣ alignUp addr headerAlign := by
  have hround : alignUp addr headerAlign = (addr + 2 ^ 2 - 1) % usizeLimit
        - (addr + 2 ^ 2 - 1) % usizeLimit % 2 ^ 2 :=
    and_mask_eq (k := 2) (Nat.mod_lt _ (by decide)) (by decide)
  rw [hround]
  exact Nat.dvd_sub_mod _

theorem Placement.new_eq {p : Placement}
    (h : Placement.new block.start block.size layout = some p) :
    p = .cut block.start block.stop (layout.payloadIn block - headerSize)
        (layout.payloadIn block) (layout.payloadIn block + layout.size) ∧
      headerAlign ∣ layout.payloadIn block := by
  obtain ⟨blockEnd, hend, h⟩ := Option.bind_eq_some_iff.mp h
  obtain ⟨first, hfirst, h⟩ := Option.bind_eq_some_iff.mp h
  obtain ⟨headerStart, hheader, h⟩ := Option.bind_eq_some_iff.mp h
  obtain ⟨requestedEnd, hreq, h⟩ := Option.bind_eq_some_iff.mp h
  obtain ⟨rfl, -⟩ := checkedAdd_some hend
  obtain ⟨rfl, hlt⟩ := checkedAdd_some hfirst
  obtain ⟨-, rfl⟩ := checkedSub_some hheader
  obtain ⟨rfl, -⟩ := checkedAdd_some hreq
  split at h
  next => cases h
  next =>
    refine ⟨(Option.some.inj h).symm, ?_⟩
    unfold Layout.payloadIn
    rcases layout.payload_cases hlt with hround | hzero
    · exact layout.headerAlign_dvd.trans hround.dvd
    · rw [hzero]
      exact Nat.dvd_zero _

theorem Placement.suffix_cases {p : Placement}
    (h : Placement.new block.start block.size layout = some p) :
    (layout.payloadIn block + layout.size + minFreeBlockSize ≤ block.stop ∧
        p.suffixStart = layout.payloadIn block + layout.size ∧
        minFreeBlockSize ≤ p.suffixSize) ∨
      (block.stop < layout.payloadIn block + layout.size + minFreeBlockSize ∧
        ¬ minFreeBlockSize ≤ p.suffixSize) := by
  obtain ⟨rfl, -⟩ := Placement.new_eq h
  have hmin : minFreeBlockSize = 8 := rfl
  unfold Placement.cut
  dsimp only
  split_ifs <;> omega

/-- The block that is taken is the first one that fits. -/
theorem tryAlloc_find {free' : List FreeBlock} {p : Placement}
    (h : tryAlloc layout free = some (free', p)) :
    ∃ pre block post, free = pre ++ block :: post ∧
      free' = pre ++ (p.remainder block ++ post) ∧
      free.find? layout.fitsIn = some block ∧
      Placement.new block.start block.size layout = some p := by
  induction free generalizing free' with
  | nil => cases h
  | cons current next ih =>
    unfold tryAlloc at h
    split at h
    next p' hp =>
      cases h
      refine ⟨[], current, next, rfl, rfl, ?_, hp⟩
      apply List.find?_cons_of_pos
      unfold Layout.fitsIn
      rw [hp]
      rfl
    next hnone =>
      obtain ⟨r, hr, heq⟩ := Option.map_eq_some_iff.mp h
      cases heq
      obtain ⟨pre, block, post, rfl, hfree, hfind, hp⟩ := ih hr
      refine ⟨current :: pre, block, post, rfl, ?_, ?_, hp⟩
      · rw [hfree]
        rfl
      · rw [List.find?_cons_of_neg, hfind]
        unfold Layout.fitsIn
        rw [hnone]
        exact Bool.false_ne_true

theorem tryAlloc_none (h : tryAlloc layout free = none) :
    free.find? layout.fitsIn = none := by
  apply List.find?_eq_none.mpr
  intro block hmem hfits
  have hsome := tryAlloc_isSome hmem hfits
  rw [h] at hsome
  cases hsome

-- ======== free blocks

/-- Free blocks at multiples of the alignment of `FreeBlock`. -/
def Aligned (free : List FreeBlock) : Prop :=
  ∀ block ∈ free, headerAlign ∣ block.start

theorem aligned_cons_iff : Aligned (block :: free) ↔
    headerAlign ∣ block.start ∧ Aligned free :=
  List.forall_mem_cons

theorem coalesceWithNext_aligned (h : Aligned free) :
    Aligned (coalesceWithNext free) := by
  intro b hb
  obtain ⟨c, hc, -, -, hstart, -⟩ := (coalesceWithNext_joins free).ends b hb
  rw [hstart]
  exact h c hc

theorem insertAfter_aligned {prev : FreeBlock} (hb : headerAlign ∣ block.start)
    (h : Aligned (prev :: free)) : Aligned (insertAfter block prev free) := by
  -- The place where the walk ends puts the block between two parts.
  have hbetween : ∀ {prev : FreeBlock} {l : List FreeBlock},
      Aligned (prev :: l) →
        Aligned (coalesceWithNext (prev :: coalesceWithNext (block :: l))) := by
    intro prev l hl
    obtain ⟨hprev, hl⟩ := Iff.mp aligned_cons_iff hl
    apply coalesceWithNext_aligned
    refine Iff.mpr aligned_cons_iff ⟨hprev, ?_⟩
    apply coalesceWithNext_aligned
    exact Iff.mpr aligned_cons_iff ⟨hb, hl⟩
  induction free generalizing prev with
  | nil => exact hbetween h
  | cons next rest ih =>
    obtain ⟨hprev, hrest⟩ := Iff.mp aligned_cons_iff h
    unfold insertAfter
    split
    next => exact Iff.mpr aligned_cons_iff ⟨hprev, ih hrest⟩
    next => exact hbetween h

theorem insertFreeBlock_aligned (hb : headerAlign ∣ block.start)
    (h : Aligned free) : Aligned (insertFreeBlock block free) := by
  have hboth : Aligned (block :: free) := Iff.mpr aligned_cons_iff ⟨hb, h⟩
  unfold insertFreeBlock
  split
  next => exact h
  next =>
    split
    next => exact hboth
    next =>
      split
      next => exact coalesceWithNext_aligned hboth
      next => exact insertAfter_aligned hb h

/-- The rest of a block is aligned exactly if the request ends even. -/
theorem remainder_aligned {p : Placement}
    (hp : Placement.new block.start block.size layout = some p)
    (hb : headerAlign ∣ block.start)
    (heven : layout.payloadIn block + layout.size + minFreeBlockSize
      ≤ block.stop → headerAlign ∣ layout.size) :
    Aligned (p.remainder block) := by
  have hsuffix : minFreeBlockSize ≤ p.suffixSize →
      headerAlign ∣ p.suffixStart := by
    intro hsize
    rcases Placement.suffix_cases hp with ⟨hroom, hstart, -⟩ | ⟨-, hsmall⟩
    · rw [hstart]
      exact Nat.dvd_add (Placement.new_eq hp).2 (heven hroom)
    · exact absurd hsize hsmall
  unfold Placement.remainder
  split
  next =>
    split
    next hsize =>
      refine List.forall_mem_cons.mpr ⟨hb, ?_⟩
      exact List.forall_mem_singleton.mpr (hsuffix hsize)
    next => exact List.forall_mem_singleton.mpr hb
  next =>
    split
    next hsize => exact List.forall_mem_singleton.mpr (hsuffix hsize)
    next =>
      intro b hmem
      cases hmem

theorem remainder_odd {p : Placement}
    (hp : Placement.new block.start block.size layout = some p)
    (hroom : layout.payloadIn block + layout.size + minFreeBlockSize
      ≤ block.stop) (hodd : ¬ headerAlign ∣ layout.size) :
    ¬ Aligned (p.remainder block) := by
  intro haligned
  rcases Placement.suffix_cases hp with ⟨-, hstart, hsize⟩ | ⟨hshort, -⟩
  · have hmem : (⟨p.suffixStart, p.suffixSize⟩ : FreeBlock)
        ∈ p.remainder block := by
      unfold Placement.remainder
      rw [if_pos hsize, if_pos hsize]
      split <;> simp
    have hdvd := haligned _ hmem
    rw [hstart] at hdvd
    exact hodd ((Nat.dvd_add_right (Placement.new_eq hp).2).mp hdvd)
  · omega

namespace Heap

variable {s s' : Heap} {lost : Nat}

-- ======== states

/-- Every typed header is at an address that is aligned for its type. -/
structure Typed (s : Heap) : Prop where
  free : Aligned s.allocator.freeList
  headers : ∀ a ∈ s.live, headerAlign ∣ a.ptr - headerSize

/-- The invariant: the blocks that `dealloc` will turn into free ones are
aligned too. -/
structure TypedBlocks (s : Heap) : Prop where
  typed : s.Typed
  blocks : ∀ a ∈ s.live, headerAlign ∣ (s.block a).start

theorem typedBlocks_start (process : Process) :
    (Heap.start process).TypedBlocks where
  typed := ⟨nofun, nofun⟩
  blocks _ ha := by cases ha

/-- Blocks stay typed exactly if the layout ends even. -/
theorem TypedBlocks.take (h : s.TypedBlocks) (hs : s.Sound lost)
    (htake : s.take layout = some s') :
    (layout.EndsEven s.allocator.freeList → s'.TypedBlocks) ∧
      (¬ layout.EndsEven s.allocator.freeList → ¬ s'.Typed) := by
  obtain ⟨⟨free, p⟩, htry, rfl⟩ := Option.map_eq_some_iff.mp htake
  obtain ⟨pre, current, post, hfree, rfl, hfind, hp⟩ := tryAlloc_find htry
  have hdiv := Placement.new_divides hp
  have hcur : current ∈ s.allocator.freeList := by
    rw [hfree]
    exact List.mem_append_right _ List.mem_cons_self
  have hold := h.typed.free
  rw [hfree] at hold
  obtain ⟨hpre, hrest⟩ := List.forall_mem_append.mp hold
  obtain ⟨hstart, hpost⟩ := List.forall_mem_cons.mp hrest
  obtain ⟨heq, hpayload⟩ := Placement.new_eq hp
  have hptr : p.payloadStart - headerSize = p.headerStart := by
    rw [hdiv.payload, Nat.add_sub_cancel]
  have hheader : headerAlign ∣ p.headerStart := by
    rw [← hptr, heq]
    exact Nat.dvd_sub hpayload (by decide)
  constructor
  · intro heven
    refine ⟨⟨?_, fun a ha => ?_⟩, fun a ha => ?_⟩
    · refine List.forall_mem_append.mpr ⟨hpre, ?_⟩
      refine List.forall_mem_append.mpr ⟨?_, hpost⟩
      exact remainder_aligned hp hstart (heven current hfind)
    · rcases List.mem_cons.mp ha with rfl | ha
      · dsimp only
        rw [hptr]
        exact hheader
      · exact h.typed.headers a ha
    · rcases List.mem_cons.mp ha with rfl | ha
      · -- A new block starts where the free one did, or at its header.
        have hblock : p.blockStart = p.headerStart ∨
            p.blockStart = current.start := by
          rw [heq]
          unfold Placement.cut
          dsimp only
          split
          next => exact .inl rfl
          next => exact .inr rfl
        unfold Heap.block
        dsimp only
        rw [hptr, Function.update_self]
        rcases hblock with hblock | hblock
        · rw [hblock]
          exact hheader
        · rw [hblock]
          exact hstart
      · have hne : a.ptr - headerSize ≠ p.headerStart := by
          refine hs.header_ne ha ((hs.free current hcur a ha).of_within
            hdiv.within) hdiv.header ?_
          have hpayload := hdiv.payload
          have hfits := hdiv.fits
          have hblock := hdiv.block_eq
          unfold stop
          dsimp only
          omega
        unfold Heap.block
        dsimp only
        rw [Function.update_of_ne hne]
        exact h.blocks a ha
  · intro hodd htyped
    unfold Layout.EndsEven at hodd
    push Not at hodd
    obtain ⟨block, hblock, hroom, hsize⟩ := hodd
    obtain rfl := Option.some.inj (hfind.symm.trans hblock)
    apply remainder_odd hp hroom hsize
    intro b hb
    apply htyped.free b
    exact List.mem_append_right _ (List.mem_append_left _ hb)

theorem TypedBlocks.dealloc (h : s.TypedBlocks) {a : Allocation}
    (ha : a ∈ s.live) : (s.dealloc a).TypedBlocks where
  typed := {
    free := insertFreeBlock_aligned (h.blocks a ha) h.typed.free
    headers := fun c hc => h.typed.headers c (List.mem_of_mem_erase hc) }
  blocks c hc := h.blocks c (List.mem_of_mem_erase hc)

theorem growFrom_free (s : Heap) (layout : Layout) (c : Nat) :
    (s.growFrom layout c).1.live = s.live ∧
      (s.growFrom layout c).1.allocator.headers = s.allocator.headers ∧
      ((s.growFrom layout c).1.allocator.freeList = s.allocator.freeList ∨
        (s.growFrom layout c).2 = true ∧
          ∃ size, (s.growFrom layout c).1.allocator.freeList =
            insertFreeBlock ⟨alignUp c headerAlign, size⟩
              s.allocator.freeList) := by
  unfold Heap.growFrom
  split
  next => exact ⟨rfl, rfl, .inl rfl⟩
  next =>
    dsimp only
    split
    next => exact ⟨rfl, rfl, .inl rfl⟩
    next =>
      split
      next => exact ⟨rfl, rfl, .inl rfl⟩
      next =>
        unfold Heap.extend
        dsimp only
        split
        next => exact ⟨rfl, rfl, .inl rfl⟩
        next =>
          split
          next => exact ⟨rfl, rfl, .inl rfl⟩
          next => exact ⟨rfl, rfl, .inr ⟨rfl, _, rfl⟩⟩

theorem TypedBlocks.growFrom (h : s.TypedBlocks) (layout : Layout) (c : Nat) :
    (s.growFrom layout c).1.TypedBlocks := by
  obtain ⟨hlive, hheaders, hfree⟩ := s.growFrom_free layout c
  refine ⟨⟨?_, ?_⟩, ?_⟩
  · rcases hfree with hfree | ⟨-, size, hfree⟩
    · rw [hfree]
      exact h.typed.free
    · rw [hfree]
      exact insertFreeBlock_aligned (headerAlign_dvd_alignUp c) h.typed.free
  · rw [hlive]
    exact h.typed.headers
  · unfold Heap.block
    rw [hlive, hheaders]
    exact h.blocks

theorem TypedBlocks.grow (h : s.TypedBlocks) (layout : Layout) :
    (s.grow layout).1.TypedBlocks := by
  unfold Heap.grow
  split
  next => exact h.growFrom layout _
  next =>
    have hprocess : ({ s with process := s.process.sysBrk 0 } : Heap).TypedBlocks :=
      ⟨⟨h.typed.free, h.typed.headers⟩, h.blocks⟩
    dsimp only
    split
    next => exact hprocess
    next => exact hprocess.growFrom layout _

theorem grow_fails (h : (s.grow layout).2 = false) :
    (s.grow layout).1.allocator.freeList = s.allocator.freeList := by
  have hfrom : ∀ (t : Heap) (c : Nat), (t.growFrom layout c).2 = false →
      (t.growFrom layout c).1.allocator.freeList = t.allocator.freeList := by
    intro t c hfalse
    obtain ⟨-, -, hfree | ⟨htrue, -⟩⟩ := t.growFrom_free layout c
    · exact hfree
    · rw [hfalse] at htrue
      cases htrue
  unfold Heap.grow at h ⊢
  split
  next hi =>
    rw [if_pos hi] at h
    exact hfrom s _ h
  next hi =>
    rw [if_neg hi] at h
    dsimp only at h ⊢
    split
    next => rfl
    next c hc =>
      rw [hc] at h
      exact hfrom _ c h

-- ======== steps

/-- An allocation ends its payload at a multiple of four, or leaves no room
for a free block behind it; it is cut from the free list as it is or, when
it fits nowhere, as a growth leaves it. -/
def Even (s : Heap) : HeapOp → Prop
  | .alloc layout => layout.EndsEven s.allocator.freeList ∧
      (s.allocator.freeList.find? layout.fitsIn = none →
        layout.EndsEven (s.grow layout).1.allocator.freeList)
  | .dealloc _ => True
  | .grow _ => True

theorem endsEven_of_none (h : free.find? layout.fitsIn = none) :
    layout.EndsEven free := by
  intro block hblock
  rw [h] at hblock
  cases hblock

/-- After an allocation the free blocks are aligned exactly if the request was
even. -/
theorem TypedBlocks.alloc (h : s.TypedBlocks) (hs : s.Sound lost)
    (halloc : s.alloc layout 2 = some s') :
    (s.Even (.alloc layout) → s'.TypedBlocks) ∧
      (¬ s.Even (.alloc layout) → ¬ s'.Typed) := by
  unfold Heap.alloc at halloc
  cases htake : s.take layout with
  | some t =>
    rw [htake] at halloc
    cases halloc
    obtain ⟨hkeep, hlose⟩ := h.take hs htake
    obtain ⟨⟨free, p⟩, htry, -⟩ := Option.map_eq_some_iff.mp htake
    obtain ⟨-, block, -, -, -, hfind, -⟩ := tryAlloc_find htry
    refine ⟨fun heven => hkeep heven.1, fun hodd => hlose fun heven => ?_⟩
    refine hodd ⟨heven, fun hnone => ?_⟩
    rw [hnone] at hfind
    cases hfind
  | none =>
    have hnone := tryAlloc_none (Iff.mp take_eq_none_iff htake)
    have heven := endsEven_of_none hnone
    rw [htake] at halloc
    dsimp only at halloc
    have hgrown := h.grow layout
    -- The second round finds room exactly if the break was raised.
    rcases hs.grow layout with ⟨-, htrue, hsound, hroomy⟩ | ⟨-, hfalse, hsound⟩
    · rw [htrue, if_pos rfl] at halloc
      unfold Heap.alloc at halloc
      obtain ⟨t, ht⟩ := Option.isSome_iff_exists.mp hroomy.take_isSome
      rw [ht] at halloc
      cases halloc
      obtain ⟨hkeep, hlose⟩ := hgrown.take hsound ht
      exact ⟨fun he => hkeep (he.2 hnone),
        fun hodd => hlose fun he => hodd ⟨heven, fun _ => he⟩⟩
    · rw [hfalse, if_neg (by decide)] at halloc
      cases halloc
      refine ⟨fun _ => hgrown, fun hodd => absurd ⟨heven, fun _ => ?_⟩ hodd⟩
      rw [grow_fails hfalse]
      exact heven

theorem TypedBlocks.step (h : s.TypedBlocks) (hs : s.Sound lost) {op : HeapOp}
    (hstep : s.step op = some s') :
    (s.Even op → s'.TypedBlocks) ∧ (¬ s.Even op → ¬ s'.Typed) := by
  cases op with
  | alloc layout => exact h.alloc hs hstep
  | dealloc a =>
    unfold Heap.step at hstep
    dsimp only at hstep
    split at hstep
    next ha =>
      cases hstep
      exact ⟨fun _ => h.dealloc ha, fun hodd => absurd trivial hodd⟩
    next => cases hstep
  | grow layout =>
    cases hstep
    exact ⟨fun _ => h.grow layout, fun hodd => absurd trivial hodd⟩

theorem Sound.step (h : s.Sound lost) {op : HeapOp}
    (hstep : s.step op = some s') : ∃ lost', s'.Sound lost' := by
  cases op with
  | alloc layout =>
    obtain ⟨t, ht, hcases⟩ := h.alloc layout
    obtain rfl : t = s' := Option.some.inj (ht.symm.trans hstep)
    rcases hcases with ⟨-, -, hsound⟩ | ⟨-, hsound⟩
    · exact ⟨_, hsound⟩
    · exact ⟨_, hsound⟩
  | dealloc a =>
    unfold Heap.step at hstep
    dsimp only at hstep
    split at hstep
    next ha =>
      cases hstep
      exact ⟨lost, h.dealloc ha⟩
    next => cases hstep
  | grow layout =>
    cases hstep
    rcases h.grow layout with ⟨-, -, hsound, -⟩ | ⟨-, -, hsound⟩
    · exact ⟨_, hsound⟩
    · exact ⟨_, hsound⟩

end Heap

-- ======== runs

/-- From a program's start, every typed header of the heap is aligned in
every state of a run exactly if every allocation along it ends evenly. -/
theorem headers_aligned_iff (process : Process) (ops : List HeapOp) :
    (∀ t ∈ visited Heap.step (.start process) ops, t.Typed) ↔
      Guarded Heap.step Heap.Even (.start process) ops := by
  refine visited_iff_guarded
    (I := fun s => (∃ lost, Heap.Sound lost s) ∧ s.TypedBlocks)
    (fun _ h => h.2.typed) ?_ ?_
    ⟨⟨0, Heap.sound_start process⟩, Heap.typedBlocks_start process⟩
  · intro s op s' h heven hstep
    obtain ⟨⟨lost, hsound⟩, htyped⟩ := h
    exact ⟨hsound.step hstep, (htyped.step hsound hstep).1 heven⟩
  · intro s op s' h hodd hstep
    obtain ⟨⟨lost, hsound⟩, htyped⟩ := h
    exact (htyped.step hsound hstep).2 hodd

def fiveBytes : Layout where
  size := 5
  align := 1
  size_pos := by decide
  align_pow := Nat.isPowerOfTwo_one
  fits := by decide

def pageProcess : Process where
  endCode := 0x1000
  startStack := 0x3ffff000
  brk := 0x1000
  endCode_pos := oddProcess.endCode_pos
  endCode_le := by decide
  brk_lt := by decide

/-- Five bytes from a fresh heap: the rest of the page becomes a free block
thirteen bytes after the break. -/
theorem free_block_misaligned :
    ∃ s, run Heap.step (.start pageProcess) [.alloc fiveBytes] = some s ∧
      s.allocator.freeList = [⟨0x100d, 0xff3⟩] ∧ ¬ s.Typed := by
  have hrun : (run Heap.step (.start pageProcess) [.alloc fiveBytes]).map
      (fun s => s.allocator.freeList) = some [⟨0x100d, 0xff3⟩] := by
    decide
  obtain ⟨s, hs, hfree⟩ := Option.map_eq_some_iff.mp hrun
  refine ⟨s, hs, hfree, fun htyped => ?_⟩
  have hdvd := htyped.free ⟨0x100d, 0xff3⟩ (by rw [hfree]; simp)
  revert hdvd
  decide

end LinuxRs.User
