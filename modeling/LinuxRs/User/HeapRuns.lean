/-
The laws of the heap over whole runs.

# The invariant

`Sound lost` says where blocks lie: free blocks are spaced, live blocks
are apart from them and from each other, and each holds its header and its
payload. The sizes of all blocks and `lost` add up to the heap.

# What is lost

Cutting and merging lose nothing. A growth rounds the old end of the heap
up before it frees the new range, so from the second growth on the bytes up
to the next multiple of four belong to no block. The laws hold along a run
exactly when every growth after the first starts at such a multiple.
-/
import LinuxRs.User.HeapBlocks
import LinuxRs.Lib.Run

namespace LinuxRs.User

open LinuxRs.Lib Extent

-- ======== the laws

def Allocation.footprint (a : Allocation) : Extent :=
  ⟨a.ptr - headerSize, headerSize + a.layout.size⟩

namespace Heap

variable {s s' : Heap} {lost : Nat} {layout : Layout}

def block (s : Heap) (a : Allocation) : Extent :=
  ⟨(s.allocator.headers (a.ptr - headerSize)).blockStart,
    (s.allocator.headers (a.ptr - headerSize)).blockSize⟩

/-- What the heap owes its users, and that every byte is accounted for. -/
structure Law (s : Heap) : Prop where
  sorted : s.allocator.freeList.Pairwise fun b c => b.start < c.start
  coalesced : s.allocator.freeList.Pairwise fun b c =>
    Apart b c ∧ b.stop ≠ c.start ∧ c.stop ≠ b.start
  free : ∀ b ∈ s.allocator.freeList, ∀ a ∈ s.live, Apart b (s.block a)
  aligned : ∀ a ∈ s.live, 0 < a.ptr ∧ a.layout.align ∣ a.ptr
  room : ∀ a ∈ s.live, headerSize ≤ a.ptr ∧ Within a.footprint (s.block a)
  blocks : s.live.Pairwise fun a c => Apart (s.block a) (s.block c)
  payloads : s.live.Pairwise fun a c => Apart a.footprint c.footprint
  conserved : total s.allocator.freeList + total (s.live.map s.block) =
    s.allocator.heapEnd - s.base

/-- The invariant of the heap, with the number of bytes that belong to no
block. -/
structure Sound (lost : Nat) (s : Heap) : Prop where
  spaced : Spaced s.allocator.freeList
  large : ∀ b ∈ s.allocator.freeList, minFreeBlockSize ≤ b.size
  freeIn : ∀ b ∈ s.allocator.freeList,
    s.base ≤ b.start ∧ b.stop ≤ s.allocator.heapEnd
  free : ∀ b ∈ s.allocator.freeList, ∀ a ∈ s.live, Apart b (s.block a)
  aligned : ∀ a ∈ s.live, a.layout.align ∣ a.ptr
  room : ∀ a ∈ s.live, headerSize ≤ a.ptr ∧ Within a.footprint (s.block a)
  liveIn : ∀ a ∈ s.live,
    s.base ≤ (s.block a).start ∧ (s.block a).stop ≤ s.allocator.heapEnd
  blocks : s.live.Pairwise fun a c => Apart (s.block a) (s.block c)
  conserved : total s.allocator.freeList + total (s.live.map s.block) + lost
    + s.base = s.allocator.heapEnd
  fresh : s.allocator.initialized = false →
    s.allocator.freeList = [] ∧ s.live = [] ∧ lost = 0
  code : s.allocator.initialized = true →
    s.process.endCode ≤ s.allocator.heapEnd
  brk : s.allocator.initialized = true →
    s.process.brk = s.allocator.heapEnd ∨ 0x80000000 ≤ s.process.brk
  bound : s.allocator.heapEnd < usizeLimit

theorem Sound.law (h : s.Sound 0) : s.Law where
  sorted := by
    refine h.spaced.imp fun {b c} hlt => ?_
    unfold stop at hlt
    omega
  coalesced := h.spaced.gap
  free := h.free
  aligned a ha := ⟨Nat.lt_of_lt_of_le (by decide) (h.room a ha).1, h.aligned a ha⟩
  room := h.room
  blocks := h.blocks
  payloads := by
    refine h.blocks.imp_of_mem fun {a c} ha hc hapart => ?_
    have hleft := hapart.of_within (h.room a ha).2
    exact (hleft.symm.of_within (h.room c hc).2).symm
  conserved := by
    have hsum := h.conserved
    omega

theorem Sound.not_law (h : s.Sound lost) (hlost : lost ≠ 0) : ¬ s.Law := by
  intro hlaw
  have hsum := h.conserved
  have hlaw := hlaw.conserved
  omega

theorem sound_start (process : Process) : (Heap.start process).Sound 0 where
  spaced := List.Pairwise.nil
  large _ hb := by cases hb
  freeIn _ hb := by cases hb
  free _ hb := by cases hb
  aligned _ ha := by cases ha
  room _ ha := by cases ha
  liveIn _ ha := by cases ha
  blocks := List.Pairwise.nil
  conserved := rfl
  fresh _ := ⟨rfl, rfl, rfl⟩
  code h := by cases h
  brk h := by cases h
  bound := show 0 < usizeLimit by decide

-- ======== allocating

theorem Sound.header_ne (h : s.Sound lost) {b : Extent} {a : Allocation}
    {header : Nat} (ha : a ∈ s.live) (hapart : Apart b (s.block a))
    (hlow : b.start ≤ header) (hhigh : header + headerSize ≤ b.stop) :
    a.ptr - headerSize ≠ header := by
  obtain ⟨hptr, hstart, hstop⟩ := h.room a ha
  unfold Apart Allocation.footprint stop headerSize at *
  dsimp only at *
  omega

theorem cut_spaced {p : Placement} {pre post : List FreeBlock}
    {current : FreeBlock} (hdiv : p.Divides layout current)
    (h : Spaced (pre ++ current :: post)) :
    Spaced (pre ++ (p.remainder current ++ post)) := by
  obtain ⟨hpre, hpost, hcross⟩ := List.pairwise_append.mp h
  refine List.pairwise_append.mpr ⟨hpre, hdiv.spaced hpost, fun b hb f hf => ?_⟩
  rcases List.mem_append.mp hf with hf | hf
  · have hgap := hcross b hb current List.mem_cons_self
    exact hgap.trans_le (hdiv.remainder_mem hf).1.1
  · exact hcross b hb f (List.mem_cons_of_mem _ hf)

theorem mem_cut {p : Placement} {pre post : List FreeBlock}
    {current b : FreeBlock} (hdiv : p.Divides layout current)
    (hs : Spaced (pre ++ current :: post))
    (hb : b ∈ pre ++ (p.remainder current ++ post)) :
    (b ∈ pre ++ current :: post ∧ Apart b current) ∨
      (b ∈ p.remainder current ∧ Within b current) := by
  obtain ⟨-, hpost, hcross⟩ := List.pairwise_append.mp hs
  rcases List.mem_append.mp hb with hb | hb
  · refine .inl ⟨List.mem_append_left _ hb, .inl ?_⟩
    exact (hcross b hb current List.mem_cons_self).le
  · rcases List.mem_append.mp hb with hb | hb
    · exact .inr ⟨hb, (hdiv.remainder_mem hb).1⟩
    · refine .inl ⟨?_, .inr (List.rel_of_pairwise_cons hpost hb).le⟩
      exact List.mem_append_right _ (List.mem_cons_of_mem _ hb)

/-- A block that is cut leaves the heap sound. -/
theorem Sound.cut {p : Placement} {pre post : List FreeBlock}
    {current : FreeBlock} {a₀ : Allocation}
    (h : s.Sound lost) (hfree : s.allocator.freeList = pre ++ current :: post)
    (hdiv : p.Divides layout current) (ha₀ : a₀ = ⟨p.payloadStart, layout⟩)
    (hfree' : s'.allocator.freeList = pre ++ (p.remainder current ++ post))
    (hlive' : s'.live = a₀ :: s.live)
    (hnew : s'.block a₀ = ⟨p.blockStart, p.blockSize⟩)
    (hold : ∀ a ∈ s.live, s'.block a = s.block a)
    (hend : s'.allocator.heapEnd = s.allocator.heapEnd)
    (hbase : s'.base = s.base) (hprocess : s'.process = s.process)
    (hinit : s'.allocator.initialized = s.allocator.initialized) :
    s'.Sound lost := by
  have hspaced := h.spaced
  rw [hfree] at hspaced
  have hcur : current ∈ s.allocator.freeList := by
    rw [hfree]
    exact List.mem_append_right _ List.mem_cons_self
  obtain ⟨hcurlow, hcurhigh⟩ := h.freeIn current hcur
  have hmem : ∀ b ∈ s'.allocator.freeList,
      (b ∈ s.allocator.freeList ∧ Apart b current) ∨
        (b ∈ p.remainder current ∧ Within b current) := by
    intro b hb
    rw [hfree'] at hb
    rw [hfree]
    exact mem_cut hdiv hspaced hb
  refine ⟨?_, fun b hb => ?_, fun b hb => ?_, fun b hb a ha => ?_,
    fun a ha => ?_, fun a ha => ?_, fun a ha => ?_, ?_, ?_, fun hu => ?_,
    ?_, ?_, ?_⟩
  · rw [hfree']
    exact cut_spaced hdiv hspaced
  · rcases hmem b hb with ⟨hb, -⟩ | ⟨hb, -⟩
    · exact h.large b hb
    · exact (hdiv.remainder_mem hb).2.2
  · rw [hbase, hend]
    rcases hmem b hb with ⟨hb, -⟩ | ⟨-, hw⟩
    · exact h.freeIn b hb
    · exact ⟨hcurlow.trans hw.1, hw.2.trans hcurhigh⟩
  · rw [hlive'] at ha
    rcases List.mem_cons.mp ha with rfl | ha
    · rw [hnew]
      rcases hmem b hb with ⟨-, hapart⟩ | ⟨hb, -⟩
      · exact (hapart.symm.of_within hdiv.within).symm
      · exact (hdiv.remainder_mem hb).2.1
    · rw [hold a ha]
      rcases hmem b hb with ⟨hb, -⟩ | ⟨-, hw⟩
      · exact h.free b hb a ha
      · exact (h.free current hcur a ha).of_within hw
  · rw [hlive'] at ha
    rcases List.mem_cons.mp ha with rfl | ha
    · rw [ha₀]
      exact hdiv.aligned
    · exact h.aligned a ha
  · rw [hlive'] at ha
    rcases List.mem_cons.mp ha with rfl | ha
    · rw [hnew, ha₀]
      have hheader := hdiv.header
      have hpayload := hdiv.payload
      have hfits := hdiv.fits
      have hblock := hdiv.block_eq
      unfold Allocation.footprint Within stop
      dsimp only
      omega
    · rw [hold a ha]
      exact h.room a ha
  · rw [hlive'] at ha
    rw [hbase, hend]
    rcases List.mem_cons.mp ha with rfl | ha
    · rw [hnew]
      exact ⟨hcurlow.trans hdiv.within.1, hdiv.within.2.trans hcurhigh⟩
    · rw [hold a ha]
      exact h.liveIn a ha
  · rw [hlive']
    refine List.pairwise_cons.mpr ⟨fun a ha => ?_, ?_⟩
    · rw [hnew, hold a ha]
      exact (h.free current hcur a ha).of_within hdiv.within
    · refine h.blocks.imp_of_mem fun {a c} ha hc hapart => ?_
      rw [hold a ha, hold c hc]
      exact hapart
  · have hsum := h.conserved
    have hcut := hdiv.total_remainder
    have hmap : s.live.map s'.block = s.live.map s.block :=
      List.map_congr_left hold
    rw [hfree'] 
    rw [hfree] at hsum
    rw [hlive', List.map_cons, hnew, hmap, hbase, hend]
    simp only [total_append, total_cons] at hsum ⊢
    omega
  · rw [hinit] at hu
    rw [(h.fresh hu).1] at hcur
    cases hcur
  · rw [hinit, hprocess, hend]
    exact h.code
  · rw [hinit, hprocess, hend]
    exact h.brk
  · rw [hend]
    exact h.bound

/-- An allocation from the free list keeps the heap sound. -/
theorem Sound.take (h : s.Sound lost) (htake : s.take layout = some s') :
    s'.Sound lost := by
  obtain ⟨⟨free, p⟩, htry, rfl⟩ := Option.map_eq_some_iff.mp htake
  obtain ⟨pre, current, post, hfree, rfl, hdiv⟩ := tryAlloc_spec htry
  have hcur : current ∈ s.allocator.freeList := by
    rw [hfree]
    exact List.mem_append_right _ List.mem_cons_self
  have hptr : p.payloadStart - headerSize = p.headerStart := by
    rw [hdiv.payload, Nat.add_sub_cancel]
  refine h.cut hfree hdiv rfl rfl rfl ?_ (fun a ha => ?_) rfl rfl rfl rfl
  · unfold Heap.block
    dsimp only
    rw [hptr, Function.update_self]
  · -- The new header overwrites none of the old ones.
    have hne : a.ptr - headerSize ≠ p.headerStart := by
      refine h.header_ne ha ((h.free current hcur a ha).of_within hdiv.within)
        hdiv.header ?_
      have hpayload := hdiv.payload
      have hfits := hdiv.fits
      have hblock := hdiv.block_eq
      unfold stop
      dsimp only
      omega
    unfold Heap.block
    dsimp only
    rw [Function.update_of_ne hne]

-- ======== releasing

theorem Sound.pos (h : s.Sound lost) :
    ∀ b ∈ s.allocator.freeList, 0 < b.size :=
  fun b hb => Nat.lt_of_lt_of_le (by decide) (h.large b hb)

theorem Sound.block_large (h : s.Sound lost) {a : Allocation}
    (ha : a ∈ s.live) : minFreeBlockSize ≤ (s.block a).size := by
  obtain ⟨hptr, hstart, hstop⟩ := h.room a ha
  unfold Allocation.footprint stop headerSize at *
  unfold minFreeBlockSize
  dsimp only at *
  omega

/-- Memory that comes back is free again, and joined. -/
theorem Sound.putBack {lost' : Nat} {e : Extent} (h : s.Sound lost)
    (hlarge : minFreeBlockSize ≤ e.size)
    (hapart : ∀ b ∈ s.allocator.freeList, Apart e b)
    (hfree' : s'.allocator.freeList = insertFreeBlock e s.allocator.freeList)
    (hblock : s'.block = s.block) (hsub : ∀ a ∈ s'.live, a ∈ s.live)
    (hpairs : s'.live.Pairwise fun a c => Apart (s.block a) (s.block c))
    (hlive : ∀ a ∈ s'.live, Apart e (s.block a) ∧
      s'.base ≤ (s.block a).start ∧ (s.block a).stop ≤ s'.allocator.heapEnd)
    (hin : ∀ b ∈ e :: s.allocator.freeList,
      s'.base ≤ b.start ∧ b.stop ≤ s'.allocator.heapEnd)
    (hsum : e.size + total s.allocator.freeList
      + total (s'.live.map s.block) + lost' + s'.base = s'.allocator.heapEnd)
    (hinit : s'.allocator.initialized = true)
    (hcode : s'.process.endCode ≤ s'.allocator.heapEnd)
    (hbrk : s'.process.brk = s'.allocator.heapEnd ∨
      0x80000000 ≤ s'.process.brk)
    (hbound : s'.allocator.heapEnd < usizeLimit) :
    s'.Sound lost' ∧ ∃ b ∈ s'.allocator.freeList, Within e b := by
  obtain ⟨hjoins, hspaced⟩ :=
    insertFreeBlock_spec h.spaced h.pos hlarge hapart
  rw [← hfree'] at hjoins hspaced
  refine ⟨⟨hspaced, fun b hb => ?_, fun b hb => ?_, fun b hb a ha => ?_,
    fun a ha => h.aligned a (hsub a ha), fun a ha => ?_, fun a ha => ?_, ?_,
    ?_, fun hu => ?_, fun _ => hcode, fun _ => hbrk, hbound⟩,
    hjoins.covers e List.mem_cons_self⟩
  · obtain ⟨c, hc, -, -, -, -, hsize⟩ := hjoins.ends b hb
    rcases List.mem_cons.mp hc with rfl | hc
    · exact hlarge.trans hsize
    · exact (h.large c hc).trans hsize
  · obtain ⟨c, hc, d, hd, hstart, hstop, -⟩ := hjoins.ends b hb
    rw [hstart, hstop]
    exact ⟨(hin c hc).1, (hin d hd).2⟩
  · rw [hblock]
    refine (hjoins.apart (s.block a) ?_ (fun c hc => ?_) b hb).symm
    · exact Nat.lt_of_lt_of_le (by decide) (h.block_large (hsub a ha))
    · rcases List.mem_cons.mp hc with rfl | hc
      · exact (hlive a ha).1.symm
      · exact (h.free c hc a (hsub a ha)).symm
  · rw [hblock]
    exact h.room a (hsub a ha)
  · rw [hblock]
    exact (hlive a ha).2
  · rw [hblock]
    exact hpairs
  · have htotal := hjoins.total
    rw [total_cons] at htotal
    rw [hblock, htotal]
    exact hsum
  · rw [hinit] at hu
    cases hu

theorem Sound.initialized_of_mem (h : s.Sound lost) {a : Allocation}
    (ha : a ∈ s.live) : s.allocator.initialized = true := by
  cases hi : s.allocator.initialized with
  | false =>
    rw [(h.fresh hi).2.1] at ha
    cases ha
  | true => rfl

theorem Sound.dealloc (h : s.Sound lost) {a : Allocation} (ha : a ∈ s.live) :
    (s.dealloc a).Sound lost := by
  have hperm : s.live.Perm (a :: s.live.erase a) := List.perm_cons_erase ha
  have hinit := h.initialized_of_mem ha
  obtain ⟨hothers, hrest⟩ := List.pairwise_cons.mp
    ((hperm.pairwise_iff fun hapart => hapart.symm).mp h.blocks)
  have hsum := h.conserved
  rw [total_perm (hperm.map s.block), List.map_cons, total_cons] at hsum
  have hlist : (s.dealloc a).allocator.freeList
      = insertFreeBlock (s.block a) s.allocator.freeList := rfl
  refine (h.putBack (e := s.block a) (h.block_large ha)
    (fun b hb => (h.free b hb a ha).symm) hlist rfl
    (fun c hc => List.mem_of_mem_erase hc) hrest
    (fun c hc => ⟨hothers c hc, h.liveIn c (List.mem_of_mem_erase hc)⟩)
    (fun b hb => ?_) ?_ hinit (h.code hinit) (h.brk hinit) h.bound).1
  · rcases List.mem_cons.mp hb with rfl | hb
    · exact h.liveIn a ha
    · exact h.freeIn b hb
  · show (s.block a).size + total s.allocator.freeList
      + total ((s.live.erase a).map s.block) + lost + s.base
        = s.allocator.heapEnd
    omega

-- ======== growing

theorem growSize_spec (layout : Layout) :
    layout.size + layout.align + 16 ≤ growSize layout ∧
      pageSize ≤ growSize layout ∧ pageSize ∣ growSize layout := by
  have hfits := layout.fits
  have hneeded : saturatingAdd (saturatingAdd (saturatingAdd layout.size
      headerSize) layout.align) minFreeBlockSize
        = layout.size + layout.align + 16 := by
    unfold saturatingAdd headerSize minFreeBlockSize usizeLimit
    omega
  have hcases := alignUp_cases pageSize_pow (by decide)
    (show max (layout.size + layout.align + 16) pageSize < usizeLimit by
      unfold pageSize usizeLimit
      omega)
  unfold growSize
  rw [hneeded]
  dsimp only
  rcases hcases with ⟨-, hround⟩ | ⟨hwrap, -⟩
  · have hle := hround.le
    exact ⟨by omega, by omega, hround.dvd⟩
  · unfold pageSize usizeLimit at hwrap
    omega

theorem alignUp_headerAlign (addr : Nat) (h : addr + pageSize ≤ usizeLimit) :
    RoundsTo addr headerAlign (alignUp addr headerAlign) := by
  have hcases := alignUp_cases headerAlign_pow (by decide)
    (show addr < usizeLimit by unfold pageSize at h; omega)
  rcases hcases with ⟨-, hround⟩ | ⟨hwrap, -⟩
  · exact hround
  · unfold headerAlign at hwrap
    unfold pageSize at h
    omega

/-- The bytes between an end of the heap and the block that a growth from
there adds. -/
def gap (s : Heap) : Nat :=
  if s.allocator.initialized then
    alignUp s.allocator.heapEnd headerAlign - s.allocator.heapEnd
  else 0

/-- The new memory is a free block behind the others. -/
theorem Sound.extend (h : s.Sound lost) {p : Process} {c n : Nat}
    (hc : s.allocator.initialized = true → c = s.allocator.heapEnd)
    (hcode : p.endCode ≤ n) (hbrk : p.brk = n)
    (hgrow : c + pageSize ≤ n) (hn : n < usizeLimit) :
    let r := ({ s with process := p } : Heap).extend c n
    r.2 = true ∧ r.1.Sound (lost + s.gap) ∧ ∃ b ∈ r.1.allocator.freeList,
        Within ⟨alignUp c headerAlign, n - alignUp c headerAlign⟩ b := by
  intro r
  have hround := alignUp_headerAlign c (by omega)
  have hle := hround.le
  have hlt := hround.lt
  have hmin : minFreeBlockSize ≤ n - alignUp c headerAlign := by
    unfold minFreeBlockSize headerAlign pageSize at *
    omega
  have hpos : ¬ n ≤ alignUp c headerAlign := by
    unfold minFreeBlockSize at hmin
    omega
  have hext : r = ({ s with
      process := p
      base := if s.allocator.initialized then s.base
        else alignUp c headerAlign
      allocator := { s.allocator with
        initialized := true
        heapEnd := n
        freeList := insertFreeBlock
          ⟨alignUp c headerAlign, n - alignUp c headerAlign⟩
          s.allocator.freeList } }, true) := by
    unfold r Heap.extend
    rw [if_neg hpos, if_neg (Nat.not_lt.mpr hmin)]
  rw [hext]
  refine ⟨rfl, ?_⟩
  have hsum := h.conserved
  cases hi : s.allocator.initialized with
  | false =>
    obtain ⟨hfree, hlive, rfl⟩ := h.fresh hi
    have hgap : s.gap = 0 := by simp [Heap.gap, hi]
    refine h.putBack hmin ?_ rfl rfl (fun a ha => ha) h.blocks ?_ ?_ ?_ rfl
      hcode (.inl hbrk) hn
    · intro b hb
      rw [hfree] at hb
      cases hb
    · intro a ha
      rw [hlive] at ha
      cases ha
    · intro b hb
      rw [hfree] at hb
      obtain rfl := List.mem_singleton.mp hb
      unfold stop
      simp only [Bool.false_eq_true, if_false]
      omega
    · dsimp only
      rw [hfree, hlive, hgap]
      simp only [Bool.false_eq_true, if_false, total_nil, List.map_nil]
      omega
  | true =>
    obtain rfl := hc hi
    have hgap : s.gap = alignUp s.allocator.heapEnd headerAlign
        - s.allocator.heapEnd := by simp [Heap.gap, hi]
    -- Everything old ends where the heap ended.
    refine h.putBack hmin ?_ rfl rfl (fun a ha => ha) h.blocks ?_ ?_ ?_ rfl
      hcode (.inl hbrk) hn
    · intro b hb
      exact .inr ((h.freeIn b hb).2.trans hle)
    · intro a ha
      obtain ⟨hlow, hhigh⟩ := h.liveIn a ha
      refine ⟨.inr (hhigh.trans hle), hlow, ?_⟩
      dsimp only
      omega
    · intro b hb
      rcases List.mem_cons.mp hb with rfl | hb
      · unfold stop
        simp only [if_true]
        omega
      · obtain ⟨hlow, hhigh⟩ := h.freeIn b hb
        refine ⟨hlow, ?_⟩
        dsimp only
        omega
    · dsimp only
      rw [hgap]
      simp only [if_true]
      omega

/-- The kernel grants the growth from `c`, to a positive address. -/
def Grants (s : Heap) (layout : Layout) (c : Nat) : Prop :=
  c + growSize layout < s.process.limit ∧ c + growSize layout < 0x80000000

/-- Some free block holds the layout with all its padding. -/
def Roomy (s : Heap) (layout : Layout) : Prop :=
  ∃ b ∈ s.allocator.freeList, b.stop < usizeLimit ∧ ∃ start, b.start ≤ start ∧
      start + layout.size + layout.align + 13 ≤ b.stop

/-- A growth from the end of the heap loses nothing but a gap in front of
it. -/
theorem Sound.growFrom (h : s.Sound lost) {c : Nat}
    (hc : s.allocator.initialized = true → c = s.allocator.heapEnd)
    (hcode : s.process.endCode ≤ c)
    (hbrk : s.process.brk = c ∨ 0x80000000 ≤ s.process.brk) :
    (s.Grants layout c ∧ (s.growFrom layout c).2 = true ∧
        (s.growFrom layout c).1.Sound (lost + s.gap) ∧
        (s.growFrom layout c).1.Roomy layout) ∨
      (¬ s.Grants layout c ∧ (s.growFrom layout c).2 = false ∧
        (s.growFrom layout c).1.Sound lost) := by
  obtain ⟨hneed, hpage, -⟩ := growSize_spec layout
  have hstay : ∀ p : Process, p.endCode = s.process.endCode →
      (p.brk = s.process.brk ∨ 0x80000000 ≤ p.brk) →
      ({ s with process := p } : Heap).Sound lost := by
    intro p hend hp
    refine ⟨h.spaced, h.large, h.freeIn, h.free, h.aligned, h.room, h.liveIn,
      h.blocks, h.conserved, h.fresh, fun hi => ?_, fun hi => ?_, h.bound⟩
    · dsimp only
      rw [hend]
      exact h.code hi
    · rcases hp with hp | hp
      · dsimp only
        rw [hp]
        exact h.brk hi
      · exact .inr hp
  by_cases hg : s.Grants layout c
  · refine .inl ⟨hg, ?_⟩
    obtain ⟨hlimit, hsigned⟩ := hg
    have hlt : c + growSize layout < usizeLimit :=
      hlimit.trans s.process.limit_lt
    have hadd : checkedAdd c (growSize layout) = some (c + growSize layout) :=
      if_pos hlt
    have hset : (s.process.sysBrk (c + growSize layout)).brk
        = c + growSize layout := by
      unfold Process.sysBrk
      rw [dif_pos ⟨by omega, hlimit⟩]
    have hend : (s.process.sysBrk (c + growSize layout)).endCode
        = s.process.endCode := by
      unfold Process.sysBrk
      split <;> rfl
    have hresult : (s.process.sysBrk (c + growSize layout)).brkResult
        = some (c + growSize layout) := by
      unfold Process.brkResult
      rw [hset, if_pos hsigned]
    have heq : s.growFrom layout c = ({ s with
        process := s.process.sysBrk (c + growSize layout) } : Heap).extend c
          (c + growSize layout) := by
      unfold Heap.growFrom
      rw [hadd]
      dsimp only
      rw [hresult]
      dsimp only
      rw [if_neg (Nat.lt_irrefl _)]
    obtain ⟨htrue, hsound, b, hb, hw⟩ := h.extend
      (p := s.process.sysBrk (c + growSize layout)) hc
      (by rw [hend]; omega) hset (Nat.add_le_add_left hpage c) hlt
    rw [heq]
    refine ⟨htrue, hsound, b, hb, ?_, alignUp c headerAlign, hw.1, ?_⟩
    · have hin := (hsound.freeIn b hb).2
      exact Nat.lt_of_le_of_lt hin hsound.bound
    · have hround := alignUp_headerAlign c (by omega)
      have hup := hround.lt
      have hle := hround.le
      have hstop := hw.2
      unfold stop headerAlign at *
      dsimp only at hstop
      omega
  · refine .inr ⟨hg, ?_⟩
    unfold Heap.growFrom
    split
    next => exact ⟨rfl, h⟩
    next newBreak hadd =>
      obtain ⟨rfl, hlt⟩ := checkedAdd_some hadd
      have hset : (s.process.sysBrk (c + growSize layout)) = s.process ∨
          ((s.process.sysBrk (c + growSize layout)).brk
            = c + growSize layout ∧ c + growSize layout < s.process.limit) := by
        unfold Process.sysBrk
        split
        next hok => exact .inr ⟨rfl, hok.2⟩
        next => exact .inl rfl
      have hend : (s.process.sysBrk (c + growSize layout)).endCode
          = s.process.endCode := by
        unfold Process.sysBrk
        split <;> rfl
      dsimp only
      split
      next hresult =>
        refine ⟨rfl, hstay _ hend (.inr ?_)⟩
        unfold Process.brkResult at hresult
        split at hresult
        next => cases hresult
        next hbig => exact Nat.le_of_not_lt hbig
      next actual hresult =>
        have hactual : (s.process.sysBrk (c + growSize layout)).brk = actual ∧
            actual < 0x80000000 := by
          unfold Process.brkResult at hresult
          split at hresult
          next hsmall =>
            cases hresult
            exact ⟨rfl, hsmall⟩
          next => cases hresult
        obtain ⟨rfl, hsmall⟩ := hactual
        split
        next hshort =>
          refine ⟨rfl, hstay _ hend (.inl ?_)⟩
          rcases hset with hset | ⟨hset, -⟩
          · rw [hset]
          · omega
        next hlong =>
          exfalso
          unfold Heap.Grants at hg
          rcases hset with hset | ⟨hset, hlimit⟩
          · rw [hset] at hlong hsmall
            omega
          · omega

def currentBreak (s : Heap) : Nat :=
  if s.allocator.initialized then s.allocator.heapEnd else s.process.brk

def Raises (s : Heap) (layout : Layout) : Prop :=
  s.Grants layout s.currentBreak

theorem sysBrk_zero (p : Process) : p.sysBrk 0 = p := by
  unfold Process.sysBrk
  rw [dif_neg]
  have hpos := p.endCode_pos
  omega

/-- A growth goes through and makes room, or leaves the heap as it was. -/
theorem Sound.grow (h : s.Sound lost) (layout : Layout) :
    (s.Raises layout ∧ (s.grow layout).2 = true ∧
        (s.grow layout).1.Sound (lost + s.gap) ∧
        (s.grow layout).1.Roomy layout) ∨
      (¬ s.Raises layout ∧ (s.grow layout).2 = false ∧
        (s.grow layout).1.Sound lost) := by
  unfold Raises currentBreak Heap.grow
  cases hi : s.allocator.initialized with
  | true =>
    simp only [if_true]
    exact h.growFrom (fun _ => rfl) (h.code hi) (h.brk hi)
  | false =>
    simp only [Bool.false_eq_true, if_false, sysBrk_zero]
    unfold Process.brkResult
    split
    next hnone =>
      split at hnone
      next => cases hnone
      next hbig =>
        refine .inr ⟨fun hg => ?_, rfl, h⟩
        have hsigned := hg.2
        omega
    next c hsome =>
      split at hsome
      next =>
        cases hsome
        refine h.growFrom (fun hinit => ?_) s.process.endCode_le (.inl rfl)
        rw [hi] at hinit
        cases hinit
      next => cases hsome

-- ======== steps

/-- A block with room for header, rounding and rest holds the request. -/
theorem placement_isSome {b : FreeBlock} {start : Nat}
    (hstart : b.start ≤ start) (hbound : b.stop < usizeLimit)
    (hroom : start + layout.size + layout.align + 13 ≤ b.stop) :
    (Placement.new b.start b.size layout).isSome = true := by
  have hend : checkedAdd b.start b.size = some b.stop := if_pos hbound
  have hfirst : checkedAdd b.start headerSize = some (b.start + headerSize) := by
    apply if_pos
    unfold headerSize
    omega
  have halign : max layout.align headerAlign ≤ layout.align + 4 := by
    unfold headerAlign
    omega
  have hround : RoundsTo (b.start + headerSize) (max layout.align headerAlign)
      (alignUp (b.start + headerSize) (max layout.align headerAlign)) := by
    have hcases := alignUp_cases layout.payloadAlign_pow (by omega)
      (show b.start + headerSize < usizeLimit by unfold headerSize; omega)
    rcases hcases with ⟨-, hround⟩ | ⟨hwrap, -⟩
    · exact hround
    · unfold headerSize at hwrap
      omega
  have hle := hround.le
  have hlt := hround.lt
  have hheader : checkedSub (alignUp (b.start + headerSize)
      (max layout.align headerAlign)) headerSize = some (alignUp
        (b.start + headerSize) (max layout.align headerAlign) - headerSize) := by
    apply if_pos
    omega
  have hreq : checkedAdd (alignUp (b.start + headerSize)
      (max layout.align headerAlign)) layout.size = some (alignUp
        (b.start + headerSize) (max layout.align headerAlign) + layout.size) := by
    apply if_pos
    unfold headerSize at hle hlt ⊢
    omega
  unfold Placement.new
  rw [hend, Option.bind_some, hfirst, Option.bind_some]
  dsimp only
  rw [hheader, Option.bind_some, hreq, Option.bind_some, if_neg]
  · rfl
  · unfold headerSize at *
    omega

theorem Roomy.take_isSome (h : s.Roomy layout) :
    (s.take layout).isSome = true := by
  obtain ⟨b, hb, hbound, start, hstart, hroom⟩ := h
  unfold Heap.take
  rw [Option.isSome_map]
  apply tryAlloc_isSome hb
  exact placement_isSome hstart hbound hroom

theorem take_eq_none_iff : s.take layout = none ↔
    tryAlloc layout s.allocator.freeList = none :=
  Option.map_eq_none_iff

/-- An allocation takes a block, grows the heap or changes nothing. -/
theorem Sound.alloc (h : s.Sound lost) (layout : Layout) :
    ∃ s', s.alloc layout 2 = some s' ∧
      ((tryAlloc layout s.allocator.freeList = none ∧ s.Raises layout ∧
          s'.Sound (lost + s.gap)) ∨
        (¬ (tryAlloc layout s.allocator.freeList = none ∧ s.Raises layout) ∧
          s'.Sound lost)) := by
  unfold Heap.alloc
  cases htake : s.take layout with
  | some s' =>
    refine ⟨s', rfl, .inr ⟨fun hn => ?_, h.take htake⟩⟩
    rw [Iff.mpr take_eq_none_iff hn.1] at htake
    cases htake
  | none =>
    have hnone := Iff.mp take_eq_none_iff htake
    dsimp only
    rcases h.grow layout with ⟨hr, htrue, hsound, hroomy⟩ | ⟨hr, hfalse, hsound⟩
    · rw [htrue, if_pos rfl]
      unfold Heap.alloc
      obtain ⟨s', hs'⟩ := Option.isSome_iff_exists.mp hroomy.take_isSome
      rw [hs']
      exact ⟨s', rfl, .inl ⟨hnone, hr, hsound.take hs'⟩⟩
    · rw [hfalse, if_neg (by decide)]
      exact ⟨_, rfl, .inr ⟨fun hn => hr hn.2, hsound⟩⟩

/-- A growth starts a heap, or at a multiple of the alignment of a free
block. -/
def Flush (s : Heap) : Prop :=
  s.allocator.initialized = true → headerAlign ∣ s.allocator.heapEnd

/-- The step does not grow the heap from an end that is not aligned. -/
def Seamless (s : Heap) : HeapOp → Prop
  | .alloc layout => tryAlloc layout s.allocator.freeList = none →
      s.Raises layout → s.Flush
  | .dealloc _ => True
  | .grow layout => s.Raises layout → s.Flush

theorem gap_eq_zero_iff (h : s.Raises layout) : s.gap = 0 ↔ s.Flush := by
  unfold gap Flush
  cases hi : s.allocator.initialized with
  | false => simp
  | true =>
    have hc : s.currentBreak = s.allocator.heapEnd := by
      simp [currentBreak, hi]
    obtain ⟨hlimit, hsigned⟩ := h
    obtain ⟨-, hpage, -⟩ := growSize_spec layout
    rw [hc] at hsigned
    have hround := alignUp_headerAlign s.allocator.heapEnd
      (by unfold usizeLimit; omega)
    have hle := hround.le
    have hlt := hround.lt
    have hdvd := hround.dvd
    simp only [if_true, forall_const]
    unfold headerAlign at *
    omega

/-- A call loses no byte exactly if no gap is left in front of a growth. -/
theorem Sound.step_iff (h : s.Sound 0) {op : HeapOp}
    (hstep : s.step op = some s') :
    ∃ lost, s'.Sound lost ∧ (lost = 0 ↔ s.Seamless op) := by
  cases op with
  | alloc layout =>
    obtain ⟨t, ht, hcases⟩ := h.alloc layout
    obtain rfl : t = s' := Option.some.inj (ht.symm.trans hstep)
    rcases hcases with ⟨hnone, hr, hsound⟩ | ⟨hn, hsound⟩
    · refine ⟨_, hsound, ?_⟩
      rw [Nat.zero_add, gap_eq_zero_iff hr]
      exact ⟨fun hf _ _ => hf, fun hs => hs hnone hr⟩
    · exact ⟨0, hsound, fun _ hnone hr => absurd ⟨hnone, hr⟩ hn, fun _ => rfl⟩
  | dealloc a =>
    unfold Heap.step at hstep
    dsimp only at hstep
    split at hstep
    next ha =>
      cases hstep
      exact ⟨0, h.dealloc ha, fun _ => trivial, fun _ => rfl⟩
    next => cases hstep
  | grow layout =>
    cases hstep
    rcases h.grow layout with ⟨hr, -, hsound, -⟩ | ⟨hr, -, hsound⟩
    · refine ⟨_, hsound, ?_⟩
      rw [Nat.zero_add, gap_eq_zero_iff hr]
      exact ⟨fun hf _ => hf, fun hs => hs hr⟩
    · exact ⟨0, hsound, fun _ hraise => absurd hraise hr, fun _ => rfl⟩

end Heap

-- ======== runs

/-- From a program's start, the laws of the heap hold in every state of a
run exactly if no step grows the heap from an end that is not a multiple
of four. -/
theorem heap_accounts_iff (process : Process) (ops : List HeapOp) :
    (∀ t ∈ visited Heap.step (.start process) ops, t.Law) ↔
      Guarded Heap.step Heap.Seamless (.start process) ops := by
  refine visited_iff_guarded (I := Heap.Sound 0) (fun _ h => h.law) ?_ ?_
    (Heap.sound_start process)
  · intro s op s' h hseamless hstep
    obtain ⟨lost, hsound, hiff⟩ := h.step_iff hstep
    obtain rfl := hiff.mpr hseamless
    exact hsound
  · intro s op s' h hgap hstep
    obtain ⟨lost, hsound, hiff⟩ := h.step_iff hstep
    exact hsound.not_law fun hzero => hgap (hiff.mp hzero)

def pageLayout : Layout where
  size := 4096
  align := 1
  size_pos := by decide
  align_pow := Nat.isPowerOfTwo_one
  fits := by decide

def oddProcess : Process where
  endCode := 0x1000
  startStack := 0x3ffff000
  brk := 0x1001
  endCode_pos := by decide
  endCode_le := by decide
  brk_lt := by decide

/-- Two allocations of a page grow the heap twice, and three bytes between
the two ranges are lost. -/
theorem heap_loses_bytes : ∃ s, run Heap.step (.start oddProcess)
        [.alloc pageLayout, .alloc pageLayout] = some s ∧
      total s.allocator.freeList + total (s.live.map s.block) + 3 =
        s.allocator.heapEnd - s.base ∧ ¬ s.Law := by
  have hrun : (run Heap.step (.start oddProcess)
      [.alloc pageLayout, .alloc pageLayout]).map (fun s =>
        (total s.allocator.freeList + total (s.live.map s.block),
          s.allocator.heapEnd - s.base)) = some (16378, 16381) := by
    decide
  obtain ⟨s, hs, hpair⟩ := Option.map_eq_some_iff.mp hrun
  obtain ⟨hblocks, hheap⟩ := Prod.mk.inj hpair
  refine ⟨s, hs, by omega, fun hlaw => ?_⟩
  have hsum := hlaw.conserved
  omega

end LinuxRs.User
