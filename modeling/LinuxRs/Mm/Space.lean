/-
Physical frames and memory spaces (kernel/src/mm/frame.rs, page.rs and
space.rs).

# The state

A `PhysPageNum` is a number; a linear page number is its two table
indices, and the 1024 directory entries are 16 for each of the 64 task
slots: a `Block` is a directory entry, a slot and an offset. All memory
spaces stand side by side: the arrays `page_tables` are one map from
blocks, and the maps `data_frames` one map from pages; a space has the keys
of its own slot, and the calls of a space are given its slot as `self`.
`mem_map` goes by page numbers. Memory is the words of each frame; the page
directory, in frame 0, is kept apart from it.

`none` is a panic, a failed `expect` or an assertion; `debug_assert` is one
too.

# Left out

The translation cache, and the ACCESSED bit of a directory entry, which
nothing reads.
-/
import Mathlib.Data.Fintype.Prod
import Mathlib.Data.BitVec
import Mathlib.Logic.Function.Basic

namespace LinuxRs.Mm

open Function (update)

abbrev Word := BitVec 32

abbrev Slot := Fin 64

/-- The slot of the idle task, of the kernel's own space. -/
abbrev task0 : Slot := ⟨0, Nat.succ_pos 63⟩

/-- `LinPageNum::pde_index`. -/
abbrev Block := Slot × Fin 16

/-- `LinPageNum`. -/
abbrev LinPage := Block × Fin 1024

/-- The words of a frame. -/
abbrev Page := Fin 1024 → Word

-- ======== page.rs

/-- `PageFlags::WRITABLE`. -/
def writableFlag : Word := 0x2#32

/-- `PageFlags::ACCESSED` and `PageFlags::DIRTY`. -/
def accessFlags : Word := 0x60#32

def userRw : Word := 0x7#32

/-- `PageEntry::new`. -/
def newEntry (f : Nat) (flags : Word) : Word :=
  BitVec.ofNat 32 f <<< 12 ||| flags

def isPresent (e : Word) : Bool := e.getLsbD 0

/-- `PageEntry::flags` contains `PageFlags::WRITABLE`. -/
def isWritable (e : Word) : Bool := e.getLsbD 1

/-- `PageEntry::flags` contains `PageFlags::DIRTY`. -/
def isDirty (e : Word) : Bool := e.getLsbD 6

def ppn (e : Word) : Nat := (e >>> 12).toNat

def flags (e : Word) : Word := e &&& 0x1ff#32

def withoutWritable (e : Word) : Word := e &&& ~~~writableFlag

def userPageTable (t : Nat) : Word := newEntry t userRw

-- ======== entries

theorem ppn_lt (e : Word) : ppn e < 1048576 := by
  have he := e.isLt
  unfold ppn
  rw [BitVec.toNat_ushiftRight, Nat.shiftRight_eq_div_pow]
  omega

theorem ppn_newEntry {f : Nat} (hf : f < 1048576) {e : Word}
    (he : e.toNat < 4096) : ppn (newEntry f e) = f := by
  have hshift : (BitVec.ofNat 32 f <<< 12).toNat = f * 4096 := by
    rw [BitVec.toNat_shiftLeft, BitVec.toNat_ofNat, Nat.shiftLeft_eq]
    omega
  unfold ppn newEntry
  rw [BitVec.toNat_ushiftRight, BitVec.toNat_or, hshift,
    Nat.shiftRight_or_distrib, Nat.shiftRight_eq_div_pow,
    Nat.shiftRight_eq_div_pow, Nat.div_eq_of_lt he, Nat.or_zero]
  omega

theorem newEntry_low (f : Nat) (e : Word) {i : Nat} (hi : i < 12) :
    (newEntry f e).getLsbD i = e.getLsbD i := by
  unfold newEntry
  rw [BitVec.getLsbD_or, BitVec.getLsbD_shiftLeft]
  simp [hi]

theorem isPresent_newEntry (f : Nat) : isPresent (newEntry f userRw) = true :=
  newEntry_low f userRw (by decide)

theorem ppn_userRw {f : Nat} (hf : f < 1048576) :
    ppn (newEntry f userRw) = f :=
  ppn_newEntry hf (by decide)

theorem ppn_congr {e e' : Word}
    (h : ∀ i < 20, e.getLsbD (12 + i) = e'.getLsbD (12 + i)) :
    ppn e = ppn e' := by
  unfold ppn
  congr 1
  apply BitVec.eq_of_getLsbD_eq
  intro i hi
  rw [BitVec.getLsbD_ushiftRight, BitVec.getLsbD_ushiftRight]
  by_cases hlow : i < 20
  · exact h i hlow
  · rw [BitVec.getLsbD_of_ge e _ (by omega),
      BitVec.getLsbD_of_ge e' _ (by omega)]

@[simp] theorem ppn_withoutWritable (e : Word) :
    ppn (withoutWritable e) = ppn e := by
  refine ppn_congr fun i hi => ?_
  have hmask : ∀ i < 20, (~~~writableFlag).getLsbD (12 + i) = true := by
    decide
  unfold withoutWritable
  rw [BitVec.getLsbD_and, hmask i hi, Bool.and_true]

@[simp] theorem isPresent_withoutWritable (e : Word) :
    isPresent (withoutWritable e) = isPresent e := by
  unfold isPresent withoutWritable
  rw [BitVec.getLsbD_and]
  exact Bool.and_true _

@[simp] theorem isWritable_withoutWritable (e : Word) :
    isWritable (withoutWritable e) = false := by
  unfold isWritable withoutWritable
  rw [BitVec.getLsbD_and]
  exact Bool.and_false _

/-- The entry that `ensure_page_writable` makes of a page's own. -/
def madeWritable (e : Word) : Word :=
  newEntry (ppn e) (flags e ||| writableFlag)

@[simp] theorem ppn_madeWritable (e : Word) :
    ppn (madeWritable e) = ppn e := by
  refine ppn_newEntry (ppn_lt e) ?_
  have hflags : (flags e).toNat ≤ 511 := by
    unfold flags
    rw [BitVec.toNat_and]
    exact Nat.and_le_right
  rw [BitVec.toNat_or]
  exact Nat.or_lt_two_pow (n := 12) (by omega) (by decide)

@[simp] theorem isPresent_madeWritable (e : Word) :
    isPresent (madeWritable e) = isPresent e := by
  unfold isPresent madeWritable flags
  rw [newEntry_low _ _ (by decide), BitVec.getLsbD_or, BitVec.getLsbD_and]
  simp [writableFlag]

theorem isWritable_madeWritable (e : Word) :
    isWritable (madeWritable e) = true := by
  unfold isWritable madeWritable
  rw [newEntry_low _ _ (by decide), BitVec.getLsbD_or]
  exact Bool.or_true _

@[simp] theorem ppn_accessed (e : Word) :
    ppn (e ||| accessFlags) = ppn e := by
  refine ppn_congr fun i hi => ?_
  have hmask : ∀ i < 20, accessFlags.getLsbD (12 + i) = false := by decide
  rw [BitVec.getLsbD_or, hmask i hi, Bool.or_false]

@[simp] theorem isPresent_accessed (e : Word) :
    isPresent (e ||| accessFlags) = isPresent e := by
  unfold isPresent
  rw [BitVec.getLsbD_or]
  exact Bool.or_false _

@[simp] theorem isWritable_accessed (e : Word) :
    isWritable (e ||| accessFlags) = isWritable e := by
  unfold isWritable
  rw [BitVec.getLsbD_or]
  exact Bool.or_false _

-- ======== frame.rs

/-- `UNPAGED_PAGES`, the frames below `LOW_MEM`. -/
def unpagedPages : Nat := 512

def pagingPages : Nat := 3584

/-- The frame allocator, the memory and the spaces. -/
structure Memory where
  memMap : Nat → Nat
  mem : Nat → Page
  dir : Block → Word
  pageTables : Block → Option Nat
  dataFrames : LinPage → Option Nat

/-- `Iterator::rposition` among the first `n` indices. -/
def rposition (p : Nat → Bool) : Nat → Option Nat
  | 0 => none
  | n + 1 => if p n then some n else rposition p n

/-- The errors of these functions. -/
inductive Errno
  | nomem
  | exist
  deriving DecidableEq

/-- What a function leaves and answers. -/
abbrev Outcome (α : Type) := Option (Memory × Except Errno α)

namespace Memory

/-- One word of one frame. -/
def setWord (s : Memory) (f : Nat) (j : Fin 1024) (v : Word) : Memory :=
  { s with mem := update s.mem f (update (s.mem f) j v) }

/-- `FrameAllocator::alloc`; `none` when no frame is free. -/
def alloc (s : Memory) : Option (Memory × Nat) :=
  (rposition (fun i => s.memMap (unpagedPages + i) == 0) pagingPages).map
    fun i =>
      let f := unpagedPages + i
      ({ s with
        memMap := update s.memMap f 1
        mem := update s.mem f fun _ => 0 }, f)

/-- The frames of a run are zeroed and counted. -/
def takeRun (s : Memory) (f : Nat) : Nat → Memory
  | 0 => s
  | n + 1 =>
    let s := s.takeRun f n
    { s with
      memMap := update s.memMap (f + n) 1
      mem := update s.mem (f + n) fun _ => 0 }

/-- `FrameAllocator::alloc_contiguous`; the first frame of the run. -/
def allocContiguous (s : Memory) (n : Nat) : Option (Memory × Nat) :=
  if n = 0 then none
  else
    (rposition (fun i => (List.range n).all fun d =>
      s.memMap (unpagedPages + i + d) == 0) (pagingPages + 1 - n)).map
        fun i => (s.takeRun (unpagedPages + i) n, unpagedPages + i)

def dealloc (s : Memory) (f : Nat) : Option Memory :=
  if f < unpagedPages then some s
  else if unpagedPages + pagingPages ≤ f ∨ s.memMap f = 0 then none
  else some { s with memMap := update s.memMap f (s.memMap f - 1) }

/-- `FrameAllocator::share`; a count is a byte. -/
def share (s : Memory) (f : Nat) : Option Memory :=
  if f < unpagedPages ∨ unpagedPages + pagingPages ≤ f ∨ s.memMap f = 0 ∨
      s.memMap f = 255 then none
  else some { s with memMap := update s.memMap f (s.memMap f + 1) }

def refCount (s : Memory) (f : Nat) : Option Nat :=
  if f < unpagedPages then some 255
  else if unpagedPages + pagingPages ≤ f then none
  else some (s.memMap f)

/-- `Drop` of handles. -/
def deallocAll (s : Memory) (fs : List Nat) : Option Memory :=
  fs.foldlM dealloc s

/-- `Drop` of what a handle replaces. -/
def release (s : Memory) (handle : Option Nat) : Option Memory :=
  s.deallocAll handle.toList

-- ======== space.rs

/-- The entry that the processor finds for a page. -/
def entry (s : Memory) (p : LinPage) : Option Word :=
  if isPresent (s.dir p.1) then some (s.mem (ppn (s.dir p.1)) p.2) else none

/-- Whether the page is mapped. -/
def mapped (s : Memory) (p : LinPage) : Bool := (s.entry p).any isPresent

def setEntry (s : Memory) (p : LinPage) (e : Word) : Option Memory :=
  if isPresent (s.dir p.1) then some (s.setWord (ppn (s.dir p.1)) p.2 e)
  else none

/-- `MemorySpace::pte` of the space of a slot: `find_pte` has nothing for the
pages of other slots. -/
def pte (s : Memory) (self : Slot) (p : LinPage) : Option Word :=
  if p.1.1 = self then s.entry p else none

def setPte (s : Memory) (self : Slot) (p : LinPage) (e : Word) :
    Option Memory :=
  if p.1.1 = self then s.setEntry p e else none

@[simp] theorem pte_own (s : Memory) (p : LinPage) :
    s.pte p.1.1 p = s.entry p := if_pos rfl

@[simp] theorem setPte_own (s : Memory) (p : LinPage) (e : Word) :
    s.setPte p.1.1 p e = s.setEntry p e := if_pos rfl

/-- `self.page_tables[i] = Some(page_table)` after `write_pde`. -/
def insertTable (s : Memory) (b : Block) (t : Nat) : Option Memory :=
  release { s with
    dir := update s.dir b (userPageTable t)
    pageTables := update s.pageTables b (some t) } (s.pageTables b)

/-- `self.data_frames.insert`. -/
def insertFrame (s : Memory) (p : LinPage) (f : Nat) : Option Memory :=
  release { s with dataFrames := update s.dataFrames p (some f) }
    (s.dataFrames p)

def ensurePageTable (s : Memory) (self : Slot) (b : Block) : Outcome Unit :=
  if isPresent (s.dir b) then some (s, .ok ())
  else if b.1 ≠ self then some (s, .error .nomem)
  else
    match s.alloc with
    | none => some (s, .error .nomem)
    | some (s, t) => (s.insertTable b t).map (·, .ok ())

/-- The end of `MemorySpace::map_page`. -/
def install (s : Memory) (self : Slot) (p : LinPage) (f : Nat) :
    Outcome Unit :=
  ((s.setPte self p (newEntry f userRw)).bind (·.insertFrame p f)).map
    (·, .ok ())

def mapPage (s : Memory) (self : Slot) (p : LinPage) (frame : Option Nat) :
    Outcome Unit :=
  match s.ensurePageTable self p.1 with
  | none => none
  | some (s, .error e) => (s.release frame).map (·, .error e)
  | some (s, .ok ()) =>
    if (s.pte self p).any isPresent then
      match frame with
      | none => some (s, .ok ())
      | some f => (s.dealloc f).map (·, .error .exist)
    else
      match frame with
      | some f => s.install self p f
      | none =>
        match s.alloc with
        | none => some (s, .error .nomem)
        | some (s, f) => s.install self p f

/-- `ptr::copy_nonoverlapping` of a whole page. -/
def copyPage (s : Memory) (src dst : Nat) : Memory :=
  { s with mem := update s.mem dst (s.mem src) }

/-- The end of `ensure_page_writable`: a new frame with the words of the old
one. -/
def copyToOwn (s : Memory) (self : Slot) (p : LinPage) (old : Nat) :
    Outcome Unit :=
  match s.alloc with
  | none => some (s, .error .nomem)
  | some (s, f) =>
    ((s.setPte self p (newEntry f userRw)).bind (·.insertFrame p f)).map
      fun s => (s.copyPage old f, .ok ())

def ensurePageWritable (s : Memory) (self : Slot) (p : LinPage) :
    Outcome Unit :=
  match s.pte self p with
  | none => none
  | some e =>
    match s.refCount (ppn e) with
    | none => none
    | some 1 =>
      (s.setPte self p (madeWritable e)).map (·, .ok ())
    | some _ => s.copyToOwn self p (ppn e)

/-- The end of `try_share_local_page_from`: both entries are write-protected
and the frame is shared. -/
def shareEntry (s : Memory) (p q : LinPage) (e : Word) : Option Memory :=
  (((s.setPte p.1.1 p (withoutWritable e)).bind
    (·.setPte q.1.1 q (withoutWritable e))).bind
      (·.share (ppn e))).bind (·.insertFrame q (ppn e))

/-- `MemorySpace::try_share_local_page_from`, from the page `p` to the page
`q`, each in the window of its own space. -/
def tryShareLocalPage (s : Memory) (p q : LinPage) : Outcome Bool :=
  match s.pte p.1.1 p with
  | none => some (s, .ok false)
  | some e =>
    if isPresent e = false ∨ isDirty e then some (s, .ok false)
    else if ppn e < unpagedPages then some (s, .ok false)
    else
      match s.ensurePageTable q.1.1 q.1 with
      | none => none
      | some (s, .error e) => some (s, .error e)
      | some (s, .ok ()) =>
        if (s.pte q.1.1 q).any isPresent then some (s, .ok false)
        else (s.shareEntry p q e).map (·, .ok true)

/-- A store of the processor to a word of a page, which marks the page
ACCESSED and DIRTY; `none` is a page fault. -/
def store (s : Memory) (p : LinPage) (j : Fin 1024) (v : Word) :
    Option Memory :=
  match s.entry p with
  | none => none
  | some e =>
    if isPresent e ∧ isWritable e then
      (s.setEntry p (e ||| accessFlags)).map (·.setWord (ppn e) j v)
    else none

/-- The directory entries of a slot. -/
def slotBlocks (slot : Slot) : List Block :=
  (List.finRange 16).map (Prod.mk slot)

/-- The pages of a slot. -/
def slotPages (slot : Slot) : List LinPage :=
  (slotBlocks slot).flatMap fun b => (List.finRange 1024).map (Prod.mk b)

/-- `Drop` of a `MemorySpace` and of its fields. -/
def dropSpace (s : Memory) (slot : Slot) : Option Memory :=
  let tables := (slotBlocks slot).filterMap s.pageTables
  let frames := (slotPages slot).filterMap s.dataFrames
  if tables ≠ [] ∧ slot = task0 then none
  else
    deallocAll { s with
      dir := fun b =>
        if b.1 = slot ∧ (s.pageTables b).isSome then 0 else s.dir b
      pageTables := fun b => if b.1 = slot then none else s.pageTables b
      dataFrames := fun p => if p.1.1 = slot then none else s.dataFrames p }
      (tables ++ frames)

-- ======== cow_copy

def task0PageCount : Nat := 160

/-- One entry of the parent's table `pt`, copied to the child's table
`ct`. -/
def copyEntry (s : Memory) (parent child : Block) (pt ct : Nat)
    (j : Fin 1024) : Option Memory :=
  let e := s.mem pt j
  if isPresent e = false then some s
  else
    let s := s.setWord ct j (withoutWritable e)
    if ppn e < unpagedPages then some s
    else
      let s := s.setWord pt j (withoutWritable e)
      if s.dataFrames (parent, j) = none then none
      else (s.share (ppn e)).bind (·.insertFrame (child, j) (ppn e))

/-- How many entries of a table are copied. -/
def entryCount (parent : Slot) : Nat :=
  if parent = task0 then task0PageCount else 1024

/-- One round of the loop of `cow_copy`. -/
def copyBlock (s : Memory) (parent child : Block) : Outcome Unit :=
  if isPresent (s.dir parent) = false then some (s, .ok ())
  else if isPresent (s.dir child) then none
  else
    match s.alloc with
    | none => some (s, .error .nomem)
    | some (s, ct) =>
      ((((List.finRange 1024).take (entryCount parent.1)).foldlM
        (fun (s : Memory) j =>
          s.copyEntry parent child (ppn (s.dir parent)) ct j)
          s).bind (·.insertTable child ct)).map (·, .ok ())

/-- The loop of `cow_copy` over directory entries. -/
def copyBlocks (s : Memory) (parent child : Slot) :
    List (Fin 16) → Outcome Unit
  | [] => some (s, .ok ())
  | i :: is =>
    match s.copyBlock (parent, i) (child, i) with
    | none => none
    | some (s, .error e) => (s.dropSpace child).map (·, .error e)
    | some (s, .ok ()) => s.copyBlocks parent child is

/-- `MemorySpace::cow_copy`; the child's space stands under its slot from
the start. -/
def cowCopy (s : Memory) (parent child : Slot) (pdeCount : Nat) :
    Outcome Unit :=
  s.copyBlocks parent child ((List.finRange 16).take pdeCount)

end Memory

end LinuxRs.Mm
