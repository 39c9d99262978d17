/-
The heap of a user program (user_lib/src/allocator.rs) over the break of
its process (`sys_brk` in kernel/src/syscall/handler/process/mod.rs).

# The free list

The linked list of free blocks is a list of extents in list order; the
headers of allocated blocks are a map from the address they are stored at.
Addresses are numbers below 2^32, and `checked_add` and the wrapping of
`align_up` are written out.

# The runs

A step is an allocation, the release of a live allocation, or a growth of
the heap on its own. `live` and `base` are not kept by the program: they
are the allocations that were handed out and not yet released, and the
address where the heap starts.
-/
import LinuxRs.Lib.Extent
import Mathlib.Data.Nat.Bits

namespace LinuxRs.User

open LinuxRs.Lib

-- ======== arithmetic

def usizeLimit : Nat := 0x100000000

def pageSize : Nat := 4096

def headerSize : Nat := 8

/-- `align_of` of `AllocationHeader` and of `FreeBlock`. -/
def headerAlign : Nat := 4

def minFreeBlockSize : Nat := 8

def checkedAdd (a b : Nat) : Option Nat :=
  if a + b < usizeLimit then some (a + b) else none

def checkedSub (a b : Nat) : Option Nat := if b ≤ a then some (a - b) else none

def saturatingAdd (a b : Nat) : Nat := min (a + b) (usizeLimit - 1)

/-- `align_up`; the sum wraps, and the mask is the complement of
`align - 1`. -/
def alignUp (addr align : Nat) : Nat :=
  ((addr + align - 1) % usizeLimit) &&& (usizeLimit - 1 - (align - 1))

/-- `core::alloc::Layout` with a size that is not zero: the alignment is a
power of two, and the size rounded up to it is at most `isize::MAX`. -/
structure Layout where
  size : Nat
  align : Nat
  size_pos : 0 < size
  align_pow : align.isPowerOfTwo
  fits : size + align ≤ 0x80000000
  deriving DecidableEq

-- ======== the break

/-- The memory layout of a process, as far as `sys_brk` reads it. Code
lies below the break. -/
structure Process where
  endCode : Nat
  startStack : Nat
  brk : Nat
  endCode_pos : 0 < endCode
  endCode_le : endCode ≤ brk
  brk_lt : brk < usizeLimit

def Process.limit (p : Process) : Nat :=
  (p.startStack + usizeLimit - 16384) % usizeLimit

theorem Process.limit_lt (p : Process) : p.limit < usizeLimit :=
  Nat.mod_lt _ (by decide)

def Process.sysBrk (p : Process) (endDataSeg : Nat) : Process :=
  if h : p.endCode ≤ endDataSeg ∧ endDataSeg < p.limit then
    { p with
      brk := endDataSeg
      endCode_le := h.1
      brk_lt := h.2.trans p.limit_lt }
  else p

/-- `syscall::process::brk`: the answer is the break, and one that is
negative as an `i32` is taken for an error. -/
def Process.brkResult (p : Process) : Option Nat :=
  if p.brk < 0x80000000 then some p.brk else none

-- ======== placement

structure Placement where
  blockStart : Nat
  blockSize : Nat
  headerStart : Nat
  payloadStart : Nat
  prefixSize : Nat
  suffixStart : Nat
  suffixSize : Nat

/-- The end of `Placement::new`, once the payload is known to fit. -/
def Placement.cut (blockStart blockEnd headerStart payloadStart
    requestedEnd : Nat) : Placement :=
  let rawPrefixSize := headerStart - blockStart
  let keepPrefix := minFreeBlockSize ≤ rawPrefixSize
  let allocationStart := if keepPrefix then headerStart else blockStart
  let rawSuffixSize := blockEnd - requestedEnd
  let keepSuffix := minFreeBlockSize ≤ rawSuffixSize
  let allocationEnd := if keepSuffix then requestedEnd else blockEnd
  { blockStart := allocationStart
    blockSize := allocationEnd - allocationStart
    headerStart := headerStart
    payloadStart := payloadStart
    prefixSize := if keepPrefix then rawPrefixSize else 0
    suffixStart := allocationEnd
    suffixSize := if keepSuffix then rawSuffixSize else 0 }

def Placement.new (blockStart blockSize : Nat) (layout : Layout) :
    Option Placement :=
  (checkedAdd blockStart blockSize).bind fun blockEnd =>
  (checkedAdd blockStart headerSize).bind fun firstPayload =>
  let payloadStart := alignUp firstPayload (max layout.align headerAlign)
  (checkedSub payloadStart headerSize).bind fun headerStart =>
  (checkedAdd payloadStart layout.size).bind fun requestedEnd =>
  if blockEnd < requestedEnd then none
  else some (.cut blockStart blockEnd headerStart payloadStart requestedEnd)

-- ======== the free list

abbrev FreeBlock := Extent

/-- What `take_from_block` puts in the place of a free block. -/
def Placement.remainder (p : Placement) (current : FreeBlock) :
    List FreeBlock :=
  if minFreeBlockSize ≤ p.prefixSize then
    if minFreeBlockSize ≤ p.suffixSize then
      [⟨current.start, p.prefixSize⟩, ⟨p.suffixStart, p.suffixSize⟩]
    else [⟨current.start, p.prefixSize⟩]
  else if minFreeBlockSize ≤ p.suffixSize then
    [⟨p.suffixStart, p.suffixSize⟩]
  else []

/-- `try_alloc`: the first block that fits is cut. -/
def tryAlloc (layout : Layout) :
    List FreeBlock → Option (List FreeBlock × Placement)
  | [] => none
  | current :: next =>
    match Placement.new current.start current.size layout with
    | some p => some (p.remainder current ++ next, p)
    | none => (tryAlloc layout next).map fun r => (current :: r.1, r.2)

/-- `coalesce_with_next`, on the list from a block on. -/
def coalesceWithNext : List FreeBlock → List FreeBlock
  | block :: next :: rest =>
    if block.start + block.size = next.start then
      ⟨block.start, block.size + next.size⟩ :: rest
    else block :: next :: rest
  | l => l

/-- The walk of `insert_free_block`, from the block `prev` on. -/
def insertAfter (block prev : FreeBlock) : List FreeBlock → List FreeBlock
  | [] => coalesceWithNext (prev :: coalesceWithNext [block])
  | next :: rest =>
    if next.start < block.start then prev :: insertAfter block next rest
    else coalesceWithNext (prev :: coalesceWithNext (block :: next :: rest))

def insertFreeBlock (block : FreeBlock) (free : List FreeBlock) :
    List FreeBlock :=
  if block.size < minFreeBlockSize then free
  else
    match free with
    | [] => [block]
    | first :: rest =>
      if block.start < first.start then
        coalesceWithNext (block :: first :: rest)
      else insertAfter block first rest

-- ======== the allocator

structure AllocationHeader where
  blockStart : Nat
  blockSize : Nat

/-- `BrkAllocator`, with the headers it has written. -/
structure BrkAllocator where
  freeList : List FreeBlock
  heapEnd : Nat
  initialized : Bool
  headers : Nat → AllocationHeader

def BrkAllocator.new : BrkAllocator := ⟨[], 0, false, fun _ => ⟨0, 0⟩⟩

structure Allocation where
  ptr : Nat
  layout : Layout
  deriving DecidableEq

/-- The allocator over its process, with what is allocated. -/
structure Heap where
  process : Process
  allocator : BrkAllocator
  live : List Allocation
  base : Nat

namespace Heap

def start (process : Process) : Heap := ⟨process, .new, [], 0⟩

/-- The size that `grow` adds to the break. -/
def growSize (layout : Layout) : Nat :=
  let needed := saturatingAdd (saturatingAdd (saturatingAdd layout.size
    headerSize) layout.align) minFreeBlockSize
  alignUp (max needed pageSize) pageSize

/-- The end of `grow`, after the break has moved from `currentBreak` to
`actualBreak`. -/
def extend (s : Heap) (currentBreak actualBreak : Nat) : Heap × Bool :=
  let start := alignUp currentBreak headerAlign
  let s := { s with
    base := if s.allocator.initialized then s.base else start
    allocator := { s.allocator with
      initialized := true
      heapEnd := actualBreak } }
  if actualBreak ≤ start then (s, false)
  else if actualBreak - start < minFreeBlockSize then (s, false)
  else
    ({ s with
      allocator := { s.allocator with
        freeList := insertFreeBlock ⟨start, actualBreak - start⟩
          s.allocator.freeList } }, true)

def growFrom (s : Heap) (layout : Layout) (currentBreak : Nat) : Heap × Bool :=
  match checkedAdd currentBreak (growSize layout) with
  | none => (s, false)
  | some newBreak =>
    let s := { s with process := s.process.sysBrk newBreak }
    match s.process.brkResult with
    | none => (s, false)
    | some actualBreak =>
      if actualBreak < newBreak then (s, false)
      else s.extend currentBreak actualBreak

def grow (s : Heap) (layout : Layout) : Heap × Bool :=
  if s.allocator.initialized then s.growFrom layout s.allocator.heapEnd
  else
    let s := { s with process := s.process.sysBrk 0 }
    match s.process.brkResult with
    | none => (s, false)
    | some currentBreak => s.growFrom layout currentBreak

/-- `try_alloc` with the header that `take_from_block` writes. -/
def take (s : Heap) (layout : Layout) : Option Heap :=
  (tryAlloc layout s.allocator.freeList).map fun r =>
    { s with
      allocator := { s.allocator with
        freeList := r.1
        headers := Function.update s.allocator.headers r.2.headerStart
          ⟨r.2.blockStart, r.2.blockSize⟩ }
      live := ⟨r.2.payloadStart, layout⟩ :: s.live }

/-- The loop of `alloc`, for a number of rounds; `none` when that is not
enough. A null pointer leaves no new allocation. -/
def alloc (layout : Layout) : Nat → Heap → Option Heap
  | 0, _ => none
  | rounds + 1, s =>
    match s.take layout with
    | some s => some s
    | none =>
      let r := s.grow layout
      if r.2 then alloc layout rounds r.1 else some r.1

def dealloc (s : Heap) (a : Allocation) : Heap :=
  let header := s.allocator.headers (a.ptr - headerSize)
  { s with
    allocator := { s.allocator with
      freeList := insertFreeBlock ⟨header.blockStart, header.blockSize⟩
        s.allocator.freeList }
    live := s.live.erase a }

end Heap

/-- What a program and the allocator do to the heap. -/
inductive HeapOp
  | alloc (layout : Layout)
  | dealloc (a : Allocation)
  | grow (layout : Layout)

/-- One call. Two rounds of the loop of `alloc` are always enough. -/
def Heap.step (s : Heap) : HeapOp → Option Heap
  | .alloc layout => s.alloc layout 2
  | .dealloc a => if a ∈ s.live then some (s.dealloc a) else none
  | .grow layout => some (s.grow layout).1

end LinuxRs.User
