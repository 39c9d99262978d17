/-
The kernel's reading of a Minix device (kernel/src/fs/{minix,bitmap}.rs):
`MinixFileSystem::open`, `inode_block_position`, and `Inode::read_at` through
`map_block_id` with `create` unset.

A device is what `buffer::read` gives for each of its blocks; `none` is a
block that cannot be read. The block cache in between is the subject of
`LinuxRs.Fs.Transparency`. Reading allocates nothing, so an inode is its
on-disk record.
-/
import LinuxRs.Minix.Layout

namespace LinuxRs.Minix.Volume

open LinuxRs.Lib
open LinuxRs.Minix

/-- What `buffer::read` gives for the blocks of a device. -/
abbrev Device := Nat → Option Block

inductive Errno
  | fbig
  | io

-- ======== block mapping

def indirectEntriesPerBlock : Nat := 512

def indirectZoneIndex : Nat := directZoneCount

def doubleIndirectZoneIndex : Nat := directZoneCount + 1

/-- `resolve_indirect_entry`, without creation. -/
def resolveIndirectEntry (dev : Device) (blockNumber : Zone) (index : Nat) :
    Except Errno Zone :=
  if blockNumber = 0#16 then .ok 0#16
  else match dev blockNumber.toNat with
    | none => .error .io
    | some table => .ok (u16At table (2 * index))

/-- `Inode::map_block_id`, without creation. -/
def mapBlockId (dev : Device) (inode : DiskInode) (logicId : Nat) :
    Except Errno Zone :=
  if logicId ≥ maxLogicalBlocks then .error .fbig
  else if h : logicId < directZoneCount then .ok (inode.directZones ⟨logicId, h⟩)
  else if logicId < indirectZoneIndex + indirectEntriesPerBlock then
    resolveIndirectEntry dev inode.singleIndirectZone (logicId - indirectZoneIndex)
  else
    let doubleIndirectStart := doubleIndirectZoneIndex + indirectEntriesPerBlock - 1
    let block := logicId - doubleIndirectStart
    match resolveIndirectEntry dev inode.doubleIndirectZone
        (block / indirectEntriesPerBlock) with
    | .error e => .error e
    | .ok secondLevelZone =>
      resolveIndirectEntry dev secondLevelZone (block % indirectEntriesPerBlock)

-- ======== reading

def slice (b : Block) (offset len : Nat) : List Byte :=
  (List.range len).map fun i => b (offset + i)

/-- The loop of `Inode::read_at`: `done` is what the buffer holds so far. -/
def readFrom (dev : Device) (inode : DiskInode) (pos left : Nat)
    (done : List Byte) : Except Errno (List Byte) :=
  if _h : left = 0 then .ok done
  else
    let chunkLen := Nat.min left (blockSize - pos % blockSize)
    match mapBlockId dev inode (pos / blockSize) with
    | .error e => .error e
    | .ok blockId =>
      if blockId = 0#16 then
        readFrom dev inode (pos + chunkLen) (left - chunkLen)
          (done ++ List.replicate chunkLen 0#8)
      else match dev blockId.toNat with
        | none => if 0 < done.length then .ok done else .error .io
        | some b =>
          readFrom dev inode (pos + chunkLen) (left - chunkLen)
            (done ++ slice b (pos % blockSize) chunkLen)
  termination_by left
  decreasing_by all_goals
      have hmin : Nat.min left (blockSize - pos % blockSize)
          = min left (blockSize - pos % blockSize) := rfl
      unfold blockSize at *
      omega

/-- `Inode::read_at`: the bytes it reads into a buffer of `len`. -/
def readAt (dev : Device) (inode : DiskInode) (offset len : Nat) :
    Except Errno (List Byte) :=
  if len = 0 then .ok []
  else if offset ≥ inode.size.toNat then .ok []
  else readFrom dev inode offset (Nat.min len (inode.size.toNat - offset)) []

-- ======== volumes

inductive Fault
  | panicked

def minixBitmapBlockCapacity : Nat := 8

/-- `Bitmap`: the blocks it pins, each with its number, the identifier of
bit 0 and the number of bits. -/
structure Bitmap where
  buffers : List (Nat × Block)
  baseId : Nat
  bitCount : Nat

/-- `Bitmap::new`: bit 0 is marked occupied. -/
def Bitmap.new (baseId : Nat) (buffers : List (Nat × Block)) (bitCount : Nat) :
    Except Fault Bitmap :=
  if buffers.length > minixBitmapBlockCapacity then .error .panicked
  else if bitCount > buffers.length * bitsPerBlock then .error .panicked
  else match buffers with
    | [] => .error .panicked
    | (number, b) :: rest => .ok {
        buffers := (number, Function.update b 0 (b 0 ||| 1#8)) :: rest
        baseId := baseId
        bitCount := bitCount }

structure MinixFileSystem where
  superBlock : DiskSuperBlock
  inodeBitmap : Bitmap
  zoneBitmap : Bitmap

def readBlocks (dev : Device) (start : Nat) : Nat → Option (List (Nat × Block))
  | 0 => some []
  | n + 1 => do
      let b ← dev start
      let rest ← readBlocks dev (start + 1) n
      return (start, b) :: rest

def inodeBlockPosition (sb : DiskSuperBlock) (inodeNumber : BitVec 16) :
    Nat × Nat :=
  let index := inodeNumber.toNat - 1
  (2 + sb.inodeBitmapBlockCount.toNat + sb.zoneBitmapBlockCount.toNat
      + index / inodesPerBlock,
    index % inodesPerBlock)

/-- `read_inode`, of a number that is not 0; an unreadable block panics. -/
def readInode (dev : Device) (sb : DiskSuperBlock) (inodeNumber : BitVec 16) :
    Except Fault DiskInode :=
  let position := inodeBlockPosition sb inodeNumber
  match dev position.1 with
  | none => .error .panicked
  | some b => .ok (DiskInode.decode b (position.2 * diskInodeSize))

-- ======== what is read

/-- What a logical block of a file holds, where the kernel can tell. -/
def fileBlock (dev : Device) (inode : DiskInode) (logicId : Nat) : Option Block :=
  match mapBlockId dev inode logicId with
  | .error _ => none
  | .ok blockId =>
    if blockId = 0#16 then some zeroBlock else dev blockId.toNat

def fileByte (view : Nat → Block) (pos : Nat) : Byte :=
  view (pos / blockSize) (pos % blockSize)

def fileBytes (view : Nat → Block) (pos len : Nat) : List Byte :=
  (List.range len).map fun i => fileByte view (pos + i)

theorem fileBytes_add (view : Nat → Block) (pos m n : Nat) :
    fileBytes view pos (m + n) = fileBytes view pos m ++ fileBytes view (pos + m) n := by
  unfold fileBytes
  rw [List.range_add, List.map_append, List.map_map]
  congr 1
  refine List.map_congr_left fun i _ => ?_
  show fileByte view (pos + (m + i)) = fileByte view (pos + m + i)
  rw [Nat.add_assoc]

theorem fileBytes_slice {view : Nat → Block} {pos len : Nat}
    (h : len ≤ blockSize - pos % blockSize) :
    fileBytes view pos len = slice (view (pos / blockSize)) (pos % blockSize) len := by
  unfold fileBytes slice fileByte
  refine List.map_congr_left fun i hi => ?_
  have hi := List.mem_range.mp hi
  unfold blockSize at *
  rw [show (pos + i) / 1024 = pos / 1024 by omega,
    show (pos + i) % 1024 = pos % 1024 + i by omega]

theorem slice_zeroBlock (offset len : Nat) :
    slice zeroBlock offset len = List.replicate len 0#8 := by
  unfold slice zeroBlock
  rw [List.map_const', List.length_range]

theorem readFrom_round {dev : Device} {inode : DiskInode} {pos left : Nat}
    {done : List Byte} {b : Block} (hleft : left ≠ 0)
    (hb : fileBlock dev inode (pos / blockSize) = some b) :
    readFrom dev inode pos left done
      = readFrom dev inode (pos + Nat.min left (blockSize - pos % blockSize))
          (left - Nat.min left (blockSize - pos % blockSize))
          (done ++ slice b (pos % blockSize)
            (Nat.min left (blockSize - pos % blockSize))) := by
  unfold fileBlock at hb
  rw [readFrom, dif_neg hleft]
  cases hmap : mapBlockId dev inode (pos / blockSize) with
  | error e =>
    rw [hmap] at hb
    cases hb
  | ok blockId =>
    rw [hmap] at hb
    dsimp only at hb ⊢
    split at hb
    next hz =>
      cases hb
      rw [if_pos hz, slice_zeroBlock]
    next hz =>
      rw [if_neg hz, hb]

/-- Where every block is read, all the bytes are. -/
theorem readFrom_all {dev : Device} {inode : DiskInode} {view : Nat → Block} :
    ∀ {left pos : Nat} {done : List Byte}, (∀ i, pos ≤ i → i < pos + left →
        fileBlock dev inode (i / blockSize) = some (view (i / blockSize))) →
      readFrom dev inode pos left done = .ok (done ++ fileBytes view pos left) := by
  intro left
  induction left using Nat.strongRecOn with
  | ind left ih =>
    intro pos done hall
    rcases Nat.eq_zero_or_pos left with rfl | hpos
    · rw [readFrom, dif_pos rfl]
      show _ = Except.ok (done ++ [])
      rw [List.append_nil]
    · rw [readFrom_round (by omega) (hall pos (Nat.le_refl pos) (by omega))]
      have hmin : Nat.min left (blockSize - pos % blockSize)
          = min left (blockSize - pos % blockSize) := rfl
      have hchunk : Nat.min left (blockSize - pos % blockSize) ≤ left ∧
          0 < Nat.min left (blockSize - pos % blockSize) ∧
          Nat.min left (blockSize - pos % blockSize)
            ≤ blockSize - pos % blockSize := by
        rw [hmin]
        unfold blockSize
        omega
      obtain ⟨hle, hgt, hfit⟩ := hchunk
      generalize Nat.min left (blockSize - pos % blockSize) = chunk at *
      rw [ih (left - chunk) (by omega) fun i h1 h2 => hall i (by omega) (by omega),
        List.append_assoc, ← fileBytes_slice hfit, ← fileBytes_add,
        Nat.add_sub_cancel' hle]

end LinuxRs.Minix.Volume
