/-
The kernel's writing of file contents (kernel/src/fs/{minix,bitmap}.rs):
`Bitmap::alloc`, `MinixFileSystem::alloc_zone`, `Inode::map_block_id` with
`create` set and `Inode::write_at`.

# The state

A mounted volume with all its blocks as the buffer cache shows them: every
block can be read. The bitmap of the zones lies in some of these blocks. An
inode is its in-memory record; reading its contents is `Volume.readAt`,
which needs of it no more than the record on the disk.

A `usize` has 32 bits, so an offset is a `BitVec 32`. A position does not
wrap around: `map_block_id` refuses it before.
-/
import LinuxRs.Minix.Volume

namespace LinuxRs.Minix

open LinuxRs.Lib
open Function (update)

abbrev InodeNumber := BitVec 16

inductive WriteErrno
  | fbig
  | error

structure InodeInner where
  diskInode : DiskInode
  isDirty : Bool
  accessTime : BitVec 32
  changeTime : BitVec 32

namespace InodeInner

def touchChange (i : InodeInner) (timestamp : BitVec 32) : InodeInner :=
  { i with changeTime := timestamp, isDirty := true }

def touchModified (i : InodeInner) (timestamp : BitVec 32) : InodeInner :=
  { i with
    diskInode := { i.diskInode with modificationTime := timestamp }
    changeTime := timestamp
    isDirty := true }

end InodeInner

/-- `Bitmap`, by the numbers of the blocks that hold it. -/
structure BitmapBlocks where
  buffers : List Nat
  baseId : Nat
  bitCount : Nat

/-- The blocks, the zone bitmap and the inodes behind the file calls. -/
structure FileStore where
  blocks : Nat → Block
  zoneBitmap : BitmapBlocks
  inode : InodeNumber → InodeInner

namespace FileStore

-- ======== the bitmap

def bitBlock (s : FileStore) (bit : Nat) : Nat :=
  s.zoneBitmap.buffers.getD (bit / bitsPerBlock) 0

def bitByte (bit : Nat) : Nat := bit % bitsPerBlock / 8

def readBit (s : FileStore) (bit : Nat) : Bool :=
  (s.blocks (s.bitBlock bit) (bitByte bit)).getLsbD (bit % 8)

def setBit (s : FileStore) (bit : Nat) : FileStore :=
  let old := s.blocks (s.bitBlock bit)
  { s with
    blocks := update s.blocks (s.bitBlock bit) (update old (bitByte bit)
        (old (bitByte bit) ||| (1#8 <<< (bit % 8)))) }

/-- The lowest clear bit of a word of 64 bits, `trailing_zeros` of its
complement. -/
def freeInWord (s : FileStore) (wordIndex : Nat) : Option Nat :=
  (List.range 64).find? fun k => !s.readBit (wordIndex * 64 + k)

/-- The loop of `Bitmap::alloc`: the first word with a clear bit. -/
def scanWords (s : FileStore) : Nat → Nat → Option Nat
  | 0, _ => none
  | words + 1, wordIndex =>
    match s.freeInWord wordIndex with
    | none => scanWords s words (wordIndex + 1)
    | some k =>
      if wordIndex * 64 + k ≥ s.zoneBitmap.bitCount then none
      else some (wordIndex * 64 + k)

def allocBit (s : FileStore) : Option (FileStore × Nat) :=
  (s.scanWords ((s.zoneBitmap.bitCount + 63) / 64) 0).map fun bit =>
    (s.setBit bit, s.zoneBitmap.baseId + bit)

def allocZone (s : FileStore) : Option (FileStore × Zone) :=
  s.allocBit.map fun r =>
    let zone := BitVec.ofNat 16 r.2
    ({ r.1 with blocks := update r.1.blocks zone.toNat zeroBlock }, zone)

-- ======== block mapping

def setInode (s : FileStore) (n : InodeNumber) (i : InodeInner) : FileStore :=
  { s with inode := update s.inode n i }

def disk (s : FileStore) (n : InodeNumber) : DiskInode := (s.inode n).diskInode

/-- `table[index] = zone` in a table block. -/
def setEntry (s : FileStore) (table : Zone) (index : Nat) (zone : Zone) :
    FileStore :=
  { s with
    blocks := update s.blocks table.toNat
      (putBytes (s.blocks table.toNat) (2 * index) (leBytes16 zone)) }

/-- `resolve_indirect_entry`, with creation. -/
def resolveIndirectEntry (s : FileStore) (blockNumber : Zone) (index : Nat) :
    FileStore × Zone :=
  if blockNumber = 0#16 then (s, 0#16)
  else
    let zone := u16At (s.blocks blockNumber.toNat) (2 * index)
    if zone = 0#16 then
      match s.allocZone with
      | some (s, newZone) => (s.setEntry blockNumber index newZone, newZone)
      | none => (s, 0#16)
    else (s, zone)

/-- `try_alloc`, with creation, and the change of the inode that follows a
fresh zone. -/
def tryAlloc (s : FileStore) (n : InodeNumber) (now : BitVec 32)
    (current : Zone) (attach : DiskInode → Zone → DiskInode) :
    FileStore × Zone :=
  if current = 0#16 then
    match s.allocZone with
    | some (s, zone) =>
      if zone ≠ 0#16 then
        let i := s.inode n
        let i := { i with diskInode := attach i.diskInode zone }
        (s.setInode n (i.touchChange now), zone)
      else (s, zone)
    | none => (s, 0#16)
  else (s, current)

def attachDirect (k : Fin 7) (i : DiskInode) (zone : Zone) : DiskInode :=
  { i with directZones := update i.directZones k zone }

def attachSingle (i : DiskInode) (zone : Zone) : DiskInode :=
  { i with singleIndirectZone := zone }

def attachDouble (i : DiskInode) (zone : Zone) : DiskInode :=
  { i with doubleIndirectZone := zone }

/-- `Inode::map_block_id`, with creation; zone 0 is a failed allocation. -/
def mapBlockId (s : FileStore) (n : InodeNumber) (now : BitVec 32)
    (logicId : Nat) : FileStore × Except WriteErrno Zone :=
  if logicId ≥ maxLogicalBlocks then (s, .error .fbig)
  else if h : logicId < directZoneCount then
    let r := s.tryAlloc n now ((s.disk n).directZones ⟨logicId, h⟩)
      (attachDirect ⟨logicId, h⟩)
    (r.1, .ok r.2)
  else if logicId < Volume.indirectZoneIndex + Volume.indirectEntriesPerBlock
      then
    let r := s.tryAlloc n now (s.disk n).singleIndirectZone attachSingle
    let r := r.1.resolveIndirectEntry r.2 (logicId - Volume.indirectZoneIndex)
    (r.1, .ok r.2)
  else
    let r := s.tryAlloc n now (s.disk n).doubleIndirectZone attachDouble
    let doubleIndirectStart :=
      Volume.doubleIndirectZoneIndex + Volume.indirectEntriesPerBlock - 1
    let block := logicId - doubleIndirectStart
    let r := r.1.resolveIndirectEntry r.2
      (block / Volume.indirectEntriesPerBlock)
    let r := r.1.resolveIndirectEntry r.2
      (block % Volume.indirectEntriesPerBlock)
    (r.1, .ok r.2)

-- ======== writing

def modifyBlock (s : FileStore) (zone : Zone) (offset : Nat)
    (source : List Byte) : FileStore :=
  { s with
    blocks := update s.blocks zone.toNat
      (putBytes (s.blocks zone.toNat) offset source) }

/-- The loop of `Inode::write_at` over what is left of the buffer, with the
bytes written so far; the error is what stopped it. -/
def writeFrom (s : FileStore) (n : InodeNumber) (now : BitVec 32)
    (pos written : Nat) (rest : List Byte) :
    FileStore × Nat × Nat × Option WriteErrno :=
  if _h : rest = [] then (s, pos, written, none)
  else
    let chunkLen := Nat.min rest.length (blockSize - pos % blockSize)
    let r := s.mapBlockId n now (pos / blockSize)
    match r.2 with
    | .error e => (r.1, pos, written, some e)
    | .ok blockId =>
      if blockId = 0#16 then (r.1, pos, written, some .error)
      else
        writeFrom (r.1.modifyBlock blockId (pos % blockSize)
          (rest.take chunkLen)) n now (pos + chunkLen) (written + chunkLen)
          (rest.drop chunkLen)
  termination_by rest.length
  decreasing_by
    have hpos : 0 < rest.length := List.length_pos_iff.mpr _h
    have hmin : Nat.min rest.length (blockSize - pos % blockSize)
        = min rest.length (blockSize - pos % blockSize) := rfl
    rw [List.length_drop]
    unfold blockSize at *
    omega

/-- The end of `Inode::write_at`: the size and the times. -/
def finishWrite (s : FileStore) (n : InodeNumber) (now : BitVec 32)
    (pos : Nat) : FileStore :=
  let i := s.inode n
  let i :=
    if pos > i.diskInode.size.toNat then
      { i with diskInode := { i.diskInode with size := BitVec.ofNat 32 pos } }
    else i
  s.setInode n (i.touchModified now)

def writeAt (s : FileStore) (n : InodeNumber) (now offset : BitVec 32)
    (buf : List Byte) : FileStore × Except WriteErrno Nat :=
  if buf = [] then (s, .ok 0)
  else
    let r := s.writeFrom n now offset.toNat 0 buf
    let s := r.1.finishWrite n now r.2.1
    match r.2.2.1, r.2.2.2 with
    | 0, some e => (s, .error e)
    | written, _ => (s, .ok written)

-- ======== reading

def device (s : FileStore) : Volume.Device := fun b => some (s.blocks b)

def readAt (s : FileStore) (n : InodeNumber) (pos len : Nat) :
    Except Volume.Errno (List Byte) :=
  Volume.readAt s.device (s.disk n) pos len

end FileStore

end LinuxRs.Minix
