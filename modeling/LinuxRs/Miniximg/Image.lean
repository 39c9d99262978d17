/-
A Minix image in the hands of miniximg
(miniximg/miniximg-core/src/{bitmap,path,fs}.rs): the block store, the two
bitmaps, and everything `MinixFileSystem` does below paths.

# Outcomes

An operation runs on the file system and ends with a value, an error or a
panic; the state it leaves is kept in every case (`Io`). Where the source
passes `&mut DiskInode`, the inode is part of the state as well (`InodeIo`).

# Storage

The store grows when a block past its end is written and never refuses a
write; reading past its end fails. Text is its UTF-8 bytes.
-/
import LinuxRs.Minix.Layout

namespace LinuxRs.Miniximg

open LinuxRs.Lib
open LinuxRs.Minix

-- ======== errors

def text (s : String) : Text := s.toList.map fun c => BitVec.ofNat 8 c.toNat

def number (n : Nat) : Text := text (toString n)

/-- `MinixError`, the cases of the operations below. -/
inductive MinixError
  | io (message : Text)
  | invalidArgument (message : Text)
  | invalidPath (path : Text)
  | nameTooLong (name : Text) (maxBytes : Nat)
  | unsupported (message : Text)
  | corrupt (message : Text)
  | notFound (message : Text)
  | alreadyExists (message : Text)
  | notDirectory (message : Text)
  | isDirectory (message : Text)
  | directoryNotEmpty (message : Text)
  | noSpace (message : Text)
  deriving DecidableEq

inductive Stop
  | failed (error : MinixError)
  | panicked
  deriving DecidableEq

-- ======== bitmaps

/-- `Bitmap`: the bits of `blockCount` blocks, of which the first `bitCount`
stand for the values from `startIndex` on. -/
structure Bitmap where
  startIndex : Nat
  bitCount : Nat
  blockCount : Nat
  bits : Nat → Bool

namespace Bitmap

def empty (startIndex bitCount : Nat) : Bitmap where
  startIndex := startIndex
  bitCount := bitCount
  blockCount := (Nat.max bitCount 1 + (bitsPerBlock - 1)) / bitsPerBlock
  bits := fun _ => false

def bit (b : Bitmap) (relative : Nat) : Except Stop Bool :=
  if relative / bitsPerBlock < b.blockCount then .ok (b.bits relative)
  else .error .panicked

def isSet (b : Bitmap) (value : Nat) : Except Stop Bool :=
  if value < b.startIndex then .ok false
  else if value - b.startIndex ≥ b.bitCount then .ok false
  else b.bit (value - b.startIndex)

/-- `Bitmap::set` and `Bitmap::clear`: a value before the first one
underflows, one past the last block is out of range. -/
def mark (b : Bitmap) (value : Nat) (on : Bool) : Except Stop Bitmap :=
  if value < b.startIndex then .error .panicked
  else if (value - b.startIndex) / bitsPerBlock < b.blockCount then
    .ok { b with bits := Function.update b.bits (value - b.startIndex) on }
  else .error .panicked

def set (b : Bitmap) (value : Nat) : Except Stop Bitmap := b.mark value true

def clear (b : Bitmap) (value : Nat) : Except Stop Bitmap := b.mark value false

/-- The loop of `Bitmap::alloc`, with `left` values to go. -/
def allocFrom (b : Bitmap) (relative : Nat) :
    Nat → Except Stop (Option (Nat × Bitmap))
  | 0 => .ok none
  | left + 1 => do
      let value := b.startIndex + relative
      if ← b.isSet value then b.allocFrom (relative + 1) left
      else return some (value, ← b.set value)

def alloc (b : Bitmap) : Except Stop (Option (Nat × Bitmap)) :=
  b.allocFrom 0 b.bitCount

def byteOf (f : Nat → Bool) : Byte :=
  BitVec.ofNat 8 ((List.range 8).foldr (fun k n => 2 * n + (f k).toNat) 0)

def block (b : Bitmap) (index : Nat) : Block := fun j =>
  byteOf fun k => b.bits (index * bitsPerBlock + j * 8 + k)

end Bitmap

-- ======== storage

/-- `Storage`: the blocks of an image. -/
structure Storage where
  blocks : Nat → Block
  count : Nat

def Storage.read (s : Storage) (n : Nat) : Except Stop Block :=
  if n < s.count then .ok (s.blocks n)
  else .error (.failed (.io (text "failed to read image block")))

/-- `write_block_to`; a gap before the block reads as zeros. -/
def Storage.write (s : Storage) (n : Nat) (b : Block) : Storage where
  blocks := fun i =>
    if i = n then b else if i < s.count then s.blocks i else zeroBlock
  count := Nat.max s.count (n + 1)

structure MinixFileSystem where
  storage : Storage
  superBlock : DiskSuperBlock
  inodeBitmap : Bitmap
  zoneBitmap : Bitmap

abbrev Io := EStateM Stop MinixFileSystem

abbrev InodeIo := EStateM Stop (MinixFileSystem × DiskInode)

def Io.fail {A : Type} (e : MinixError) : Io A := fun fs => .error (.failed e) fs

def Io.of {A : Type} (r : Except Stop A) : Io A := fun fs =>
  match r with
  | .ok a => .ok a fs
  | .error e => .error e fs

def Io.check {A : Type} (r : Except MinixError A) : Io A :=
  Io.of (r.mapError Stop.failed)

def InodeIo.lift {A : Type} (x : Io A) : InodeIo A := fun st =>
  match x st.1 with
  | .ok a fs => .ok a (fs, st.2)
  | .error e fs => .error e (fs, st.2)

def InodeIo.inode : InodeIo DiskInode := fun st => .ok st.2 st

def InodeIo.change (f : DiskInode → DiskInode) : InodeIo Unit := fun st =>
  .ok () (st.1, f st.2)

def Io.withInode (inode : DiskInode) (x : InodeIo Unit) : Io DiskInode :=
  fun fs =>
    match x (fs, inode) with
    | .ok () st => .ok st.2 st.1
    | .error e st => .error e st.1

-- ======== blocks

def readBlock (n : Nat) : Io Block := fun fs => Io.of (fs.storage.read n) fs

def writeBlock (n : Nat) (b : Block) : Io Unit := fun fs =>
  .ok () { fs with storage := fs.storage.write n b }

def writeZeroBlock (n : Nat) : Io Unit := writeBlock n zeroBlock

/-- Blocks `index` to `index + left` of a bitmap, from a start block on. -/
def writeBitmapBlocks (start : Nat) (b : Bitmap) (index : Nat) : Nat → Io Unit
  | 0 => pure ()
  | left + 1 => do
      writeBlock (start + index) (b.block index)
      writeBitmapBlocks start b (index + 1) left

def syncSuperBlock : Io Unit := do
  let fs ← get
  writeBlock 1 (putBytes zeroBlock 0 fs.superBlock.encode)

def syncInodeBitmap : Io Unit := do
  let fs ← get
  writeBitmapBlocks 2 fs.inodeBitmap 0 fs.inodeBitmap.blockCount

def syncZoneBitmap : Io Unit := do
  let fs ← get
  writeBitmapBlocks (2 + fs.superBlock.inodeBitmapBlockCount.toNat)
    fs.zoneBitmap 0 fs.zoneBitmap.blockCount

-- ======== inodes

/-- `inode_block_position`, of an inode number that is not 0. -/
def inodeBlockPosition (sb : DiskSuperBlock) (inodeNumber : BitVec 16) :
    Nat × Nat :=
  (2 + sb.inodeBitmapBlockCount.toNat + sb.zoneBitmapBlockCount.toNat
      + (inodeNumber.toNat - 1) / inodesPerBlock,
    (inodeNumber.toNat - 1) % inodesPerBlock)

def readInode (inodeNumber : BitVec 16) : Io DiskInode := do
  let fs ← get
  if inodeNumber = 0#16 ∨ fs.superBlock.inodeCount.toNat < inodeNumber.toNat then
    Io.fail (.corrupt (text "inode " ++ number inodeNumber.toNat
      ++ text " is outside the super-block inode range"))
  else
    let position := inodeBlockPosition fs.superBlock inodeNumber
    let block ← readBlock position.1
    return DiskInode.decode block (position.2 * diskInodeSize)

/-- `write_inode`; inode number 0 underflows. -/
def writeInode (inodeNumber : BitVec 16) (inode : DiskInode) : Io Unit := do
  let fs ← get
  if inodeNumber = 0#16 then Io.of (.error .panicked)
  else
    let position := inodeBlockPosition fs.superBlock inodeNumber
    let block ← readBlock position.1
    writeBlock position.1
      (putBytes block (position.2 * diskInodeSize) inode.encode)

def allocateInodeNumber : Io (BitVec 16) := do
  let fs ← get
  match ← Io.of fs.inodeBitmap.alloc with
  | none => Io.fail (.noSpace (text "no free inodes remain"))
  | some (value, inodeBitmap) =>
    set { fs with inodeBitmap := inodeBitmap }
    syncInodeBitmap
    return BitVec.ofNat 16 value

def freeInodeNumber (inodeNumber : BitVec 16) : Io Unit := do
  writeInode inodeNumber .zeroed
  let fs ← get
  let inodeBitmap ← Io.of (fs.inodeBitmap.clear inodeNumber.toNat)
  set { fs with inodeBitmap := inodeBitmap }
  syncInodeBitmap

-- ======== zones

def allocateZone : Io Zone := do
  let fs ← get
  match ← Io.of fs.zoneBitmap.alloc with
  | none => Io.fail (.noSpace (text "no free data zones remain"))
  | some (value, zoneBitmap) =>
    set { fs with zoneBitmap := zoneBitmap }
    syncZoneBitmap
    writeZeroBlock (BitVec.ofNat 16 value).toNat
    return BitVec.ofNat 16 value

def freeZone (zone : Zone) : Io Unit := do
  if zone = 0#16 then return ()
  else
    let fs ← get
    let zoneBitmap ← Io.of (fs.zoneBitmap.clear zone.toNat)
    set { fs with zoneBitmap := zoneBitmap }
    syncZoneBitmap

abbrev ZoneTable := Fin 512 → Zone

def tableOf (b : Block) : ZoneTable := fun i => u16At b (2 * i.val)

def blockOf (table : ZoneTable) : Block := fun i =>
  if h : i / 2 < 512 then (leBytes16 (table ⟨i / 2, h⟩)).getD (i % 2) 0#8
  else 0#8

def readIndirectBlock (zone : Zone) : Io ZoneTable := do
  let block ← readBlock zone.toNat
  return tableOf block

def writeIndirectBlock (zone : Zone) (table : ZoneTable) : Io Unit :=
  writeBlock zone.toNat (blockOf table)

def tableZones (table : ZoneTable) : List Zone :=
  ((List.finRange 512).map table).filter (· ≠ 0#16)

def tooManyBlocks (logicalBlock : Nat) : MinixError :=
  .invalidArgument (text "logical block " ++ number logicalBlock
    ++ text " exceeds the Minix addressing limit")

/-- A logical block's place: its level and the indices in the tables. -/
inductive Slot
  | direct (index : Fin 7)
  | single (index : Fin 512)
  | double (outer inner : Fin 512)

/-- The arithmetic that `lookup_data_zone` and `set_data_zone` share; `none`
is past the addressing limit. -/
def slotOf (logicalBlock : Nat) : Option Slot :=
  if hmax : logicalBlock ≥ maxLogicalBlocks then none
  else if hd : logicalBlock < 7 then some (.direct ⟨logicalBlock, hd⟩)
  else if hs : logicalBlock - 7 < 512 then
    some (.single ⟨logicalBlock - 7, hs⟩)
  else some (.double
    ⟨(logicalBlock - 7 - 512) / 512, by unfold maxLogicalBlocks at hmax; omega⟩
    ⟨(logicalBlock - 7 - 512) % 512, by omega⟩)

def lookupDataZone (inode : DiskInode) (logicalBlock : Nat) : Io Zone :=
  match slotOf logicalBlock with
  | none => Io.fail (tooManyBlocks logicalBlock)
  | some (.direct index) => return inode.directZones index
  | some (.single index) => do
      if inode.singleIndirectZone = 0#16 then return 0#16
      else
        let table ← readIndirectBlock inode.singleIndirectZone
        return table index
  | some (.double outer inner) => do
      if inode.doubleIndirectZone = 0#16 then return 0#16
      else
        let outerTable ← readIndirectBlock inode.doubleIndirectZone
        if outerTable outer = 0#16 then return 0#16
        else
          let innerTable ← readIndirectBlock (outerTable outer)
          return innerTable inner

def ensureSingle : InodeIo Zone := do
  let inode ← InodeIo.inode
  if inode.singleIndirectZone = 0#16 then
    let zone ← InodeIo.lift allocateZone
    InodeIo.change fun i => { i with singleIndirectZone := zone }
    return zone
  else return inode.singleIndirectZone

def ensureDouble : InodeIo Zone := do
  let inode ← InodeIo.inode
  if inode.doubleIndirectZone = 0#16 then
    let zone ← InodeIo.lift allocateZone
    InodeIo.change fun i => { i with doubleIndirectZone := zone }
    return zone
  else return inode.doubleIndirectZone

def ensureOuter (zone : Zone) (outer : Fin 512) : Io Zone := do
  let table ← readIndirectBlock zone
  if table outer = 0#16 then
    let fresh ← allocateZone
    writeIndirectBlock zone (Function.update table outer fresh)
    return fresh
  else return table outer

def setTableEntry (tableZone : Zone) (index : Fin 512) (zone : Zone) :
    Io Unit := do
  let table ← readIndirectBlock tableZone
  writeIndirectBlock tableZone (Function.update table index zone)

def setDataZone (logicalBlock : Nat) (zone : Zone) : InodeIo Unit :=
  match slotOf logicalBlock with
  | none => InodeIo.lift (Io.fail (tooManyBlocks logicalBlock))
  | some (.direct index) =>
    InodeIo.change fun i =>
      { i with directZones := Function.update i.directZones index zone }
  | some (.single index) => do
      let table ← ensureSingle
      InodeIo.lift (setTableEntry table index zone)
  | some (.double outer inner) => do
      let table ← ensureDouble
      let innerZone ← InodeIo.lift (ensureOuter table outer)
      InodeIo.lift (setTableEntry innerZone inner zone)

-- ======== contents

def blocksFor (size : Nat) : Nat := (size + (blockSize - 1)) / blockSize

/-- The loop of `read_inode_contents`, from a logical block on, over the
buffer filled so far. -/
def readContentsFrom (inode : DiskInode) (logicalBlock : Nat) :
    Nat → (Nat → Byte) → Io (Nat → Byte)
  | 0, data => return data
  | left + 1, data => do
      let zone ← lookupDataZone inode logicalBlock
      if zone = 0#16 then readContentsFrom inode (logicalBlock + 1) left data
      else
        let block ← readBlock zone.toNat
        let start := logicalBlock * blockSize
        let stop := Nat.min inode.size.toNat (start + blockSize)
        readContentsFrom inode (logicalBlock + 1) left fun i =>
          if start ≤ i ∧ i < stop then block (i - start) else data i

def readInodeContents (inode : DiskInode) : Io (List Byte) := do
  let data ← readContentsFrom inode 0 (blocksFor inode.size.toNat) fun _ => 0#8
  return (List.range inode.size.toNat).map data

def freeZones : List Zone → Io Unit
  | [] => pure ()
  | zone :: zones => do
      freeZone zone
      freeZones zones

def freeDirect (index : Fin 7) : InodeIo Unit := do
  let inode ← InodeIo.inode
  if inode.directZones index = 0#16 then return ()
  else
    InodeIo.lift (freeZone (inode.directZones index))
    InodeIo.change fun i =>
      { i with directZones := Function.update i.directZones index 0#16 }

def freeDirects : List (Fin 7) → InodeIo Unit
  | [] => pure ()
  | index :: rest => do
      freeDirect index
      freeDirects rest

def freeTable (zone : Zone) : Io Unit := do
  let table ← readIndirectBlock zone
  freeZones (tableZones table)
  freeZone zone

def freeTables : List Zone → Io Unit
  | [] => pure ()
  | zone :: zones => do
      freeTable zone
      freeTables zones

/-- The single-indirect part of `free_inode_data`. -/
def freeSingle : InodeIo Unit := do
  let inode ← InodeIo.inode
  if inode.singleIndirectZone = 0#16 then return ()
  else
    InodeIo.lift (freeTable inode.singleIndirectZone)
    InodeIo.change fun i => { i with singleIndirectZone := 0#16 }

/-- The double-indirect part of `free_inode_data`. -/
def freeDouble : InodeIo Unit := do
  let inode ← InodeIo.inode
  if inode.doubleIndirectZone = 0#16 then return ()
  else
    let outerTable ← InodeIo.lift (readIndirectBlock inode.doubleIndirectZone)
    InodeIo.lift (freeTables (tableZones outerTable))
    InodeIo.lift (freeZone inode.doubleIndirectZone)
    InodeIo.change fun i => { i with doubleIndirectZone := 0#16 }

def freeInodeData : InodeIo Unit := do
  freeDirects (List.finRange 7)
  freeSingle
  freeDouble
  InodeIo.change fun i => { i with size := 0#32 }

def chunk (data : List Byte) (logicalBlock : Nat) : Block := fun i =>
  if i < blockSize then data.getD (logicalBlock * blockSize + i) 0#8 else 0#8

def writeContentsFrom (data : List Byte) (logicalBlock : Nat) :
    Nat → InodeIo Unit
  | 0 => pure ()
  | left + 1 => do
      let zone ← InodeIo.lift allocateZone
      setDataZone logicalBlock zone
      InodeIo.lift (writeBlock zone.toNat (chunk data logicalBlock))
      writeContentsFrom data (logicalBlock + 1) left

def finishInode (inodeNumber : BitVec 16) (size mtime : BitVec 32) :
    InodeIo Unit := do
  InodeIo.change fun i => { i with size := size, modificationTime := mtime }
  let inode ← InodeIo.inode
  InodeIo.lift (writeInode inodeNumber inode)

/-- `write_inode_contents`: after an error the file is left empty. -/
def writeInodeContents (inodeNumber : BitVec 16) (data : List Byte)
    (mtime : BitVec 32) : InodeIo Unit := do
  freeInodeData
  fun st =>
    match writeContentsFrom data 0 (blocksFor data.length) st with
    | .ok () st' =>
      finishInode inodeNumber (BitVec.ofNat 32 data.length) mtime st'
    | .error (.failed e) st' =>
      EStateM.bind (do
          freeInodeData
          finishInode inodeNumber 0#32 mtime)
        (fun _ => fun st'' => .error (.failed e) st'') st'
    | .error .panicked st' => .error .panicked st'

end LinuxRs.Miniximg
