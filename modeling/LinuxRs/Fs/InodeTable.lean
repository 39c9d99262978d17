/-
The inode table (`InodeTable` of kernel/src/fs/minix.rs): a fixed number
of slots that cache inode objects, with the parts of the file system that
a slot is filled from and flushed to.

# The state

The disk is what the buffer cache shows of all file systems: the inode
bitmap, the inode records, the zone bitmap and the indirect blocks. An
inode object lives at an address of the heap; a slot holds an address,
and `handles` counts the `Arc`s to the object outside the table, so
`strong_count` of a cached object is `handles + 1`.

# The steps

`step` is one call of one task: `acquire_raw`, dropping a handle, writing
an inode through a handle (every writer of the kernel marks it dirty),
`alloc_and_link` as far as it touches the table, `sync_inodes`, and the
eviction of a device by `sys_umount`. A step tells what it did to which
inode; `none` is a panic.
-/
import LinuxRs.Lib.Exec
import LinuxRs.Fs.Path
import Mathlib.Logic.Function.Basic

namespace LinuxRs.Fs

open Function (update)

open LinuxRs.Lib
open LinuxRs.Driver (DevNum)

-- ======== the disk

abbrev Zone := BitVec 16

/-- `DiskInode`; `mode` is split, and type bits that name no type are
`none`. -/
structure DiskInode where
  fileType : Option InodeType
  flags : BitVec 12
  userId : BitVec 16
  size : BitVec 32
  modificationTime : BitVec 32
  groupId : BitVec 8
  linkCount : BitVec 8
  directZones : List Zone
  singleIndirectZone : Zone
  doubleIndirectZone : Zone
  deriving DecidableEq

def DiskInode.zeroed : DiskInode :=
  ⟨none, 0#12, 0#16, 0#32, 0#32, 0#8, 0#8, List.replicate 7 0#16, 0#16, 0#16⟩

/-- The disk as the inode table sees it. -/
structure MinixDisk where
  inodeBitmap : InodeId → Bool
  inode : InodeId → DiskInode
  zoneBitmap : DevNum → Zone → Bool
  indirect : DevNum → Zone → List Zone

namespace MinixDisk

def writeInode (disk : MinixDisk) (id : InodeId) (inode : DiskInode) :
    MinixDisk :=
  { disk with inode := update disk.inode id inode }

def freeInode (disk : MinixDisk) (id : InodeId) : MinixDisk :=
  { disk.writeInode id .zeroed with
    inodeBitmap := update disk.inodeBitmap id false }

/-- `MinixFileSystem::free_zone`; zones of files are in range. -/
def freeZone (disk : MinixDisk) (dev : DevNum) (zone : Zone) : MinixDisk :=
  if zone = 0#16 then disk
  else { disk with
    zoneBitmap := fun d z => if d = dev ∧ z = zone then false
      else disk.zoneBitmap d z }

def freeZoneTree (dev : DevNum) : Nat → MinixDisk → Zone → MinixDisk
  | 0, disk, zone => disk.freeZone dev zone
  | levels + 1, disk, zone =>
    if zone = 0#16 then disk
    else ((disk.indirect dev zone).foldl (freeZoneTree dev levels)
      disk).freeZone dev zone

def treeZones (disk : MinixDisk) (dev : DevNum) : Nat → Zone → List Zone
  | 0, zone => if zone = 0#16 then [] else [zone]
  | levels + 1, zone =>
    if zone = 0#16 then []
    else (disk.indirect dev zone).flatMap (disk.treeZones dev levels) ++ [zone]

/-- The zones that an inode of a regular file or a directory points at. -/
def zonesOf (disk : MinixDisk) (dev : DevNum) (inode : DiskInode) :
    List Zone :=
  if inode.fileType = some .regular ∨ inode.fileType = some .directory then
    inode.directZones.flatMap (disk.treeZones dev 0) ++
      disk.treeZones dev 1 inode.singleIndirectZone ++
      disk.treeZones dev 2 inode.doubleIndirectZone
  else []

/-- The part of `Inode::truncate` on the disk: every zone is freed. An
inode without a type panics. -/
def truncate (disk : MinixDisk) (dev : DevNum) (inode : DiskInode) :
    Option MinixDisk :=
  match inode.fileType with
  | none => none
  | some fileType =>
    if fileType = .regular ∨ fileType = .directory then
      let disk := inode.directZones.foldl (freeZoneTree dev 0) disk
      let disk := freeZoneTree dev 1 disk inode.singleIndirectZone
      some (freeZoneTree dev 2 disk inode.doubleIndirectZone)
    else some disk

end MinixDisk

-- ======== the table

structure InodeInner where
  diskInode : DiskInode
  isDirty : Bool
  accessTime : BitVec 32
  changeTime : BitVec 32
  deriving DecidableEq

/-- An inode object, with the number of its handles outside the table. -/
structure CachedInode where
  id : InodeId
  inner : InodeInner
  handles : Nat

def inodeTableCapacity : Nat := 32

/-- The table of cached inodes over the disk. -/
structure InodeSys where
  disk : MinixDisk
  slots : Nat → Option Nat
  clock : Nat
  heap : Nat → CachedInode
  next : Nat

/-- What a step does to an inode: it hands out a handle, writes the inode,
allocates its number, or frees its zones and its number. -/
inductive InodeEvent
  | handed (a : Nat) (id : InodeId) (inner : InodeInner)
  | wrote (id : InodeId) (inode : DiskInode)
  | allocated (id : InodeId)
  | freed (id : InodeId) (zones : List Zone)
  deriving DecidableEq

namespace InodeSys

def setInner (s : InodeSys) (a : Nat) (inner : InodeInner) : InodeSys :=
  { s with heap := update s.heap a { s.heap a with inner := inner } }

def setHandles (s : InodeSys) (a n : Nat) : InodeSys :=
  { s with heap := update s.heap a { s.heap a with handles := n } }

def lookup (s : InodeSys) (id : InodeId) : Option Nat :=
  (List.range inodeTableCapacity).findSome? fun slot =>
    (s.slots slot).bind fun a => if (s.heap a).id = id then some a else none

def syncInode (s : InodeSys) (a : Nat) : InodeSys :=
  if (s.heap a).inner.isDirty then
    { s.setInner a { (s.heap a).inner with isDirty := false } with
      disk := s.disk.writeInode (s.heap a).id (s.heap a).inner.diskInode }
  else s

def flushSlot (s : InodeSys) (slot : Nat) :
    Option (InodeSys × List InodeEvent) :=
  match s.slots slot with
  | none => none
  | some a =>
    let victim := s.heap a
    let s := { s with slots := update s.slots slot none }
    if victim.inner.diskInode.linkCount = 0#8 then
      match s.disk.truncate victim.id.device victim.inner.diskInode with
      | none => none
      | some disk =>
        some ({ s with disk := disk.freeInode victim.id }, [.freed victim.id
            (s.disk.zonesOf victim.id.device victim.inner.diskInode)])
    else some (s.syncInode a, [])

def scanVictim (s : InodeSys) (dirtyFallback : Option Nat) :
    List Nat → Option Nat
  | [] => dirtyFallback
  | slot :: rest =>
    match s.slots slot with
    | none => s.scanVictim dirtyFallback rest
    | some a =>
      if (s.heap a).handles ≠ 0 then s.scanVictim dirtyFallback rest
      else if (s.heap a).inner.isDirty = false then some slot
      else s.scanVictim (dirtyFallback <|> some slot) rest

def findVictim (s : InodeSys) : Option Nat :=
  s.scanVictim none ((List.range inodeTableCapacity).map fun offset =>
    (s.clock + offset) % inodeTableCapacity)

/-- The part of `InodeTable::install` that finds the slot. -/
def makeRoom (s : InodeSys) : Option (InodeSys × Nat × List InodeEvent) :=
  match (List.range inodeTableCapacity).find? fun slot =>
      (s.slots slot).isNone with
  | some slot => some (s, slot, [])
  | none =>
    match s.findVictim with
    | none => none
    | some slot =>
      match s.flushSlot slot with
      | none => none
      | some (s, events) =>
        some ({ s with clock := (slot + 1) % inodeTableCapacity }, slot,
          events)

/-- `InodeTable::acquire_raw`; the inode is read before room is made. -/
def acquireRaw (s : InodeSys) (id : InodeId) :
    Option (InodeSys × Nat × List InodeEvent) :=
  if id.device.raw = 0#16 then none
  else
    match s.lookup id with
    | some a =>
      some (s.setHandles a ((s.heap a).handles + 1), a,
        [.handed a id (s.heap a).inner])
    | none =>
      let inner : InodeInner := ⟨s.disk.inode id, false, 0#32, 0#32⟩
      match s.makeRoom with
      | none => none
      | some (s, slot, events) =>
        some ({ s with
            slots := update s.slots slot (some s.next)
            heap := update s.heap s.next ⟨id, inner, 1⟩
            next := s.next + 1 }, s.next,
          events ++ [.handed s.next id inner])

def writeInner (s : InodeSys) (a : Nat) (inode : DiskInode)
    (accessTime changeTime : BitVec 32) : InodeSys :=
  s.setInner a ⟨inode, true, accessTime, changeTime⟩

/-- `alloc_inode`, and `alloc_and_link` up to the new directory entry. -/
def allocInode (s : InodeSys) (id : InodeId) (fileType : InodeType)
    (flags : BitVec 12) (userId : BitVec 16) (groupId linkCount : BitVec 8)
    (now : BitVec 32) : Option (InodeSys × List InodeEvent) :=
  if s.disk.inodeBitmap id ∨ id.inodeNumber = 0#16 then none
  else
    let s := { s with
      disk := { s.disk.writeInode id .zeroed with
        inodeBitmap := update s.disk.inodeBitmap id true } }
    match s.acquireRaw id with
    | none => none
    | some (s, a, events) =>
      let inode : DiskInode :=
        { (s.heap a).inner.diskInode with
          fileType := some fileType
          flags := flags
          userId := userId
          groupId := groupId
          linkCount := linkCount
          modificationTime := now }
      some (s.writeInner a inode now now,
        .allocated id :: events ++ [.wrote id inode])

def syncInodes (s : InodeSys) : InodeSys :=
  (List.range inodeTableCapacity).foldl (fun s slot =>
    match s.slots slot with
    | none => s
    | some a => s.syncInode a) s

def hasActiveInodes (s : InodeSys) (dev : DevNum) : Bool :=
  (List.range inodeTableCapacity).any fun slot =>
    (s.slots slot).any fun a =>
      (s.heap a).id.device = dev ∧ (s.heap a).handles ≠ 0

def evictDevice (dev : DevNum) : List Nat → InodeSys →
    Option (InodeSys × List InodeEvent)
  | [], s => some (s, [])
  | slot :: rest, s =>
    if (s.slots slot).any fun a => (s.heap a).id.device = dev then
      match s.flushSlot slot with
      | none => none
      | some (s, events) =>
        match evictDevice dev rest s with
        | none => none
        | some (s, more) => some (s, events ++ more)
    else evictDevice dev rest s

end InodeSys

-- ======== the steps

/-- What is done through the table and its handles. -/
inductive InodeOp
  | acquire (id : InodeId)
  | release (a : Nat)
  | write (a : Nat) (inode : DiskInode) (accessTime changeTime : BitVec 32)
  | alloc (id : InodeId) (fileType : InodeType) (flags : BitVec 12)
      (userId : BitVec 16) (groupId linkCount : BitVec 8) (now : BitVec 32)
  | sync
  | umount (dev : DevNum)

/-- One step. A handle is dropped or written through while it is held. -/
def InodeSys.step (s : InodeSys) :
    InodeOp → Option (InodeSys × List InodeEvent)
  | .acquire id =>
    match s.acquireRaw id with
    | none => none
    | some (s, _, events) => some (s, events)
  | .release a =>
    if (s.heap a).handles = 0 then none
    else some (s.setHandles a ((s.heap a).handles - 1), [])
  | .write a inode accessTime changeTime =>
    if (s.heap a).handles = 0 then none
    else some (s.writeInner a inode accessTime changeTime,
      [.wrote (s.heap a).id inode])
  | .alloc id fileType flags userId groupId linkCount now =>
    s.allocInode id fileType flags userId groupId linkCount now
  | .sync => some (s.syncInodes, [])
  | .umount dev =>
    if s.hasActiveInodes dev then some (s, [])
    else s.evictDevice dev (List.range inodeTableCapacity)

end LinuxRs.Fs
