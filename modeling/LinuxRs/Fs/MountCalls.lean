/-
The calls that mount and unmount a device (kernel/src/syscall/handler/fs/mount.rs,
kernel/src/fs/mount.rs), with the handles the mount table keeps.

# The state

A mount entry holds a file system and inode objects by their addresses:
`InodeSys` counts the handles to an object outside the inode table, those
of the mount entries included, and `owner` is the file system an object
was loaded for, a weak handle. A file system is alive as long as a mount
entry holds it; the inodes of a dead one are dropped from the inode table
without being written back.

# The calls

A pathname is taken as the inodes it leads through (`PathLookup`): which
they are is up to the directories, so every theorem is about all of them.
The calls of one task are steps; `none` is a panic, or a step that is not
possible, such as dropping a handle that no task has.
-/
import Mathlib.Algebra.Ring.Nat
import LinuxRs.Fs.InodeTable

namespace LinuxRs.Fs

open LinuxRs.Lib
open LinuxRs.Driver (DevNum)

inductive MountErrno
  | perm
  | noent
  | busy
  | notblk

/-- `Mount`, with the addresses its handles lead to. -/
structure MountEntry where
  device : DevNum
  fileSystem : Nat
  rootInode : Nat
  mountPointInode : Option Nat
  deriving DecidableEq

/-- The mount table, the inode table, and the file system each inode
object was loaded for (`Inode::file_system`). -/
structure MountSys where
  table : List (Option MountEntry)
  inodes : InodeSys
  owner : Nat → Nat
  rootDev : DevNum

/-- What a pathname leads through: the directory the walk starts from, the
inodes that are resolved one after the other, and whether the last one is
found to be the answer. -/
structure PathLookup where
  start : Nat
  steps : List InodeId
  found : Bool
  now : BitVec 32

namespace MountSys

-- ======== the mount table

def insert (s : MountSys) (mount : MountEntry) : Option MountSys :=
  (s.table.findIdx? Option.isNone).map fun slot =>
    { s with table := s.table.set slot (some mount) }

def findFs (s : MountSys) (dev : DevNum) : Option Nat :=
  s.table.findSome? fun slot => slot.bind fun mount =>
    if mount.device = dev then some mount.fileSystem else none

def mountedRootAt (s : MountSys) (id : InodeId) : Option Nat :=
  s.table.findSome? fun slot => slot.bind fun mount =>
    if mount.mountPointInode.map (fun a => (s.inodes.heap a).id) = some id then
      some mount.rootInode
    else none

def isMountPoint (s : MountSys) (id : InodeId) : Bool :=
  (s.mountedRootAt id).isSome

def upgrade (s : MountSys) (fs : Nat) : Bool :=
  s.table.any fun slot => slot.any (·.fileSystem = fs)

def refsOf (a : Nat) (mount : MountEntry) : Nat :=
  (if mount.rootInode = a then 1 else 0) +
    if mount.mountPointInode = some a then 1 else 0

def mountRefs (s : MountSys) (a : Nat) : Nat :=
  (s.table.map fun slot => (slot.map (refsOf a)).getD 0).sum

def taskHandles (s : MountSys) (a : Nat) : Nat :=
  (s.inodes.heap a).handles - s.mountRefs a

-- ======== the inode table

def clone (s : MountSys) (a : Nat) : MountSys :=
  { s with inodes := s.inodes.setHandles a ((s.inodes.heap a).handles + 1) }

def drop (s : MountSys) (a : Nat) : MountSys :=
  { s with inodes := s.inodes.setHandles a ((s.inodes.heap a).handles - 1) }

/-- `InodeTable::flush_slot`; writing back and freeing need the file
system. -/
def flushSlot (s : MountSys) (slot : Nat) : Option MountSys :=
  match s.inodes.slots slot with
  | none => none
  | some a =>
    if s.upgrade (s.owner a) then
      (s.inodes.flushSlot slot).map fun r => { s with inodes := r.1 }
    else some { s with
      inodes := { s.inodes with
        slots := Function.update s.inodes.slots slot none } }

/-- The part of `InodeTable::install` that finds the slot. -/
def makeRoom (s : MountSys) : Option (MountSys × Nat) :=
  match (List.range inodeTableCapacity).find? fun slot =>
      (s.inodes.slots slot).isNone with
  | some slot => some (s, slot)
  | none =>
    match s.inodes.findVictim with
    | none => none
    | some slot =>
      (s.flushSlot slot).map fun s =>
        ({ s with inodes := { s.inodes with
            clock := (slot + 1) % inodeTableCapacity } }, slot)

def load (s : MountSys) (slot : Nat) (id : InodeId) (inode : DiskInode)
    (fs : Nat) : MountSys :=
  { s with
    inodes := { s.inodes with
      slots := Function.update s.inodes.slots slot (some s.inodes.next)
      heap := Function.update s.inodes.heap s.inodes.next
        ⟨id, ⟨inode, false, 0#32, 0#32⟩, 1⟩
      next := s.inodes.next + 1 }
    owner := Function.update s.owner s.inodes.next fs }

/-- `InodeTable::acquire_raw`; the inode is read before room is made. -/
def acquireRaw (s : MountSys) (id : InodeId) (fs : Nat) :
    Option (MountSys × Nat) :=
  if id.device.raw = 0#16 then none
  else
    match s.inodes.lookup id with
    | some a => some (s.clone a, a)
    | none =>
      (s.makeRoom).map fun r =>
        (r.1.load r.2 id (s.inodes.disk.inode id) fs, r.1.inodes.next)

def evictDevice (dev : DevNum) : List Nat → MountSys → Option MountSys
  | [], s => some s
  | slot :: rest, s =>
    if (s.inodes.slots slot).any fun a => (s.inodes.heap a).id.device = dev
    then (s.flushSlot slot).bind (evictDevice dev rest)
    else evictDevice dev rest s

/-- `Inode::sync` on one slot; an inode without its file system stays
dirty. -/
def syncSlot (s : MountSys) (slot : Nat) : MountSys :=
  match s.inodes.slots slot with
  | none => s
  | some a =>
    if s.upgrade (s.owner a) then { s with inodes := s.inodes.syncInode a }
    else s

def syncInodes (s : MountSys) : MountSys :=
  (List.range inodeTableCapacity).foldl syncSlot s

-- ======== the pathnames

/-- `resolve_inode`; a chain of mounts is not longer than the table. -/
def resolveInodeLoop : Nat → MountSys → InodeId → Option (MountSys × Nat)
  | 0, _, _ => none
  | turns + 1, s, id =>
    match s.findFs id.device with
    | none => none
    | some fs =>
      match s.acquireRaw id fs with
      | none => none
      | some (s, a) =>
        match s.mountedRootAt (s.inodes.heap a).id with
        | none => some (s, a)
        | some root =>
          resolveInodeLoop turns (s.drop a) (s.inodes.heap root).id

def resolveInode (s : MountSys) (id : InodeId) : Option (MountSys × Nat) :=
  resolveInodeLoop (s.table.length + 1) s id

/-- The inodes of a pathname, each one dropped when the next is there. -/
def walk : MountSys → Nat → List InodeId → Option (MountSys × Nat)
  | s, current, [] => some (s, current)
  | s, current, id :: rest =>
    match s.resolveInode id with
    | none => none
    | some (s, a) => walk (s.drop current) a rest

def touchAccess (s : MountSys) (a : Nat) (now : BitVec 32) : MountSys :=
  let inner :=
    { (s.inodes.heap a).inner with isDirty := true, accessTime := now }
  { s with inodes := s.inodes.setInner a inner }

/-- `resolve_path`, from a directory that a task holds. -/
def resolvePath (s : MountSys) (path : PathLookup) :
    Option (MountSys × Option Nat) :=
  if s.taskHandles path.start = 0 then none
  else
    match (s.clone path.start).walk path.start path.steps with
    | none => none
    | some (s, a) =>
      if path.found then some (s.touchAccess a path.now, some a)
      else some (s.drop a, none)

/-- `Inode::file_type`; type bits that name no type panic. -/
def fileType (s : MountSys) (a : Nat) : Option InodeType :=
  (s.inodes.heap a).inner.diskInode.fileType

def deviceNumber (s : MountSys) (a : Nat) : DevNum :=
  ⟨(s.inodes.heap a).inner.diskInode.directZones.headD 0#16⟩

-- ======== the calls

def freshFs (s : MountSys) : Nat :=
  ((List.range s.inodes.next).map s.owner ++
    s.table.map fun slot => (slot.map (·.fileSystem)).getD 0).foldr max 0 + 1

/-- The arguments of `sys_mount`: the device number in the block special
file, and the directory to cover. -/
def mountArguments (s : MountSys) (devName dirName : PathLookup) :
    Option (MountSys × Except MountErrno (DevNum × Nat)) :=
  match s.resolvePath devName with
  | none => none
  | some (s, none) => some (s, .error .noent)
  | some (s, some devInode) =>
    match s.fileType devInode with
    | none => none
    | some fileType =>
      if fileType ≠ .blockDevice then
        some (s.drop devInode, .error .perm)
      else
        match (s.drop devInode).resolvePath dirName with
        | none => none
        | some (s', none) => some (s', .error .noent)
        | some (s', some dirInode) =>
          some (s', .ok (s.deviceNumber devInode, dirInode))

/-- What `sys_mount` asks of the directory and of the mount table; `none`
lets it go on. -/
def mountChecks (s : MountSys) (dev : DevNum) (dirInode : Nat)
    (fileType : InodeType) : Option MountErrno :=
  if fileType ≠ .directory then some .perm
  else if (s.inodes.heap dirInode).id.inodeNumber = rootInodeNumber then
    some .busy
  else if (s.findFs dev).isSome then some .busy
  else if s.isMountPoint (s.inodes.heap dirInode).id then some .perm
  else none

/-- `sys_mount` from its checks on; `opens` says that
`MinixFileSystem::open` succeeds. -/
def mountOn (s : MountSys) (dev : DevNum) (dirInode : Nat) (opens : Bool) :
    Option (MountSys × Except MountErrno Unit) :=
  match s.fileType dirInode with
  | none => none
  | some fileType =>
    match s.mountChecks dev dirInode fileType with
    | some e => some (s.drop dirInode, .error e)
    | none =>
      if opens then
        let newFs := s.freshFs
        match s.acquireRaw ⟨dev, rootInodeNumber⟩ newFs with
        | none => none
        | some (s, rootInode) =>
          match s.insert ⟨dev, newFs, rootInode, some dirInode⟩ with
          | some s => some (s, .ok ())
          | none => some ((s.drop rootInode).drop dirInode, .error .busy)
      else some (s.drop dirInode, .error .busy)

def sysMount (s : MountSys) (devName dirName : PathLookup) (opens : Bool) :
    Option (MountSys × Except MountErrno Unit) :=
  match s.mountArguments devName dirName with
  | none => none
  | some (s, .error e) => some (s, .error e)
  | some (s, .ok (dev, dirInode)) => s.mountOn dev dirInode opens

/-- `MountTable::remove_by_device`, with the handles of the entry. -/
def removeByDevice (s : MountSys) (dev : DevNum) : MountSys :=
  match s.table.findIdx? (fun slot => slot.any (·.device = dev)) with
  | none => s
  | some slot =>
    match (s.table[slot]?).join with
    | none => s
    | some mount =>
      let s := { s with table := s.table.set slot none }
      let s := s.drop mount.rootInode
      match mount.mountPointInode with
      | none => s
      | some p => s.drop p

def umountDevice (s : MountSys) (dev : DevNum) :
    Option (MountSys × Except MountErrno Unit) :=
  if dev = s.rootDev then some (s, .error .busy)
  else if (s.findFs dev).isNone then some (s, .error .noent)
  else if s.inodes.hasActiveInodes dev then some (s, .error .busy)
  else
    (s.evictDevice dev (List.range inodeTableCapacity)).map fun s =>
      (s.removeByDevice dev, .ok ())

def sysUmount (s : MountSys) (devName : PathLookup) :
    Option (MountSys × Except MountErrno Unit) :=
  match s.resolvePath devName with
  | none => none
  | some (s, none) => some (s, .error .noent)
  | some (s, some devInode) =>
    match s.fileType devInode with
    | none => none
    | some fileType =>
      if fileType ≠ .blockDevice then
        some (s.drop devInode, .error .notblk)
      else (s.drop devInode).umountDevice (s.deviceNumber devInode)

-- ======== the steps

/-- `mount_root`: the root file system, its root held by the entry and
twice by the first task. -/
def boot (disk : MinixDisk) (rootDev : DevNum) : Option MountSys :=
  let s : MountSys := ⟨List.replicate MountTable.capacity none,
    ⟨disk, fun _ => none, 0,
      fun _ => ⟨⟨⟨0#16⟩, 0#16⟩, ⟨.zeroed, false, 0#32, 0#32⟩, 0⟩, 0⟩,
    fun _ => 0, rootDev⟩
  match s.acquireRaw ⟨rootDev, rootInodeNumber⟩ 1 with
  | none => none
  | some (s, root) =>
    match s.insert ⟨rootDev, 1, root, none⟩ with
    | none => none
    | some s => some ((s.clone root).clone root)

/-- `alloc_inode`, and `alloc_and_link` up to the new directory entry. -/
def allocInode (s : MountSys) (id : InodeId) (inode : DiskInode)
    (now : BitVec 32) : Option (MountSys × Nat) :=
  match s.findFs id.device with
  | none => none
  | some fs =>
    if s.inodes.disk.inodeBitmap id ∨ id.inodeNumber = 0#16 then none
    else
      let s := { s with inodes := { s.inodes with
        disk := { s.inodes.disk.writeInode id .zeroed with
          inodeBitmap :=
            Function.update s.inodes.disk.inodeBitmap id true } } }
      (s.acquireRaw id fs).map fun r =>
        ({ r.1 with inodes := r.1.inodes.writeInner r.2 inode now now }, r.2)

end MountSys

/-- Mount calls and what else touches the table of mounts. -/
inductive MountOp
  | resolve (id : InodeId)
  | clone (a : Nat)
  | drop (a : Nat)
  | write (a : Nat) (inode : DiskInode) (accessTime changeTime : BitVec 32)
  | alloc (id : InodeId) (inode : DiskInode) (now : BitVec 32)
  | sync
  | mount (devName dirName : PathLookup) (opens : Bool)
  | umount (devName : PathLookup)

def MountSys.step (s : MountSys) :
    MountOp → Option (MountSys × Except MountErrno Unit)
  | .resolve id => (s.resolveInode id).map fun r => (r.1, .ok ())
  | .clone a =>
    if s.taskHandles a = 0 then none else some (s.clone a, .ok ())
  | .drop a =>
    if s.taskHandles a = 0 then none else some (s.drop a, .ok ())
  | .write a inode accessTime changeTime =>
    if s.taskHandles a = 0 then none
    else some ({ s with
      inodes := s.inodes.writeInner a inode accessTime changeTime }, .ok ())
  | .alloc id inode now =>
    (s.allocInode id inode now).map fun r => (r.1, .ok ())
  | .sync => some (s.syncInodes, .ok ())
  | .mount devName dirName opens => s.sysMount devName dirName opens
  | .umount devName => s.sysUmount devName

end LinuxRs.Fs
