/-
What miniximg reads from an image: `open`, `inspect`, `check`, and the
operations that list and read
(miniximg/miniximg-core/src/{bitmap,fs,report}.rs).

# Opening

The image is its bytes. A block that is not all there cannot be read, and
what `open` keeps of the header is the header as it stands: nothing compares
the lengths of the bitmaps with what they have to describe.

# The stack

`collect_tree_entries` calls itself for each child, so `tree` is given the
number of calls that the stack has room for; one call too many is a panic.
-/
import LinuxRs.Miniximg.Ops
import Mathlib.Data.List.Sort

namespace LinuxRs.Miniximg

open LinuxRs.Lib
open LinuxRs.Minix

-- ======== bitmaps

namespace Bitmap

def fromBlocks (startIndex bitCount : Nat) (blocks : List Block) : Bitmap where
  startIndex := startIndex
  bitCount := bitCount
  blockCount := blocks.length
  bits := fun relative =>
    (blocks.getD (relative / 8 / blockSize) zeroBlock
      (relative / 8 % blockSize)).getLsbD (relative % 8)

/-- The loop of `Bitmap::count_free`, with `left` values to go. -/
def countFreeFrom (b : Bitmap) (relative : Nat) : Nat → Except Stop Nat
  | 0 => .ok 0
  | left + 1 => do
      let taken ← b.isSet (b.startIndex + relative)
      let rest ← b.countFreeFrom (relative + 1) left
      return if taken then rest else rest + 1

def countFree (b : Bitmap) : Except Stop Nat := b.countFreeFrom 0 b.bitCount

end Bitmap

-- ======== opening

/-- A store that holds some bytes; a tail shorter than a block cannot be
read. -/
def Storage.ofBytes (bytes : List Byte) : Storage where
  blocks := fun n i => bytes.getD (n * blockSize + i) 0#8
  count := bytes.length / blockSize

def readBlocks (s : Storage) (blockNumber : Nat) :
    Nat → Except Stop (List Block)
  | 0 => .ok []
  | left + 1 => do
      let block ← s.read blockNumber
      return block :: (← readBlocks s (blockNumber + 1) left)

def hexWord (word : BitVec 16) : Text :=
  text (String.ofList ([4096, 256, 16, 1].map fun unit =>
    Nat.digitChar (word.toNat / unit % 16)))

/-- The checks of `open` on the super block. -/
def checkSuperBlock (sb : DiskSuperBlock) : Except MinixError Unit :=
  if sb.magic ≠ minixSuperMagic then
    .error (.corrupt (text "invalid Minix super-block magic 0x"
      ++ hexWord sb.magic))
  else if sb.logZoneSize ≠ 0#16 then
    .error (.unsupported (text "unsupported log-zone size "
      ++ number sb.logZoneSize.toNat ++ text "; only zero is supported"))
  else if sb.inodeCount = 0#16 then
    .error (.corrupt (text "the image reports zero inodes"))
  else if sb.firstDataZone.toNat ≥ sb.zoneCount.toNat then
    .error (.corrupt
      (text "the first data zone is outside the reported zone range"))
  else .ok ()

/-- `MinixFileSystem::open`; a first data zone of 0 underflows. -/
def openImage (storage : Storage) : Except Stop MinixFileSystem := do
  let block ← storage.read 1
  let sb := DiskSuperBlock.decode block
  (checkSuperBlock sb).mapError Stop.failed
  let inodeBlocks ← readBlocks storage 2 sb.inodeBitmapBlockCount.toNat
  let zoneBlocks ← readBlocks storage (2 + sb.inodeBitmapBlockCount.toNat)
    sb.zoneBitmapBlockCount.toNat
  if sb.firstDataZone.toNat = 0 then .error .panicked
  else
    return {
      storage := storage
      superBlock := sb
      inodeBitmap := .fromBlocks 0 (sb.inodeCount.toNat + 1) inodeBlocks
      zoneBitmap := .fromBlocks (sb.firstDataZone.toNat - 1)
        (sb.zoneCount.toNat - sb.firstDataZone.toNat + 1) zoneBlocks }

-- ======== reports

structure NodeMetadata where
  path : Text
  inodeNumber : BitVec 16
  kind : InodeType
  mode : BitVec 16
  uid : BitVec 16
  gid : Byte
  size : BitVec 32
  linkCount : Byte
  modificationTime : BitVec 32
  deviceNumber : Option (BitVec 16)

structure DirectoryEntryInfo where
  name : Text
  metadata : NodeMetadata

structure TreeEntry where
  depth : Nat
  metadata : NodeMetadata

structure InspectReport where
  blockSize : Nat
  magic : BitVec 16
  inodeCount : BitVec 16
  zoneCount : BitVec 16
  inodeBitmapBlocks : BitVec 16
  zoneBitmapBlocks : BitVec 16
  firstDataZone : BitVec 16
  maxFileSize : BitVec 32
  freeInodes : Nat
  freeZones : Nat
  rootEntries : List DirectoryEntryInfo

structure CheckIssue where
  path : Option Text
  message : Text

def MinixError.display : MinixError → Text
  | .invalidPath path => text "invalid image path `" ++ path ++ text "`"
  | .nameTooLong name maxBytes => text "path component `" ++ name
      ++ text "` exceeds the " ++ number maxBytes
      ++ text "-byte Minix name limit"
  | .io message => message
  | .invalidArgument message => message
  | .unsupported message => message
  | .corrupt message => message
  | .notFound message => message
  | .alreadyExists message => message
  | .notDirectory message => message
  | .isDirectory message => message
  | .directoryNotEmpty message => message
  | .noSpace message => message

def unrecognized (inodeNumber : BitVec 16) : Text :=
  text "inode " ++ number inodeNumber.toNat
    ++ text " has an unrecognized type field"

-- ======== listing

def nodeMetadata (path : Text) (inodeNumber : BitVec 16) :
    Io NodeMetadata := do
  let inode ← readInode inodeNumber
  match inode.mode.fileType with
  | none => Io.fail (.corrupt (unrecognized inodeNumber))
  | some kind => return {
      path := path
      inodeNumber := inodeNumber
      kind := kind
      mode := inode.mode
      uid := inode.userId
      gid := inode.groupId
      size := inode.size
      linkCount := inode.linkCount
      modificationTime := inode.modificationTime
      deviceNumber :=
        if kind = .blockDevice ∨ kind = .characterDevice then
          some (inode.directZones ⟨0, directZoneCount_pos⟩)
        else none }

def childPath (basePath name : Text) : Text :=
  if basePath = [slash] then slash :: name else basePath ++ slash :: name

def listEntries (basePath : Text) :
    List DiskDirectoryEntry → Io (List DirectoryEntryInfo)
  | [] => return []
  | e :: rest =>
    if e.inodeNumber = 0#16 then listEntries basePath rest
    else do
      let name ← Io.check (entryName e)
      if name = dotName ∨ name = dotdotName then listEntries basePath rest
      else
        let metadata ← nodeMetadata (childPath basePath name) e.inodeNumber
        return ⟨name, metadata⟩ :: (← listEntries basePath rest)

def nameLe : Text → Text → Bool
  | [], _ => true
  | _ :: _, [] => false
  | a :: s, b :: t => a < b || (a = b && nameLe s t)

/-- The order of `sort_by` with the name as key. -/
def EntryLe (a b : DirectoryEntryInfo) : Prop := nameLe a.name b.name = true

instance : DecidableRel EntryLe := fun a b =>
  inferInstanceAs (Decidable (nameLe a.name b.name = true))

def listDirectory (inodeNumber : BitVec 16) (basePath : Text) :
    Io (List DirectoryEntryInfo) := do
  let entries ← readDirectoryEntries inodeNumber
  let listing ← listEntries basePath entries
  return listing.insertionSort EntryLe

def inspect : Io InspectReport := do
  let fs ← get
  let freeInodes ← Io.of fs.inodeBitmap.countFree
  let freeZones ← Io.of fs.zoneBitmap.countFree
  let rootEntries ← listDirectory rootInodeNumber [slash]
  return {
    blockSize := Minix.blockSize
    magic := fs.superBlock.magic
    inodeCount := fs.superBlock.inodeCount
    zoneCount := fs.superBlock.zoneCount
    inodeBitmapBlocks := fs.superBlock.inodeBitmapBlockCount
    zoneBitmapBlocks := fs.superBlock.zoneBitmapBlockCount
    firstDataZone := fs.superBlock.firstDataZone
    maxFileSize := fs.superBlock.maxFileSize
    freeInodes := freeInodes - 1
    freeZones := freeZones - 1
    rootEntries := rootEntries }

def stat (path : Text) : Io NodeMetadata := do
  let path ← Io.check (ImagePath.parse path)
  let inodeNumber ← resolvePath path
  nodeMetadata path.display inodeNumber

def listPath (path : Text) : Io (List DirectoryEntryInfo) := do
  let path ← Io.check (ImagePath.parse path)
  let inodeNumber ← resolvePath path
  let inode ← readInode inodeNumber
  match inode.mode.fileType with
  | some .directory => listDirectory inodeNumber path.display
  | some _ => do
      let metadata ← nodeMetadata path.display inodeNumber
      return [⟨path.getLast?.getD [slash], metadata⟩]
  | none => Io.fail (.corrupt (unrecognized inodeNumber))

def readFileAtPath (path : Text) : Io (List Byte) := do
  let path ← Io.check (ImagePath.parse path)
  let inodeNumber ← resolvePath path
  let inode ← readInode inodeNumber
  match inode.mode.fileType with
  | some .regular => readInodeContents inode
  | some .directory => Io.fail (.isDirectory (about path "` is a directory"))
  | some _ => Io.fail (.unsupported (about path
      "` is a special inode and cannot be read as a regular file"))
  | none => Io.fail (.corrupt (unrecognized inodeNumber))

/-- What `collect_tree_entries` carries along: the directories it has been
in, and the entries so far. -/
structure TreeWalk where
  visited : List (BitVec 16)
  entries : List TreeEntry

def walkChildren (visit : DirectoryEntryInfo → TreeWalk → Io TreeWalk) :
    List DirectoryEntryInfo → TreeWalk → Io TreeWalk
  | [], walk => return walk
  | child :: rest, walk => do
      let walk ← visit child walk
      walkChildren visit rest walk

/-- `collect_tree_entries`, on a stack with room for `frames` calls. -/
def collectTreeEntries : Nat → Text → BitVec 16 → Nat → TreeWalk → Io TreeWalk
  | 0, _, _, _, _ => Io.of (.error .panicked)
  | frames + 1, path, inodeNumber, depth, walk => do
      let metadata ← nodeMetadata path inodeNumber
      let walk := { walk with entries := walk.entries ++ [⟨depth, metadata⟩] }
      if metadata.kind ≠ .directory ∨ inodeNumber ∈ walk.visited then
        return walk
      else
        let children ← listDirectory inodeNumber path
        walkChildren
          (fun child => collectTreeEntries frames child.metadata.path
            child.metadata.inodeNumber (depth + 1))
          children { walk with visited := inodeNumber :: walk.visited }

def tree (frames : Nat) (path : Text) : Io (List TreeEntry) := do
  let path ← Io.check (ImagePath.parse path)
  let inodeNumber ← resolvePath path
  let walk ← collectTreeEntries frames path.display inodeNumber 0 ⟨[], []⟩
  return walk.entries

-- ======== check

def Io.attempt {A : Type} (x : Io A) : Io (Except MinixError A) := fun fs =>
  match x fs with
  | .ok a fs' => .ok (.ok a) fs'
  | .error (.failed e) fs' => .ok (.error e) fs'
  | .error .panicked fs' => .error .panicked fs'

def inodeNumbers (sb : DiskSuperBlock) : List (BitVec 16) :=
  (List.range sb.inodeCount.toNat).map fun k => BitVec.ofNat 16 (k + 1)

/-- The loop of `collect_referenced_inodes`. -/
def collectReferencedFrom :
    List (BitVec 16) → List (BitVec 16) → Io (List (BitVec 16))
  | [], referenced => return referenced
  | inodeNumber :: rest, referenced => do
      let fs ← get
      if ¬ (← Io.of (fs.inodeBitmap.isSet inodeNumber.toNat)) then
        collectReferencedFrom rest referenced
      else
        match ← Io.attempt (readInode inodeNumber) with
        | .error _ => collectReferencedFrom rest referenced
        | .ok inode =>
          if inode.mode.fileType ≠ some .directory then
            collectReferencedFrom rest referenced
          else
            match ← Io.attempt (readDirectoryEntries inodeNumber) with
            | .error _ => collectReferencedFrom rest referenced
            | .ok entries => collectReferencedFrom rest (referenced
                ++ (entries.map DiskDirectoryEntry.inodeNumber).filter
                  (· ≠ 0#16))

def collectReferencedInodes : Io (List (BitVec 16)) := do
  let fs ← get
  collectReferencedFrom (inodeNumbers fs.superBlock) []

def zoneInRange (sb : DiskSuperBlock) (zone : Zone) : Bool :=
  sb.firstDataZone.toNat ≤ zone.toNat ∧ zone.toNat < sb.zoneCount.toNat

def issueOf (inodeNumber : BitVec 16) (message : Text) : CheckIssue :=
  ⟨some (text "inode " ++ number inodeNumber.toNat), message⟩

def zoneIssue (inodeNumber : BitVec 16) (kind : String) (zone : Zone) :
    CheckIssue :=
  issueOf inodeNumber (text kind ++ text " zone " ++ number zone.toNat
    ++ text " is outside the valid data-zone range")

def zoneIssues (sb : DiskSuperBlock) (inodeNumber : BitVec 16)
    (kind : String) (zones : List Zone) : List CheckIssue :=
  (zones.filter fun zone => zone ≠ 0#16 ∧ ¬ zoneInRange sb zone).map
    (zoneIssue inodeNumber kind)

def checkInnerTables (inodeNumber : BitVec 16) :
    List Zone → Io (List CheckIssue)
  | [] => return []
  | innerZone :: rest => do
      let fs ← get
      if ¬ zoneInRange fs.superBlock innerZone then
        return zoneIssue inodeNumber "double-indirect child" innerZone
          :: (← checkInnerTables inodeNumber rest)
      else
        match ← Io.attempt (readIndirectBlock innerZone) with
        | .error _ => checkInnerTables inodeNumber rest
        | .ok table => do
            let issues := zoneIssues fs.superBlock inodeNumber
              "double-indirect data" (tableZones table)
            return issues ++ (← checkInnerTables inodeNumber rest)

/-- The single-indirect part of `check_inode_zones`. -/
def checkSingle (inodeNumber : BitVec 16) (inode : DiskInode) :
    Io (List CheckIssue) := do
  let fs ← get
  if inode.singleIndirectZone = 0#16 then return []
  else if ¬ zoneInRange fs.superBlock inode.singleIndirectZone then
    return [zoneIssue inodeNumber "single-indirect" inode.singleIndirectZone]
  else
    match ← Io.attempt (readIndirectBlock inode.singleIndirectZone) with
    | .error _ => return []
    | .ok table => return (zoneIssues fs.superBlock inodeNumber
        "indirect data" (tableZones table))

/-- The double-indirect part of `check_inode_zones`. -/
def checkDouble (inodeNumber : BitVec 16) (inode : DiskInode) :
    Io (List CheckIssue) := do
  let fs ← get
  if inode.doubleIndirectZone = 0#16 then return []
  else if ¬ zoneInRange fs.superBlock inode.doubleIndirectZone then
    return [zoneIssue inodeNumber "double-indirect" inode.doubleIndirectZone]
  else
    match ← Io.attempt (readIndirectBlock inode.doubleIndirectZone) with
    | .error _ => return []
    | .ok table => checkInnerTables inodeNumber (tableZones table)

def checkInodeZones (inodeNumber : BitVec 16) (inode : DiskInode) :
    Io (List CheckIssue) := do
  let fs ← get
  let single ← checkSingle inodeNumber inode
  let double ← checkDouble inodeNumber inode
  return zoneIssues fs.superBlock inodeNumber "direct"
    ((List.finRange 7).map inode.directZones) ++ single ++ double

def checkEntry (sb : DiskSuperBlock) (inodeNumber : BitVec 16)
    (e : DiskDirectoryEntry) : List CheckIssue :=
  if e.inodeNumber = 0#16 then []
  else
    match entryName e with
    | .error error => [issueOf inodeNumber error.display]
    | .ok name =>
      let path := text "inode " ++ number inodeNumber.toNat
        ++ text " entry " ++ name
      (if name.length > minixNameLength then [⟨some path,
        text "directory entry name exceeds the Minix file-name limit"⟩]
        else [])
      ++ (if e.inodeNumber.toNat > sb.inodeCount.toNat then [⟨some path,
        text "directory entry references inode " ++ number e.inodeNumber.toNat
          ++ text " outside the valid range"⟩] else [])

def checkDirectoryEntries (inodeNumber : BitVec 16) (inode : DiskInode) :
    Io (List CheckIssue) := do
  let fs ← get
  if inode.size.toNat % directoryEntrySize ≠ 0 then
    return [issueOf inodeNumber (text "directory size "
      ++ number inode.size.toNat ++ text " is not aligned to "
      ++ number directoryEntrySize ++ text " bytes")]
  else
    match ← Io.attempt (readDirectoryEntries inodeNumber) with
    | .error error => return [issueOf inodeNumber error.display]
    | .ok entries =>
      return entries.flatMap (checkEntry fs.superBlock inodeNumber)

def isZeroed (inode : DiskInode) : Bool :=
  inode.mode = 0#16 ∧ inode.userId = 0#16 ∧ inode.size = 0#32
    ∧ inode.modificationTime = 0#32 ∧ inode.groupId = 0#8
    ∧ inode.linkCount = 0#8
    ∧ (List.finRange 7).all (fun k => inode.directZones k = 0#16)
    ∧ inode.singleIndirectZone = 0#16 ∧ inode.doubleIndirectZone = 0#16

def checkInode (referenced : List (BitVec 16)) (inodeNumber : BitVec 16) :
    Io (List CheckIssue) := do
  let fs ← get
  if ¬ (← Io.of (fs.inodeBitmap.isSet inodeNumber.toNat)) then return []
  else
    match ← Io.attempt (readInode inodeNumber) with
    | .error error => return [issueOf inodeNumber error.display]
    | .ok inode =>
      match inode.mode.fileType with
      | none =>
        if isZeroed inode ∧ inodeNumber ∉ referenced then return []
        else return [issueOf inodeNumber (unrecognized inodeNumber)]
      | some kind => do
          let zones ← (if kind = .regular ∨ kind = .directory then
              checkInodeZones inodeNumber inode
            else pure [])
          let entries ← (if kind = .directory then
              checkDirectoryEntries inodeNumber inode
            else pure [])
          return zones ++ entries

def checkInodes (referenced : List (BitVec 16)) :
    List (BitVec 16) → Io (List CheckIssue)
  | [] => return []
  | inodeNumber :: rest => do
      let issues ← checkInode referenced inodeNumber
      return issues ++ (← checkInodes referenced rest)

def checkRoot : Io (List CheckIssue) := do
  let fs ← get
  let taken ← Io.of (fs.inodeBitmap.isSet rootInodeNumber.toNat)
  let root ← Io.attempt (readInode rootInodeNumber)
  return (if taken then [] else [⟨some [slash],
      text "root inode is not marked allocated in the inode bitmap"⟩])
    ++ match root with
      | .ok inode =>
        if inode.mode.fileType ≠ some .directory then
          [⟨some [slash], text "root inode is not a directory"⟩] else []
      | .error _ => []

def check : Io (List CheckIssue) := do
  let referenced ← collectReferencedInodes
  let root ← checkRoot
  let fs ← get
  let issues ← checkInodes referenced (inodeNumbers fs.superBlock)
  return root ++ issues

end LinuxRs.Miniximg
