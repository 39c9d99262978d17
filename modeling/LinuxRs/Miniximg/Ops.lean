/-
Directories, paths and the operations of `MinixFileSystem`
(miniximg/miniximg-core/src/{path,fs}.rs), with `create`.

What the source does to a directory's entries in memory is a function on the
list of entries here; reading them and writing them back is the rest. An
operation that returns has had no error on the way: the source propagates
every one of them.
-/
import LinuxRs.Miniximg.Image
import LinuxRs.Lib.Utf8

namespace LinuxRs.Miniximg

open LinuxRs.Lib
open LinuxRs.Minix

-- ======== paths

def dotName : Text := [0x2e#8]

def dotdotName : Text := [0x2e#8, 0x2e#8]

def slash : Byte := 0x2f#8

abbrev ImagePath := List Text

/-- The check of one component, in `ImagePath::parse` for the whole path and
in `ImagePath::join_name` for the name. -/
def checkComponent (whole component : Text) : Except MinixError Unit :=
  if component = [] ∨ component = dotName ∨ component = dotdotName then
    .error (.invalidPath whole)
  else if component.length > minixNameLength then
    .error (.nameTooLong component minixNameLength)
  else .ok ()

def checkComponents (whole : Text) : List Text → Except MinixError ImagePath
  | [] => .ok []
  | component :: rest => do
      checkComponent whole component
      return component :: (← checkComponents whole rest)

def ImagePath.parse (path : Text) : Except MinixError ImagePath :=
  if path.head? ≠ some slash then .error (.invalidPath path)
  else if path = [slash] then .ok []
  else checkComponents path ((path.splitOn slash).drop 1)

def ImagePath.display (path : ImagePath) : Text :=
  if path = [] then [slash] else slash :: [slash].intercalate path

-- ======== names

def rawName (e : DiskDirectoryEntry) : Text := e.name.takeWhile (· ≠ 0#8)

def entryName (e : DiskDirectoryEntry) : Except MinixError Text :=
  if Utf8.utf8Valid (rawName e) then .ok (rawName e)
  else .error (.corrupt
    (text "directory entry contains non-UTF-8 file-name bytes"))

def paddedName (name : Text) : List Byte :=
  name ++ List.replicate (minixNameLength - name.length) 0#8

def newEntry (name : Text) (inodeNumber : BitVec 16) :
    Except MinixError DiskDirectoryEntry :=
  if h : name.length > minixNameLength then
    .error (.nameTooLong name minixNameLength)
  else .ok {
    inodeNumber := inodeNumber
    name := paddedName name
    name_length := by
      unfold paddedName
      rw [List.length_append, List.length_replicate]
      omega }

-- ======== entries

def lookupEntry (name : Text) :
    List DiskDirectoryEntry → Except MinixError (Option (BitVec 16))
  | [] => .ok none
  | e :: rest =>
    if e.inodeNumber = 0#16 then lookupEntry name rest
    else do
      if (← entryName e) = name then return some e.inodeNumber
      else lookupEntry name rest

def placeEntry (fresh : DiskDirectoryEntry) :
    List DiskDirectoryEntry → List DiskDirectoryEntry
  | [] => [fresh]
  | e :: rest =>
    if e.inodeNumber = 0#16 then fresh :: rest else e :: placeEntry fresh rest

/-- What `add_directory_entry` does to the entries. -/
def addEntry (entries : List DiskDirectoryEntry) (name : Text)
    (childInode : BitVec 16) : Except MinixError (List DiskDirectoryEntry) := do
  match ← lookupEntry name entries with
  | some _ => .error (.alreadyExists (text "directory entry `" ++ name
      ++ text "` already exists"))
  | none => return placeEntry (← newEntry name childInode) entries

/-- The loop of `remove_directory_entry`: the entries after it and the inode
number of the entry it removed. -/
def dropEntry (name : Text) (expectedInode : BitVec 16) :
    List DiskDirectoryEntry →
      Except MinixError (List DiskDirectoryEntry × Option (BitVec 16))
  | [] => .ok ([], none)
  | e :: rest =>
    if e.inodeNumber = 0#16 then do
      let r ← dropEntry name expectedInode rest
      return (e :: r.1, r.2)
    else do
      if (← entryName e) = name then
        if e.inodeNumber ≠ expectedInode then
          .error (.corrupt (text "directory entry `" ++ name
            ++ text "` points to inode " ++ number e.inodeNumber.toNat
            ++ text ", expected " ++ number expectedInode.toNat))
        else return (.empty :: rest, some e.inodeNumber)
      else
        let r ← dropEntry name expectedInode rest
        return (e :: r.1, r.2)

/-- What `remove_directory_entry` does to the entries. -/
def removeEntry (entries : List DiskDirectoryEntry) (name : Text)
    (expectedInode : BitVec 16) :
    Except MinixError (List DiskDirectoryEntry) := do
  let r ← dropEntry name expectedInode entries
  match r.2 with
  | some _ => return r.1
  | none => .error (.notFound (text "directory entry `" ++ name
      ++ text "` does not exist"))

def entryChunks : Nat → List Byte → List (List Byte)
  | 0, _ => []
  | n + 1, bytes => bytes.take directoryEntrySize
      :: entryChunks n (bytes.drop directoryEntrySize)

def decodeEntries (bytes : List Byte) : List DiskDirectoryEntry :=
  (entryChunks (bytes.length / directoryEntrySize) bytes).map DiskDirectoryEntry.decode

def encodeEntries (entries : List DiskDirectoryEntry) : List Byte :=
  entries.flatMap DiskDirectoryEntry.encode

-- ======== directories

def readDirectoryEntries (inodeNumber : BitVec 16) :
    Io (List DiskDirectoryEntry) := do
  let inode ← readInode inodeNumber
  if inode.mode.fileType ≠ some .directory then
    Io.fail (.notDirectory (text "inode " ++ number inodeNumber.toNat
      ++ text " is not a directory"))
  else
    let bytes ← readInodeContents inode
    if bytes.length % directoryEntrySize ≠ 0 then
      Io.fail (.corrupt (text "directory inode " ++ number inodeNumber.toNat
        ++ text " has a size that is not aligned to "
        ++ number directoryEntrySize ++ text " bytes"))
    else return decodeEntries bytes

def writeDirectoryEntriesWithInode (inodeNumber : BitVec 16)
    (entries : List DiskDirectoryEntry) (mtime : BitVec 32) : InodeIo Unit :=
  writeInodeContents inodeNumber (encodeEntries entries) mtime

def writeDirectoryEntries (inodeNumber : BitVec 16)
    (entries : List DiskDirectoryEntry) (mtime : BitVec 32) : Io Unit := do
  let inode ← readInode inodeNumber
  let _ ← Io.withInode inode
    (writeDirectoryEntriesWithInode inodeNumber entries mtime)

def lookupChild (directoryInode : BitVec 16) (name : Text) :
    Io (Option (BitVec 16)) := do
  let entries ← readDirectoryEntries directoryInode
  Io.check (lookupEntry name entries)

def addDirectoryEntry (directoryInode : BitVec 16) (name : Text)
    (childInode : BitVec 16) (mtime : BitVec 32) : Io Unit := do
  let entries ← readDirectoryEntries directoryInode
  let entries ← Io.check (addEntry entries name childInode)
  writeDirectoryEntries directoryInode entries mtime

def freeInode (inodeNumber : BitVec 16) (inode : DiskInode) : Io Unit := do
  let _ ← Io.withInode inode freeInodeData
  freeInodeNumber inodeNumber

def orFree (inodeNumber : BitVec 16) (inode : DiskInode) (x : Io Unit) :
    Io Unit := fun fs =>
  match x fs with
  | .ok () fs' => .ok () fs'
  | .error (.failed e) fs' =>
    EStateM.bind (freeInode inodeNumber inode)
      (fun _ => Io.fail e) fs'
  | .error .panicked fs' => .error .panicked fs'

structure CreateNodeOptions where
  mode : BitVec 16
  uid : BitVec 16
  gid : Byte
  mtime : BitVec 32

def linkMore (count : Byte) : Byte := if count = 0xff#8 then count else count + 1#8

def changeLinks (inodeNumber : BitVec 16) (f : Byte → Byte) : Io Unit := do
  let inode ← readInode inodeNumber
  writeInode inodeNumber { inode with linkCount := f inode.linkCount }

def createDirectory (parentInodeNumber : BitVec 16) (name : Text)
    (options : CreateNodeOptions) : Io (BitVec 16) := do
  let inodeNumber ← allocateInodeNumber
  let zone ← allocateZone
  let inode : DiskInode := { DiskInode.zeroed with
    mode := InodeMode.directory options.mode
    userId := options.uid
    groupId := options.gid
    modificationTime := options.mtime
    linkCount := 2#8
    directZones := Function.update (fun _ => 0#16) ⟨0, by decide⟩ zone }
  let dot ← Io.check (newEntry dotName inodeNumber)
  let dotdot ← Io.check (newEntry dotdotName parentInodeNumber)
  let inode ← Io.withInode inode
    (writeDirectoryEntriesWithInode inodeNumber [dot, dotdot] options.mtime)
  orFree inodeNumber inode
    (addDirectoryEntry parentInodeNumber name inodeNumber options.mtime)
  changeLinks parentInodeNumber linkMore
  return inodeNumber

def about (path : ImagePath) (rest : String) : Text :=
  text "`" ++ path.display ++ text rest

def resolveFrom (path : ImagePath) : List Text → BitVec 16 → Io (BitVec 16)
  | [], current => return current
  | component :: rest, current => do
      let inode ← readInode current
      if inode.mode.fileType ≠ some .directory then
        Io.fail (.notDirectory (about path "` is not a directory"))
      else
        match ← lookupChild current component with
        | some child => resolveFrom path rest child
        | none => Io.fail (.notFound (about path "` does not exist"))

def resolvePath (path : ImagePath) : Io (BitVec 16) :=
  resolveFrom path path rootInodeNumber

structure CreateImageOptions where
  imageSize : Nat
  inodeCount : BitVec 16
  rootMode : BitVec 16
  defaultUid : BitVec 16
  defaultGid : Byte
  defaultMtime : BitVec 32

def divCeil (n d : Nat) : Nat := (n + (d - 1)) / d

/-- The loop that sizes the zone bitmap, for as many rounds as `fuel`. It
ends with a size that asks for itself, or with no room for data. -/
def sizeZoneBitmap (zoneCount metadata : Nat) :
    Nat → Nat → Option (Except MinixError Nat)
  | 0, _ => none
  | fuel + 1, zoneBitmapBlockCount =>
    let firstDataZone := metadata + zoneBitmapBlockCount
    if firstDataZone ≥ zoneCount then
      some (.error (.invalidArgument
        (text "image is too small to hold the requested metadata layout")))
    else
      let required := divCeil (zoneCount - firstDataZone + 1) bitsPerBlock
      if required = zoneBitmapBlockCount then some (.ok zoneBitmapBlockCount)
      else sizeZoneBitmap zoneCount metadata fuel (Nat.max required 1)

/-- The checks of `create` before the loop. -/
def checkOptions (options : CreateImageOptions) : Except MinixError Unit :=
  if options.imageSize = 0 ∨ options.imageSize % blockSize ≠ 0 then
    .error (.invalidArgument (text "image size must be a non-zero multiple of "
      ++ number blockSize ++ text " bytes"))
  else if options.imageSize / blockSize > 65535 then
    .error (.invalidArgument
      (text "image is too large for the 16-bit Minix zone count"))
  else if options.inodeCount = 0#16 then
    .error (.invalidArgument (text "inode count must be greater than zero"))
  else .ok ()

def newSuperBlock (options : CreateImageOptions) (zoneBitmapBlockCount : Nat) :
    DiskSuperBlock :=
  let inodeBitmapBlockCount :=
    divCeil (options.inodeCount.toNat + 1) bitsPerBlock
  let inodeTableBlockCount := divCeil options.inodeCount.toNat inodesPerBlock
  { inodeCount := options.inodeCount
    zoneCount := BitVec.ofNat 16 (options.imageSize / blockSize)
    inodeBitmapBlockCount := BitVec.ofNat 16 inodeBitmapBlockCount
    zoneBitmapBlockCount := BitVec.ofNat 16 zoneBitmapBlockCount
    firstDataZone := BitVec.ofNat 16 (2 + inodeBitmapBlockCount
      + zoneBitmapBlockCount + inodeTableBlockCount)
    logZoneSize := 0#16
    maxFileSize := Minix.maxFileSize
    magic := minixSuperMagic }

/-- The first `n` blocks of a store zeroed. -/
def zeroBlocks (s : Storage) : Nat → Storage
  | 0 => s
  | n + 1 => (zeroBlocks s n).write n zeroBlock

def createRoot (options : CreateImageOptions) : Io Unit := do
  syncSuperBlock
  let _ ← allocateInodeNumber
  let rootZone ← allocateZone
  let rootInode : DiskInode := { DiskInode.zeroed with
    mode := InodeMode.directory options.rootMode
    userId := options.defaultUid
    groupId := options.defaultGid
    modificationTime := options.defaultMtime
    linkCount := 2#8
    directZones := Function.update (fun _ => 0#16) ⟨0, by decide⟩
      rootZone
    size := BitVec.ofNat 32 (directoryEntrySize * 2) }
  let dot ← Io.check (newEntry dotName rootInodeNumber)
  let dotdot ← Io.check (newEntry dotdotName rootInodeNumber)
  let rootInode ← Io.withInode rootInode (writeDirectoryEntriesWithInode
    rootInodeNumber [dot, dotdot] options.defaultMtime)
  writeInode rootInodeNumber rootInode

/-- An image with its metadata in place and its bitmaps empty but for their
reserved bits. -/
def blankImage (storage : Storage) (options : CreateImageOptions)
    (zoneBitmapBlockCount : Nat) : Except Stop MinixFileSystem := do
  let sb := newSuperBlock options zoneBitmapBlockCount
  let zoneCount := options.imageSize / blockSize
  let firstDataZone := sb.firstDataZone.toNat
  let inodeBitmap ← (Bitmap.empty 0 (options.inodeCount.toNat + 1)).set 0
  let zoneBitmap ← (Bitmap.empty (firstDataZone - 1)
    (zoneCount - firstDataZone + 1)).set (firstDataZone - 1)
  return {
    storage := zeroBlocks storage zoneCount
    superBlock := sb
    inodeBitmap := inodeBitmap
    zoneBitmap := zoneBitmap }

/-- `create`, with a bound on the rounds of the loop that sizes the zone
bitmap; `none` when it takes more. -/
def create (fuel : Nat) (storage : Storage) (options : CreateImageOptions) :
    Option (Except Stop MinixFileSystem) :=
  match checkOptions options with
  | .error e => some (.error (.failed e))
  | .ok () =>
    let zoneCount := options.imageSize / blockSize
    let metadata := 2 + divCeil (options.inodeCount.toNat + 1) bitsPerBlock
      + divCeil options.inodeCount.toNat inodesPerBlock
    match sizeZoneBitmap zoneCount metadata fuel 1 with
    | none => none
    | some (.error e) => some (.error (.failed e))
    | some (.ok zoneBitmapBlockCount) =>
      if (newSuperBlock options zoneBitmapBlockCount).firstDataZone.toNat
          ≥ zoneCount then
        some (.error (.failed (.invalidArgument
          (text "image layout leaves no room for data zones"))))
      else
        match blankImage storage options zoneBitmapBlockCount with
        | .error e => some (.error e)
        | .ok fs =>
          match createRoot options fs with
          | .ok () fs' => some (.ok fs')
          | .error e _ => some (.error e)

end LinuxRs.Miniximg
