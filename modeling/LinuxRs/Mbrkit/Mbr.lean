/-
The boot record of a disk image and its encoding (mbrkit/src/mbr.rs),
with the layout that it is made from (mbrkit/src/layout.rs).

# The layout

`DiskLayout::from_parts` places one partition after the other, checks each
one on the way, and leaves overlaps and the end of the disk to
`validate_partitions`. Paths are strings, and the file system answers for
a path with a size or with nothing.

# The record

One sector: boot code, disk signature, two reserved bytes, four entries of
16 bytes, and the signature. Encoding and decoding are byte for byte.
-/
import LinuxRs.Lib.Slice
import Mathlib.Data.List.Sort
import Mathlib.Data.List.FinRange

namespace LinuxRs.Mbrkit

open LinuxRs.Lib

abbrev Byte := BitVec 8

abbrev Path := String

/-- `MbrkitError`, the cases of the commands below. -/
inductive MbrkitError
  | io (path : Option Path) (message : String)
  | invalidArgument (message : String)
  | invalidMbr (message : String)

def sectorSize : Nat := 512

def u64Limit : Nat := 0x10000000000000000

-- ======== the layout

abbrev BootstrapCode := { l : List Byte // l.length = 440 }

structure PartitionSpec where
  file : Path
  partitionType : Byte
  bootable : Bool
  startLba : Option Nat
  sizeBytes : Option Nat

structure PartitionLayout where
  slot : Nat
  file : Path
  partitionType : Byte
  bootable : Bool
  startLba : Nat
  sectorCount : Nat
  fileSize : Nat

namespace PartitionLayout

def endLba (p : PartitionLayout) : Nat := p.startLba + p.sectorCount - 1

def startOffset (p : PartitionLayout) : Nat := p.startLba * sectorSize

def byteLen (p : PartitionLayout) : Nat := p.sectorCount * sectorSize

end PartitionLayout

/-- `DiskLayout`: a disk with the place of every partition. -/
structure DiskLayout where
  output : Path
  diskSize : Nat
  diskSignature : BitVec 32
  bootstrapCode : BootstrapCode
  reserved : Byte × Byte
  alignSectors : Nat
  partitions : List PartitionLayout

def bytesToSectors (bytes : Nat) : Nat := (bytes + (sectorSize - 1)) / sectorSize

def alignUp (value alignment : Nat) : Nat :=
  ((value + (alignment - 1)) / alignment * alignment) % u64Limit

/-- The first check of `validate_partitions`, on partitions in the order of
their starts. -/
def checkOverlaps : List PartitionLayout → Except MbrkitError Unit
  | left :: right :: rest =>
    if right.startLba ≤ left.endLba then
      .error (.invalidArgument ("partitions " ++ toString left.slot ++ " and "
        ++ toString right.slot ++ " overlap"))
    else checkOverlaps (right :: rest)
  | _ => .ok ()

/-- The second check of `validate_partitions`. -/
def checkBounds (diskSectors : Nat) :
    List PartitionLayout → Except MbrkitError Unit
  | [] => .ok ()
  | p :: rest =>
    if p.sectorCount = 0 then
      .error (.invalidArgument ("partition " ++ toString p.slot
        ++ " has zero sectors"))
    else if diskSectors ≤ p.endLba then
      .error (.invalidArgument ("partition " ++ toString p.slot
        ++ " exceeds the declared disk size"))
    else checkBounds diskSectors rest

/-- The order of `sort_by_key` with the start as key. -/
def StartLe (p q : PartitionLayout) : Prop := p.startLba ≤ q.startLba

instance : DecidableRel StartLe := fun p q => Nat.decLe p.startLba q.startLba

/-- `validate_partitions`; the sort is stable. -/
def validatePartitions (partitions : List PartitionLayout)
    (diskSectors : Nat) : Except MbrkitError Unit :=
  match checkOverlaps (partitions.insertionSort StartLe) with
  | .error e => .error e
  | .ok () => checkBounds diskSectors partitions

/-- The loop of `from_parts`: the partitions from an index on, the next of
which starts at `nextAutoStart` unless it says otherwise. -/
def placePartitions (metadata : Path → Option Nat) (alignSectors : Nat) :
    Nat → Nat → List PartitionSpec → Except MbrkitError (List PartitionLayout)
  | _, _, [] => .ok []
  | index, nextAutoStart, spec :: rest =>
    match metadata spec.file with
    | none => .error (.io (some spec.file)
        "failed to read source image metadata")
    | some fileSize =>
      let requestedSize := spec.sizeBytes.getD fileSize
      let sectorCount := bytesToSectors requestedSize
      let startLba := spec.startLba.getD nextAutoStart
      if requestedSize < fileSize then
        .error (.invalidArgument ("partition source `" ++ spec.file
          ++ "` is larger than the declared partition size"))
      else if startLba = 0 then
        .error (.invalidArgument
          "partition LBA 0 is reserved for the MBR sector")
      else if u64Limit ≤ startLba + sectorCount then
        .error (.invalidArgument "partition range overflowed")
      else
        match placePartitions metadata alignSectors (index + 1)
          (alignUp (startLba + sectorCount) alignSectors) rest with
        | .error e => .error e
        | .ok partitions => .ok (⟨index + 1, spec.file, spec.partitionType,
            spec.bootable, startLba, sectorCount, fileSize⟩ :: partitions)

def DiskLayout.fromParts (metadata : Path → Option Nat) (output : Path)
    (diskSize : Nat) (bootstrapCode : BootstrapCode)
    (diskSignature : BitVec 32) (alignSectors : Nat)
    (partitionSpecs : List PartitionSpec) : Except MbrkitError DiskLayout :=
  if alignSectors = 0 then
    .error (.invalidArgument "`--align` must be greater than zero")
  else if diskSize < sectorSize then
    .error (.invalidArgument "disk size must be at least one sector")
  else if partitionSpecs.isEmpty then
    .error (.invalidArgument "at least one partition must be defined")
  else if 4 < partitionSpecs.length then
    .error (.invalidArgument "MBR supports at most four primary partitions")
  else
    match placePartitions metadata alignSectors 0 (alignUp 1 alignSectors)
      partitionSpecs with
    | .error e => .error e
    | .ok partitions =>
      match validatePartitions partitions (diskSize / sectorSize) with
      | .error e => .error e
      | .ok () => .ok ⟨output, diskSize, diskSignature, bootstrapCode,
          (0#8, 0#8), alignSectors, partitions⟩

-- ======== the record

structure PartitionEntry where
  bootIndicator : Byte
  startChs : Byte × Byte × Byte
  partitionType : Byte
  endChs : Byte × Byte × Byte
  startingLba : BitVec 32
  sectors : BitVec 32

structure MbrHeader where
  bootstrapCode : BootstrapCode
  diskSignature : BitVec 32
  reserved : Byte × Byte
  partitions : Fin 4 → PartitionEntry
  signature : BitVec 16

def mbrSignature : BitVec 16 := 0xAA55#16

structure ChsAddress where
  cylinder : BitVec 16
  head : Byte
  sector : Byte

def ChsAddress.fromLba (lba : Nat) : ChsAddress :=
  if 1023 * 255 * 63 ≤ lba then ⟨1023#16, 254#8, 63#8⟩
  else ⟨BitVec.ofNat 16 (lba / (255 * 63)), BitVec.ofNat 8 (lba / 63 % 255),
    BitVec.ofNat 8 (lba % 63 + 1)⟩

def ChsAddress.encode (c : ChsAddress) : Byte × Byte × Byte :=
  let cylinderHigh : Byte := ((c.cylinder >>> 8) &&& 0x03#16).setWidth 8
  let cylinderLow : Byte := (c.cylinder &&& 0xff#16).setWidth 8
  (c.head, (c.sector &&& 0x3f#8) ||| (cylinderHigh <<< 6), cylinderLow)

namespace PartitionEntry

def default : PartitionEntry :=
  ⟨0#8, (0#8, 0#8, 0#8), 0#8, (0#8, 0#8, 0#8), 0#32, 0#32⟩

def fromLayout (p : PartitionLayout) : Except MbrkitError PartitionEntry :=
  if u32Limit ≤ p.startLba then
    .error (.invalidArgument ("partition " ++ toString p.slot
      ++ " start LBA exceeds MBR limits"))
  else if u32Limit ≤ p.sectorCount then
    .error (.invalidArgument ("partition " ++ toString p.slot
      ++ " size exceeds MBR limits"))
  else
    .ok ⟨if p.bootable then 0x80#8 else 0x00#8,
      (ChsAddress.fromLba p.startLba).encode, p.partitionType,
      (ChsAddress.fromLba p.endLba).encode, BitVec.ofNat 32 p.startLba,
      BitVec.ofNat 32 p.sectorCount⟩

def toBytes (e : PartitionEntry) : List Byte :=
  [e.bootIndicator, e.startChs.1, e.startChs.2.1, e.startChs.2.2,
    e.partitionType, e.endChs.1, e.endChs.2.1, e.endChs.2.2]
    ++ leBytes32 e.startingLba ++ leBytes32 e.sectors

def fromBytes (bytes : List Byte) : PartitionEntry where
  bootIndicator := bytes.getD 0 0#8
  startChs := (bytes.getD 1 0#8, bytes.getD 2 0#8, bytes.getD 3 0#8)
  partitionType := bytes.getD 4 0#8
  endChs := (bytes.getD 5 0#8, bytes.getD 6 0#8, bytes.getD 7 0#8)
  startingLba := ofLeBytes32 (slice bytes 8 4)
  sectors := ofLeBytes32 (slice bytes 12 4)

def isEmpty (e : PartitionEntry) : Bool :=
  e.partitionType = 0#8 ∧ e.startingLba = 0#32 ∧ e.sectors = 0#32

def isBootable (e : PartitionEntry) : Bool := e.bootIndicator = 0x80#8

def endLba (e : PartitionEntry) : Option Nat :=
  if e.sectors = 0#32 then none
  else some (e.startingLba.toNat + e.sectors.toNat - 1)

end PartitionEntry

namespace MbrHeader

def new (bootstrapCode : BootstrapCode) (diskSignature : BitVec 32) :
    MbrHeader :=
  ⟨bootstrapCode, diskSignature, (0#8, 0#8), fun _ => .default, mbrSignature⟩

def setPartition (h : MbrHeader) (slot : Nat) (layout : PartitionLayout) :
    Except MbrkitError MbrHeader :=
  if hs : slot < 4 then
    match PartitionEntry.fromLayout layout with
    | .error e => .error e
    | .ok entry => .ok { h with
        partitions := Function.update h.partitions ⟨slot, hs⟩ entry }
  else
    .error (.invalidArgument ("partition slot " ++ toString (slot + 1)
      ++ " is out of range"))

def toSector (h : MbrHeader) : List Byte :=
  h.bootstrapCode.val ++ (leBytes32 h.diskSignature
    ++ ([h.reserved.1, h.reserved.2]
      ++ (((List.finRange 4).flatMap fun i => (h.partitions i).toBytes)
        ++ leBytes16 h.signature)))

/-- `MbrHeader::from_sector`, of an image that starts with the sector. -/
def fromSector (sector : List Byte) : Except MbrkitError MbrHeader :=
  if hlen : sector.length < sectorSize then
    .error (.invalidMbr "disk image is smaller than one sector")
  else
    .ok {
      bootstrapCode := ⟨slice sector 0 440, length_slice (by
        unfold sectorSize at hlen; omega)⟩
      diskSignature := ofLeBytes32 (slice sector 440 4)
      reserved := (sector.getD 444 0#8, sector.getD 445 0#8)
      partitions := fun i => .fromBytes (slice sector (446 + i.val * 16) 16)
      signature := ofLeBytes16 (slice sector 510 2) }

def hasValidSignature (h : MbrHeader) : Bool := h.signature = mbrSignature

end MbrHeader

end LinuxRs.Mbrkit
