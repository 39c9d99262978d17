/-
The hard disk driver (kernel/src/driver/block/hd/mod.rs and
controller.rs): drives and partitions as they are read at boot, and the
way of a block request to the registers of the controller. `DrivePartition`
and the parsing of its entry are those that the image tool is checked with.

# The addresses

A request names sectors of a partition. `translate_request` checks them
against the partition, adds its start and divides by the geometry; the
cylinder is narrowed to sixteen bits and the head to eight. It does not
check the sectors against the drive, nor the head against the four bits
that the controller has for it, and `issue_command` panics on a head that
does not fit.

# The result

`disk_addressing_iff`: which accepted requests go to the sectors they
name.
-/
import LinuxRs.Driver.Block
import LinuxRs.Mbrkit.Codec

namespace LinuxRs.Driver

open LinuxRs.Lib

-- ======== the data

abbrev Byte := BitVec 8

def u32CheckedAdd (a b : BitVec 32) : Option (BitVec 32) :=
  if a.toNat + b.toNat < u32Limit then some (a + b) else none

def u32SaturatingMul (a b : BitVec 32) : BitVec 32 :=
  if a.toNat * b.toNat < u32Limit then a * b else 0xffffffff#32

def maxDriveCount : Nat := 2

def primaryPartitionCount : Nat := 4

def partitionSlotsPerDrive : Nat := primaryPartitionCount + 1

structure DriveGeometry where
  headCount : BitVec 16
  sectorsPerTrack : BitVec 16
  cylinderCount : BitVec 16
  writePrecompensation : BitVec 16
  control : Byte

structure DriveDescriptor where
  geometry : DriveGeometry
  wholeDisk : DrivePartition
  primaryPartitions : Fin primaryPartitionCount → Option DrivePartition

structure DiskTable where
  drives : Fin maxDriveCount → Option DriveDescriptor

inductive RecoveryState
  | ready
  | needReset
  | needRecalibrate

inductive InterruptPhase
  | idle
  | reading
  | writing
  | specifying
  | recalibrating

/-- The driver's state between two interrupts. -/
structure AtaDriver where
  disks : DiskTable
  setupCompleted : Bool
  recovery : RecoveryState
  phase : InterruptPhase

structure AtaRequest where
  ty : BlockRequestType
  minor : Byte
  nextSector : BitVec 32
  remainingSectors : BitVec 32
  dataAddr : Nat

inductive ControllerCommand
  | restore
  | read
  | write
  | specify

def ControllerCommand.toByte : ControllerCommand → Byte
  | .restore => 0x10#8
  | .read => 0x20#8
  | .write => 0x30#8
  | .specify => 0x91#8

structure AtaTaskFile where
  driveIndex : Nat
  sectorCount : Byte
  sector : Byte
  head : Byte
  cylinder : BitVec 16
  command : ControllerCommand

-- ======== the boot

def readU16 (memory : Nat → Byte) (addr : Nat) : BitVec 16 :=
  memory (addr + 1) ++ memory addr

def DriveGeometry.fromBiosEntry (entry : Nat → Byte) : Option DriveGeometry :=
  let geo : DriveGeometry := {
    cylinderCount := readU16 entry 0
    headCount := (entry 2).setWidth 16
    writePrecompensation := readU16 entry 5
    control := entry 8
    sectorsPerTrack := (entry 14).setWidth 16 }
  if geo.cylinderCount ≠ 0#16 then some geo else none

def DriveGeometry.totalSectors (g : DriveGeometry) : BitVec 32 :=
  [g.headCount, g.sectorsPerTrack, g.cylinderCount].foldl
    (fun acc v => u32SaturatingMul acc (v.setWidth 32)) 1#32

def DriveDescriptor.fromGeometry (geometry : DriveGeometry) :
    DriveDescriptor where
  wholeDisk := ⟨0#32, geometry.totalSectors⟩
  geometry := geometry
  primaryPartitions := fun _ => none

def AtaDriver.new : AtaDriver where
  disks := ⟨fun _ => none⟩
  setupCompleted := false
  recovery := .ready
  phase := .idle

inductive SetupErrno
  | busy
  | io
  | nodev

def biosDrives (info : Nat → Byte) (cmosDisks : Byte) :
    Nat × (Fin maxDriveCount → Option DriveDescriptor) :=
  let drives : Fin maxDriveCount → Option DriveDescriptor := fun i =>
    (DriveGeometry.fromBiosEntry fun k => info (i * 16 + k)).map
      DriveDescriptor.fromGeometry
  let installed :=
    if cmosDisks &&& 0xf0#8 = 0#8 then 0
    else if cmosDisks &&& 0x0f#8 = 0#8 then 1
    else 2
  let driveCount := min installed
    ((List.finRange maxDriveCount).filter fun i => (drives i).isSome).length
  (driveCount, fun i => if i.val < driveCount then drives i else none)

/-- The second stage of `setup_from_bios` for one drive; `mbr` is what
`buffer::read` gives for its first block. -/
def AtaDriver.readPartitions (d : AtaDriver) (mbr : Nat → Option (List Byte))
    (i : Fin maxDriveCount) : Except SetupErrno Unit × AtaDriver :=
  match mbr i with
  | none => (.error .io, d)
  | some sector =>
    if slice sector 510 2 ≠ [0x55#8, 0xaa#8] then (.error .io, d)
    else
      match d.disks.drives i with
      | none => (.error .nodev, d)
      | some drive =>
        let drive := { drive with primaryPartitions := fun p =>
          DrivePartition.fromMbrEntry sector p }
        (.ok (), { d with disks :=
          ⟨Function.update d.disks.drives i (some drive)⟩ })

def AtaDriver.readAllPartitions (mbr : Nat → Option (List Byte)) :
    List (Fin maxDriveCount) → AtaDriver → Except SetupErrno Unit × AtaDriver
  | [], d => (.ok (), d)
  | i :: rest, d =>
    match d.readPartitions mbr i with
    | (.error e, d) => (.error e, d)
    | (.ok (), d) => readAllPartitions mbr rest d

def AtaDriver.setupFromBios (d : AtaDriver) (info : Nat → Byte)
    (cmosDisks : Byte) (mbr : Nat → Option (List Byte)) :
    Except SetupErrno Unit × AtaDriver :=
  if d.setupCompleted then (.error .busy, d)
  else
    let (driveCount, drives) := biosDrives info cmosDisks
    let d := { d with disks := ⟨drives⟩ }
    match readAllPartitions mbr
        ((List.finRange maxDriveCount).filter (·.val < driveCount)) d with
    | (.error e, d) => (.error e, d)
    | (.ok (), d) => (.ok (), { d with setupCompleted := true })

-- ======== the request

/-- `driver.disks.drives.get(drive_index).and_then(Option::as_ref)`. -/
def DiskTable.drive (t : DiskTable) (driveIndex : Nat) :
    Option DriveDescriptor :=
  if h : driveIndex < maxDriveCount then t.drives ⟨driveIndex, h⟩ else none

def DriveDescriptor.partition (drive : DriveDescriptor)
    (partitionIndex : Nat) : Option DrivePartition :=
  if partitionIndex = 0 then some drive.wholeDisk
  else if h : partitionIndex - 1 < primaryPartitionCount then
    drive.primaryPartitions ⟨partitionIndex - 1, h⟩
  else none

/-- The drive and the partition of a minor number, as `translate_request`
finds them. -/
def DiskTable.lookup (t : DiskTable) (minor : Byte) :
    Option (DriveDescriptor × DrivePartition) := do
  let drive ← t.drive (minor.toNat / partitionSlotsPerDrive)
  let partition ← drive.partition (minor.toNat % partitionSlotsPerDrive)
  return (drive, partition)

/-- `translate_request`, behind the lookup of drive and partition. -/
def AtaRequest.translate (request : AtaRequest) (drive : DriveDescriptor)
    (partition : DrivePartition) :
    Except Errno (DriveGeometry × AtaTaskFile × InterruptPhase) :=
  match u32CheckedAdd request.nextSector request.remainingSectors with
  | none => .error .io
  | some requestEnd =>
    if partition.sectorCount < requestEnd then .error .nodev
    else
      match u32CheckedAdd partition.startSector request.nextSector with
      | none => .error .io
      | some absoluteSector =>
        let sectorsPerTrack : BitVec 32 :=
          drive.geometry.sectorsPerTrack.setWidth 32
        let headCount : BitVec 32 := drive.geometry.headCount.setWidth 32
        if sectorsPerTrack = 0#32 ∨ headCount = 0#32 then .error .nodev
        else
          let sector := absoluteSector % sectorsPerTrack + 1#32
          let track := absoluteSector / sectorsPerTrack
          let head := track % headCount
          let cylinder := track / headCount
          let (command, phase) := match request.ty with
            | .read => (ControllerCommand.read, InterruptPhase.reading)
            | .write => (ControllerCommand.write, InterruptPhase.writing)
          .ok (drive.geometry, {
            driveIndex := request.minor.toNat / partitionSlotsPerDrive
            sectorCount := request.remainingSectors.setWidth 8
            sector := sector.setWidth 8
            head := head.setWidth 8
            cylinder := cylinder.setWidth 16
            command := command }, phase)

def AtaDriver.translateRequest (d : AtaDriver) (request : AtaRequest) :
    Except Errno (DriveGeometry × AtaTaskFile × InterruptPhase) :=
  match d.disks.lookup request.minor with
  | none => .error .nodev
  | some (drive, partition) => request.translate drive partition

-- ======== the controller

/-- What `issue_command` writes to the ports of the controller. -/
structure Registers where
  control : Byte
  precompensation : Byte
  sectorCount : Byte
  sectorNumber : Byte
  cylinderLow : Byte
  cylinderHigh : Byte
  driveHead : Byte
  command : Byte

/-- `issue_command`; `ready` is whether the controller leaves its busy
state within the polls of `wait_for_status`. `none` is a panic. -/
def AtaDriver.issueCommand (d : AtaDriver) (ready : Bool)
    (geometry : DriveGeometry) (taskFile : AtaTaskFile)
    (interruptPhase : InterruptPhase) : Option (Registers × AtaDriver) :=
  if 1 < taskFile.driveIndex ∨ 0x0f#8 < taskFile.head then none
  else if !ready then none
  else some ({
    control := geometry.control
    precompensation := (geometry.writePrecompensation >>> 2).setWidth 8
    sectorCount := taskFile.sectorCount
    sectorNumber := taskFile.sector
    cylinderLow := taskFile.cylinder.setWidth 8
    cylinderHigh := (taskFile.cylinder >>> 8).setWidth 8
    driveHead := 0xa0#8 ||| (BitVec.ofNat 8 taskFile.driveIndex <<< 4)
      ||| taskFile.head
    command := taskFile.command.toByte }, { d with phase := interruptPhase })

def AtaDriver.resetDrive (d : AtaDriver) (ready : Bool) (driveIndex : Nat) :
    Option (Registers × AtaDriver) := do
  let drive ← d.disks.drive driveIndex
  let sectorCount : Byte := drive.geometry.sectorsPerTrack.setWidth 8
  d.issueCommand ready drive.geometry {
    driveIndex := driveIndex
    sectorCount := sectorCount
    sector := sectorCount
    head := (drive.geometry.headCount - 1#16).setWidth 8
    cylinder := drive.geometry.cylinderCount
    command := .specify } .specifying

def AtaDriver.takeRecoveryState (d : AtaDriver) : RecoveryState × AtaDriver :=
  match d.recovery with
  | .needReset => (.needReset, { d with recovery := .needRecalibrate })
  | state => (state, { d with recovery := .ready })

/-- A turn of the loop of `kick` for the current request, up to its
command: `none` is a panic, and a request that is refused has no
command. -/
def AtaDriver.kick (d : AtaDriver) (ready : Bool) (request : AtaRequest) :
    Option (Option Registers × AtaDriver) :=
  match d.translateRequest request with
  | .error _ => some (none, d)
  | .ok (geometry, taskFile, interruptPhase) =>
    let (recovery, d) := d.takeRecoveryState
    let issued := match recovery with
      | .needReset => d.resetDrive ready taskFile.driveIndex
      | .needRecalibrate =>
        d.issueCommand ready geometry {
          driveIndex := taskFile.driveIndex
          sectorCount := geometry.sectorsPerTrack.setWidth 8
          sector := 0#8
          head := 0#8
          cylinder := 0#16
          command := .restore } .recalibrating
      | .ready => d.issueCommand ready geometry taskFile interruptPhase
    issued.map fun r => (some r.1, r.2)

end LinuxRs.Driver
