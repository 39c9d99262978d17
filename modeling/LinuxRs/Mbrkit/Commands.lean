/-
The commands of mbrkit: packing a layout into an image, and inspecting,
extracting from and verifying an image (mbrkit/src/commands,
mbrkit/src/report.rs).

An image is its list of bytes. `pack` writes through a file with a
position, as the source does: the record at the start, then each payload at
the offset of its partition, with zeros up to the length of the partition.
-/
import LinuxRs.Mbrkit.Mbr

namespace LinuxRs.Mbrkit

open LinuxRs.Lib

-- ======== packing

/-- The file that is written, and where. -/
structure OutFile where
  data : List Byte
  pos : Nat

namespace OutFile

def seek (f : OutFile) (pos : Nat) : OutFile := { f with pos := pos }

def writeAll (f : OutFile) (bytes : List Byte) : OutFile :=
  ⟨overwrite 0#8 f.data f.pos bytes, f.pos + bytes.length⟩

/-- The padding loop of `copy_exact_with_padding`; every turn writes
something. -/
def writePadding : Nat → Nat → OutFile → OutFile
  | 0, _, f => f
  | turns + 1, remaining, f =>
    if remaining = 0 then f
    else
      let chunk := min remaining 4096
      writePadding turns (remaining - chunk)
        (f.writeAll (List.replicate chunk 0#8))

def copyExactWithPadding (f : OutFile) (input : List Byte) (targetLen : Nat) :
    Except MbrkitError OutFile :=
  if targetLen < input.length then
    .error (.invalidArgument
      "copied payload exceeded the reserved partition size")
  else
    .ok (writePadding (targetLen - input.length) (targetLen - input.length)
      (f.writeAll input))

end OutFile

def setPartitions (h : MbrHeader) :
    List PartitionLayout → Except MbrkitError MbrHeader
  | [] => .ok h
  | p :: rest =>
    match h.setPartition (p.slot - 1) p with
    | .error e => .error e
    | .ok h => setPartitions h rest

def copyPayloads (files : Path → Option (List Byte)) (f : OutFile) :
    List PartitionLayout → Except MbrkitError OutFile
  | [] => .ok f
  | p :: rest =>
    match files p.file with
    | none => .error (.io (some p.file) "failed to open partition payload")
    | some input =>
      match (f.seek p.startOffset).copyExactWithPadding input p.byteLen with
      | .error e => .error e
      | .ok f => copyPayloads files f rest

/-- `pack::run` for a layout that is not a dry run: the bytes of the output
file. -/
def pack (files : Path → Option (List Byte)) (outputExists force : Bool)
    (layout : DiskLayout) : Except MbrkitError (List Byte) :=
  if outputExists ∧ force = false then
    .error (.invalidArgument ("output image `" ++ layout.output
      ++ "` already exists; use --force to overwrite it"))
  else
    let output : OutFile := ⟨List.replicate layout.diskSize 0#8, 0⟩
    let header := { MbrHeader.new layout.bootstrapCode layout.diskSignature with
      reserved := layout.reserved }
    match setPartitions header layout.partitions with
    | .error e => .error e
    | .ok header =>
      match copyPayloads files ((output.seek 0).writeAll header.toSector)
        layout.partitions with
      | .error e => .error e
      | .ok output => .ok output.data

-- ======== inspecting

/-- The codes and names of `PARTITION_TYPE_DEFINITIONS`. -/
def partitionTypeDefinitions : List (Byte × String) :=
  [(0x00#8, "empty"), (0x01#8, "fat12"), (0x04#8, "fat16_small"),
    (0x05#8, "extended"), (0x06#8, "fat16"), (0x07#8, "ntfs"),
    (0x0b#8, "fat32"), (0x0c#8, "fat32_lba"), (0x0e#8, "fat16_lba"),
    (0x0f#8, "extended_lba"), (0x81#8, "minix"), (0x82#8, "linux_swap"),
    (0x83#8, "linux")]

def knownName (partitionType : Byte) : Option String :=
  (partitionTypeDefinitions.find? fun d => d.1 = partitionType).map Prod.snd

structure PartitionReport where
  slot : Nat
  used : Bool
  bootable : Bool
  partitionType : Byte
  partitionTypeName : Option String
  startLba : Nat
  sectors : Nat
  endLba : Option Nat
  startOffset : Nat
  byteLen : Nat

def PartitionEntry.report (index : Nat) (e : PartitionEntry) :
    PartitionReport where
  slot := index + 1
  used := !e.isEmpty
  bootable := e.isBootable
  partitionType := e.partitionType
  partitionTypeName := knownName e.partitionType
  startLba := e.startingLba.toNat
  sectors := e.sectors.toNat
  endLba := e.endLba
  startOffset := e.startingLba.toNat * sectorSize
  byteLen := e.sectors.toNat * sectorSize

def buildPartitionReports (mbr : MbrHeader) : List PartitionReport :=
  (List.finRange 4).map fun i => (mbr.partitions i).report i.val

/-- `InspectReport`, as far as the commands read it. -/
structure InspectReport where
  diskSize : Nat
  mbrSignatureValid : Bool
  diskSignature : BitVec 32
  mbr : MbrHeader
  partitions : List PartitionReport

def inspectDisk (data : List Byte) : Except MbrkitError InspectReport :=
  match MbrHeader.fromSector data with
  | .error e => .error e
  | .ok mbr => .ok ⟨data.length, mbr.hasValidSignature, mbr.diskSignature, mbr,
      buildPartitionReports mbr⟩

-- ======== extracting

/-- `extract::run`: the bytes of the extracted image. -/
def extract (data : List Byte) (partition : Nat) (outputExists force : Bool)
    (output : Path) : Except MbrkitError (List Byte) :=
  if partition = 0 ∨ 4 < partition then
    .error (.invalidArgument "`--partition` must be in the range 1..=4")
  else if outputExists ∧ force = false then
    .error (.invalidArgument ("output image `" ++ output
      ++ "` already exists; use --force to overwrite it"))
  else
    match inspectDisk data with
    | .error e => .error e
    | .ok report =>
      match report.partitions.find? fun p => p.slot = partition with
      | none => .error (.invalidArgument
          "requested partition slot does not exist")
      | some p =>
        if p.used = false then
          .error (.invalidArgument ("partition " ++ toString partition
            ++ " is empty"))
        else if data.length < p.startOffset + p.byteLen then
          .error (.invalidArgument ("partition " ++ toString partition
            ++ " extends past the end of the disk image"))
        else .ok (slice data p.startOffset p.byteLen)

-- ======== verifying

inductive DiagnosticLevel
  | error
  | warning
  deriving DecidableEq

structure Diagnostic where
  level : DiagnosticLevel
  code : String
  message : String

def hexByte (byte : Byte) : String :=
  String.ofList [Nat.digitChar (byte.toNat / 16), Nat.digitChar (byte.toNat % 16)]

def checkPartition (inspect : InspectReport) (bootIndicator : Byte)
    (p : PartitionReport) : List Diagnostic :=
  (if bootIndicator ≠ 0x00#8 ∧ bootIndicator ≠ 0x80#8 then
    [⟨.error, "invalid_boot_flag", "partition " ++ toString p.slot
      ++ " has an invalid boot flag 0x" ++ hexByte bootIndicator⟩] else [])
  ++ (if inspect.diskSize < p.startOffset + p.byteLen then
    [⟨.error, "out_of_bounds", "partition " ++ toString p.slot
      ++ " extends beyond the end of the disk image"⟩] else [])
  ++ (if p.partitionTypeName.isNone ∧ p.partitionType ≠ 0x00#8 then
    [⟨.warning, "unknown_partition_type", "partition " ++ toString p.slot
      ++ " uses an unknown type 0x" ++ hexByte p.partitionType⟩] else [])

def checkWindows : List PartitionReport → List Diagnostic
  | left :: right :: rest =>
    (if left.startLba ≤ right.startLba ∧
        right.startLba ≤ left.endLba.getD 0 then
      [⟨.error, "overlap", "partitions " ++ toString left.slot ++ " and "
        ++ toString right.slot ++ " overlap"⟩] else [])
    ++ checkWindows (right :: rest)
  | _ => []

/-- The order of `sort_by_key` with the start as key. -/
def ReportLe (p q : PartitionReport) : Prop := p.startLba ≤ q.startLba

instance : DecidableRel ReportLe := fun p q => Nat.decLe p.startLba q.startLba

def bootIndicatorOf (mbr : MbrHeader) (slot : Nat) : Byte :=
  if h : slot - 1 < 4 then (mbr.partitions ⟨slot - 1, h⟩).bootIndicator
  else 0#8

def verifyDiagnostics (inspect : InspectReport) (strict : Bool) :
    List Diagnostic :=
  let used := (inspect.partitions.filter PartitionReport.used).insertionSort
    ReportLe
  (if inspect.mbrSignatureValid = false then
    [⟨.error, "invalid_signature", "MBR signature is not 0x55AA"⟩] else [])
  ++ used.flatMap (fun p =>
    checkPartition inspect (bootIndicatorOf inspect.mbr p.slot) p)
  ++ checkWindows used
  ++ (if strict ∧ inspect.diskSignature = 0#32 then
    [⟨.warning, "zero_disk_signature", "disk signature is zero"⟩] else [])
  ++ (if strict ∧ 1 < used.countP PartitionReport.bootable then
    [⟨.warning, "multiple_active_partitions",
      "more than one partition is marked active"⟩] else [])

/-- `verify_disk`: whether the image passes. -/
def verifyDisk (data : List Byte) (strict : Bool) : Except MbrkitError Bool :=
  match inspectDisk data with
  | .error e => .error e
  | .ok inspect => .ok ((verifyDiagnostics inspect strict).all fun d =>
    decide (d.level ≠ .error) && (!strict || decide (d.level ≠ .warning)))

end LinuxRs.Mbrkit
