/-
Where the requests of the hard disk driver go
(kernel/src/driver/block/hd/mod.rs and controller.rs).

# The law

The sector that a request names, counted from the start of its partition,
is the one at the cylinder, head and sector that the registers hold; the
transfer stays in the partition and on the drive; and the controller is
given no command that it panics on.

# Where it holds

Boot reads the heads and the sectors of a track from single bytes, so
neither overflows its register by itself. The head has only four bits
there, and the cylinder sixteen: `AtaRequest.Fits` says which requests
these are enough for, and `disk_addressing_iff` that they are the ones
that obey the law.
-/
import LinuxRs.Driver.HardDisk

namespace LinuxRs.Driver

-- ======== the registers

namespace Registers

def drive (r : Registers) : Nat := ((r.driveHead >>> 4) &&& 1#8).toNat

def head (r : Registers) : Nat := (r.driveHead &&& 0x0f#8).toNat

def cylinder (r : Registers) : Nat :=
  r.cylinderHigh.toNat * 256 + r.cylinderLow.toNat

/-- How many sectors the controller transfers; a count of zero stands for
256. -/
def transferred (r : Registers) : Nat :=
  if r.sectorCount = 0#8 then 256 else r.sectorCount.toNat

end Registers

theorem driveHead_fields (head : Byte) (hhead : head ≤ 0x0f#8) :
    ∀ i < 2, ((0xa0#8 ||| (BitVec.ofNat 8 i <<< 4) ||| head) &&& 0x0f#8) = head
      ∧ (((0xa0#8 ||| (BitVec.ofNat 8 i <<< 4) ||| head) >>> 4) &&& 1#8).toNat
        = i := by
  revert head
  decide

theorem cylinder_bytes (c : BitVec 16) :
    ((c >>> 8).setWidth 8).toNat * 256 + (c.setWidth 8).toNat = c.toNat := by
  have hc := c.isLt
  rw [BitVec.toNat_setWidth, BitVec.toNat_setWidth, BitVec.toNat_ushiftRight,
    Nat.shiftRight_eq_div_pow]
  omega

section Issue

variable {d : AtaDriver} {ready : Bool} {geometry : DriveGeometry}
  {taskFile : AtaTaskFile} {phase : InterruptPhase}

theorem issueCommand_isSome :
    (d.issueCommand ready geometry taskFile phase).isSome
      ↔ taskFile.driveIndex ≤ 1 ∧ taskFile.head ≤ 0x0f#8 ∧ ready = true := by
  unfold AtaDriver.issueCommand
  by_cases hbad : 1 < taskFile.driveIndex ∨ 0x0f#8 < taskFile.head
  · rw [if_pos hbad]
    refine ⟨nofun, fun h => ?_⟩
    rcases hbad with hdrive | hhead
    · omega
    · exact absurd hhead (BitVec.not_lt.mpr h.2.1)
  · rw [if_neg hbad]
    have hdrive : taskFile.driveIndex ≤ 1 :=
      Nat.not_lt.mp fun h => hbad (.inl h)
    have hhead : taskFile.head ≤ 0x0f#8 :=
      BitVec.not_lt.mp fun h => hbad (.inr h)
    cases ready with
    | true => exact ⟨fun _ => ⟨hdrive, hhead, rfl⟩, fun _ => rfl⟩
    | false =>
      refine ⟨nofun, fun h => ?_⟩
      cases h.2.2

theorem issueCommand_registers {r : Registers} {d' : AtaDriver}
    (h : d.issueCommand ready geometry taskFile phase = some (r, d')) :
    r.drive = taskFile.driveIndex ∧ r.head = taskFile.head.toNat
      ∧ r.cylinder = taskFile.cylinder.toNat ∧ r.sectorNumber = taskFile.sector
      ∧ r.sectorCount = taskFile.sectorCount := by
  have hsome : (d.issueCommand ready geometry taskFile phase).isSome := by
    rw [h]
    rfl
  obtain ⟨hdrive, hhead, hready⟩ := Iff.mp issueCommand_isSome hsome
  obtain ⟨hlow, hhigh⟩ := driveHead_fields taskFile.head hhead
    taskFile.driveIndex (by omega)
  unfold AtaDriver.issueCommand at h
  rw [if_neg, hready] at h
  · cases h
    exact ⟨hhigh, congrArg BitVec.toNat hlow, cylinder_bytes _, rfl, rfl⟩
  · intro hbad
    rcases hbad with hbad | hbad
    · omega
    · exact absurd hbad (BitVec.not_lt.mpr hhead)

end Issue

-- ======== the geometry

def DriveGeometry.heads (g : DriveGeometry) : Nat := g.headCount.toNat

def DriveGeometry.spt (g : DriveGeometry) : Nat := g.sectorsPerTrack.toNat

def DriveGeometry.size (g : DriveGeometry) : Nat :=
  g.heads * g.spt * g.cylinderCount.toNat

/-- The drives are as their BIOS entries say. -/
def DiskTable.Parsed (t : DiskTable) : Prop :=
  ∀ i drive, t.drives i = some drive →
    (∃ entry, DriveGeometry.fromBiosEntry entry = some drive.geometry)
      ∧ drive.wholeDisk = ⟨0#32, drive.geometry.totalSectors⟩

theorem fromBiosEntry_bytes {entry : Nat → Byte} {g : DriveGeometry}
    (h : DriveGeometry.fromBiosEntry entry = some g) :
    g.heads < 256 ∧ g.spt < 256 := by
  obtain ⟨-, hg⟩ := Option.ite_none_right_eq_some.mp h
  cases hg
  refine ⟨?_, ?_⟩
  · show ((entry 2).setWidth 16).toNat < 256
    rw [BitVec.toNat_setWidth]
    exact Nat.lt_of_le_of_lt (Nat.mod_le _ _) (entry 2).isLt
  · show ((entry 14).setWidth 16).toNat < 256
    rw [BitVec.toNat_setWidth]
    exact Nat.lt_of_le_of_lt (Nat.mod_le _ _) (entry 14).isLt

section Setup

variable {d : AtaDriver} {m : Nat → Option (List Byte)}

theorem parsed_new : AtaDriver.new.disks.Parsed := by
  intro i drive h
  cases h

theorem parsed_biosDrives (info : Nat → Byte) (cmosDisks : Byte) :
    DiskTable.Parsed ⟨(biosDrives info cmosDisks).2⟩ := by
  intro i drive h
  obtain ⟨-, h⟩ := Option.ite_none_right_eq_some.mp h
  obtain ⟨g, hg, rfl⟩ := Option.map_eq_some_iff.mp h
  exact ⟨⟨_, hg⟩, rfl⟩

theorem parsed_readPartitions (h : d.disks.Parsed) (i : Fin maxDriveCount) :
    (d.readPartitions m i).2.disks.Parsed := by
  unfold AtaDriver.readPartitions
  split
  · exact h
  · split
    · exact h
    · split
      · exact h
      · next drive hdrive =>
        intro j drive' hdrive'
        have hdrive' : Function.update d.disks.drives i (some _) j
            = some drive' := hdrive'
        by_cases hj : j = i
        · subst hj
          rw [Function.update_self] at hdrive'
          cases hdrive'
          exact h j drive hdrive
        · rw [Function.update_of_ne hj] at hdrive'
          exact h j drive' hdrive'

theorem parsed_readAllPartitions (h : d.disks.Parsed)
    (l : List (Fin maxDriveCount)) :
    (AtaDriver.readAllPartitions m l d).2.disks.Parsed := by
  induction l generalizing d with
  | nil => exact h
  | cons i rest ih =>
    have hi := parsed_readPartitions (m := m) h i
    unfold AtaDriver.readAllPartitions
    generalize d.readPartitions m i = res at hi ⊢
    obtain ⟨result, d'⟩ := res
    cases result with
    | error e => exact hi
    | ok u => exact ih hi

theorem parsed_setupFromBios (h : d.disks.Parsed) (info : Nat → Byte)
    (cmosDisks : Byte) :
    (d.setupFromBios info cmosDisks m).2.disks.Parsed := by
  unfold AtaDriver.setupFromBios
  split
  · exact h
  · have hall := parsed_readAllPartitions (m := m)
      (d := { d with disks := ⟨(biosDrives info cmosDisks).2⟩ })
      (parsed_biosDrives info cmosDisks) ((List.finRange maxDriveCount).filter
        (·.val < (biosDrives info cmosDisks).1))
    simp only
    generalize AtaDriver.readAllPartitions m _ _ = res at hall ⊢
    obtain ⟨result, d'⟩ := res
    cases result with
    | error e => exact hall
    | ok u => exact hall

end Setup

-- ======== the translation

def AtaRequest.absolute (request : AtaRequest) (partition : DrivePartition) :
    Nat :=
  partition.startSector.toNat + request.nextSector.toNat

theorem u32CheckedAdd_some {a b c : BitVec 32}
    (h : u32CheckedAdd a b = some c) : c.toNat = a.toNat + b.toNat := by
  obtain ⟨hlt, hc⟩ := Option.ite_none_right_eq_some.mp h
  cases hc
  rw [BitVec.toNat_add]
  exact Nat.mod_eq_of_lt hlt

theorem toNat_widen (x : BitVec 16) :
    (x.setWidth 32 : BitVec 32).toNat = x.toNat := by
  have hx := x.isLt
  rw [BitVec.toNat_setWidth]
  omega

/-- What an accepted request meets, and where it goes before its cylinder
is narrowed. -/
structure Translated (request : AtaRequest) (drive : DriveDescriptor)
    (partition : DrivePartition) (geometry : DriveGeometry)
    (taskFile : AtaTaskFile) : Prop where
  geometry : geometry = drive.geometry
  inside : request.nextSector.toNat + request.remainingSectors.toNat
    ≤ partition.sectorCount.toNat
  spt : 0 < drive.geometry.spt
  heads : 0 < drive.geometry.heads
  driveIndex : taskFile.driveIndex = request.minor.toNat / 5
  count : taskFile.sectorCount.toNat = request.remainingSectors.toNat % 256
  sector : taskFile.sector.toNat
    = request.absolute partition % drive.geometry.spt + 1
  head : taskFile.head.toNat
    = request.absolute partition / drive.geometry.spt % drive.geometry.heads
  cylinder : taskFile.cylinder.toNat
    = request.absolute partition / drive.geometry.spt / drive.geometry.heads
      % 65536

/-- An accepted request is one in its partition, and its registers are those
of the division by the geometry. -/
theorem translate_ok {request : AtaRequest} {drive : DriveDescriptor}
    {partition : DrivePartition} {geometry : DriveGeometry}
    {taskFile : AtaTaskFile} {phase : InterruptPhase}
    (hheads : drive.geometry.heads < 256) (hspt : drive.geometry.spt < 256)
    (h : request.translate drive partition = .ok (geometry, taskFile, phase)) :
    Translated request drive partition geometry taskFile := by
  unfold AtaRequest.translate at h
  split at h
  · cases h
  next requestEnd hend =>
    split at h
    · cases h
    next hinside =>
      split at h
      · cases h
      next absolute habsolute =>
        simp only at h
        split at h
        · cases h
        next hgeometry =>
          have hstart := u32CheckedAdd_some habsolute
          have hstart : absolute.toNat = request.absolute partition := hstart
          have hinside := BitVec.not_lt.mp hinside
          rw [BitVec.le_def, u32CheckedAdd_some hend] at hinside
          have hspt0 : 0 < drive.geometry.spt := by
            apply Nat.pos_of_ne_zero
            intro hzero
            apply hgeometry
            left
            apply BitVec.eq_of_toNat_eq
            rw [toNat_widen]
            exact hzero
          have hheads0 : 0 < drive.geometry.heads := by
            apply Nat.pos_of_ne_zero
            intro hzero
            apply hgeometry
            right
            apply BitVec.eq_of_toNat_eq
            rw [toNat_widen]
            exact hzero
          have hmod := Nat.mod_lt (request.absolute partition) hspt0
          have hhead := Nat.mod_lt
            (request.absolute partition / drive.geometry.spt) hheads0
          cases h
          refine ⟨rfl, hinside, hspt0, hheads0, rfl, ?_, ?_, ?_, ?_⟩
          · show (request.remainingSectors.setWidth 8).toNat = _
            rw [BitVec.toNat_setWidth]
          · show ((absolute % _ + 1#32).setWidth 8).toNat = _
            rw [BitVec.toNat_setWidth, BitVec.toNat_add, BitVec.toNat_umod,
              toNat_widen, hstart]
            show (request.absolute partition % drive.geometry.spt + 1)
              % 4294967296 % 256 = _
            omega
          · show ((absolute / _ % _).setWidth 8).toNat = _
            rw [BitVec.toNat_setWidth, BitVec.toNat_umod, BitVec.toNat_udiv,
              toNat_widen, toNat_widen, hstart]
            show (request.absolute partition / drive.geometry.spt
              % drive.geometry.heads) % 256 = _
            omega
          · show ((absolute / _ / _).setWidth 16).toNat = _
            rw [BitVec.toNat_setWidth, BitVec.toNat_udiv, BitVec.toNat_udiv,
              toNat_widen, toNat_widen, hstart]
            rfl

-- ======== the law

/-- The registers name the sector of the request and transfer as many as
it asks for, inside the partition and the drive. -/
structure Registers.Addresses (r : Registers) (request : AtaRequest)
    (drive : DriveDescriptor) (partition : DrivePartition) : Prop where
  selects : r.drive = request.minor.toNat / 5
  sector : 1 ≤ r.sectorNumber.toNat ∧ r.sectorNumber.toNat ≤ drive.geometry.spt
  chs : (r.cylinder * drive.geometry.heads + r.head) * drive.geometry.spt
    + r.sectorNumber.toNat - 1
    = partition.startSector.toNat + request.nextSector.toNat
  count : r.sectorCount.toNat = request.remainingSectors.toNat
  transferred : r.transferred = request.remainingSectors.toNat
  inPartition : request.absolute partition + r.transferred
    ≤ partition.startSector.toNat + partition.sectorCount.toNat
  inDrive : request.absolute partition + r.transferred ≤ drive.geometry.size

/-- The law for an accepted request: its command goes out, to the right
sectors, with a head of four bits, and the turn of `kick` that it is
issued in does not panic in any state of the recovery. -/
structure AtaDriver.Obeys (d : AtaDriver) (ready : Bool)
    (request : AtaRequest) (drive : DriveDescriptor)
    (partition : DrivePartition) (geometry : DriveGeometry)
    (taskFile : AtaTaskFile) (phase : InterruptPhase) : Prop where
  head : taskFile.head.toNat ≤ 15
  issued : ∃ r d', d.issueCommand ready geometry taskFile phase = some (r, d')
    ∧ r.Addresses request drive partition
  runs : (d.kick ready request).isSome

/-- The condition on a request: it asks for 1 to 255 sectors, all of them
on the drive, the first in one of the first sixteen tracks of its
cylinder; the drive has at most sixteen heads if it is to be reset; and
the controller is ready. -/
structure AtaDriver.Fits (d : AtaDriver) (ready : Bool) (request : AtaRequest)
    (drive : DriveDescriptor) (partition : DrivePartition) : Prop where
  count : 1 ≤ request.remainingSectors.toNat
    ∧ request.remainingSectors.toNat ≤ 255
  head : request.absolute partition
    % (drive.geometry.spt * drive.geometry.heads) < 16 * drive.geometry.spt
  inDrive : request.absolute partition + request.remainingSectors.toNat
    ≤ drive.geometry.size
  reset : d.recovery = .needReset → drive.geometry.heads ≤ 16
  ready : ready = true

theorem head_le_iff {a spt heads : Nat} (hspt : 0 < spt) :
    a / spt % heads ≤ 15 ↔ a % (spt * heads) < 16 * spt := by
  rw [← Nat.mod_mul_right_div_self]
  calc a % (spt * heads) / spt ≤ 15
      ↔ a % (spt * heads) / spt < 16 := (Nat.lt_succ_iff).symm
    _ ↔ a % (spt * heads) < 16 * spt := Nat.div_lt_iff_lt_mul hspt

theorem chs_address (a spt heads : Nat) :
    (a / spt / heads * heads + a / spt % heads) * spt + (a % spt + 1) - 1
      = a := by
  rw [Nat.div_add_mod' (a / spt) heads, ← Nat.add_assoc, Nat.add_sub_cancel]
  exact Nat.div_add_mod' a spt

theorem cylinder_lt {a : Nat} {g : DriveGeometry} (hspt : 0 < g.spt)
    (hheads : 0 < g.heads) (h : a < g.size) :
    a / g.spt / g.heads < g.cylinderCount.toNat := by
  rw [Nat.div_div_eq_div_mul]
  apply (Nat.div_lt_iff_lt_mul (Nat.mul_pos hspt hheads)).mpr
  calc a < g.heads * g.spt * g.cylinderCount.toNat := h
    _ = g.cylinderCount.toNat * (g.spt * g.heads) := by
        rw [Nat.mul_comm, Nat.mul_comm g.spt]

section Law

variable {d : AtaDriver} {ready : Bool} {request : AtaRequest}
  {drive : DriveDescriptor} {partition : DrivePartition}
  {geometry : DriveGeometry} {taskFile : AtaTaskFile} {phase : InterruptPhase}

theorem drive_some {t : DiskTable} {i : Nat} (h : t.drive i = some drive) :
    ∃ hlt : i < 2, t.drives ⟨i, hlt⟩ = some drive := by
  unfold DiskTable.drive at h
  by_cases hlt : i < maxDriveCount
  · rw [dif_pos hlt] at h
    exact ⟨hlt, h⟩
  · rw [dif_neg hlt] at h
    cases h

theorem lookup_drive
    (h : d.disks.lookup request.minor = some (drive, partition)) :
    d.disks.drive (request.minor.toNat / 5) = some drive
      ∧ drive.partition (request.minor.toNat % 5) = some partition := by
  obtain ⟨drive', hdrive, h⟩ := Option.bind_eq_some_iff.mp h
  obtain ⟨partition', hpartition, h⟩ := Option.bind_eq_some_iff.mp h
  cases h
  exact ⟨hdrive, hpartition⟩

theorem resetDrive_isSome (hready : ready = true) {i : Nat}
    (hdrive : d.disks.drive i = some drive)
    (hheads : 0 < drive.geometry.heads) (hbyte : drive.geometry.heads < 256) :
    (d.resetDrive ready i).isSome ↔ drive.geometry.heads ≤ 16 := by
  have hlast : ((drive.geometry.headCount - 1#16).setWidth 8 : Byte).toNat
      = drive.geometry.heads - 1 := by
    have hpos : 0 < drive.geometry.headCount.toNat := hheads
    have hlt : drive.geometry.headCount.toNat < 256 := hbyte
    rw [BitVec.toNat_setWidth, BitVec.toNat_sub]
    show (2 ^ 16 - 1 + drive.geometry.headCount.toNat) % 2 ^ 16 % 2 ^ 8
      = drive.geometry.headCount.toNat - 1
    omega
  have hreset : d.resetDrive ready i = d.issueCommand ready drive.geometry {
      driveIndex := i
      sectorCount := drive.geometry.sectorsPerTrack.setWidth 8
      sector := drive.geometry.sectorsPerTrack.setWidth 8
      head := (drive.geometry.headCount - 1#16).setWidth 8
      cylinder := drive.geometry.cylinderCount
      command := .specify } .specifying := by
    unfold AtaDriver.resetDrive
    rw [hdrive]
    rfl
  rw [hreset, issueCommand_isSome, BitVec.le_def]
  simp only
  rw [hlast]
  show i ≤ 1 ∧ drive.geometry.heads - 1 ≤ 15 ∧ ready = true ↔ _
  obtain ⟨hi, -⟩ := drive_some hdrive
  refine ⟨fun h => ?_, fun h => ⟨by omega, by omega, hready⟩⟩
  have := h.2.1
  omega

/-- A translated request for a drive that is ready is started. -/
theorem kick_isSome (hok : d.translateRequest request
      = .ok (geometry, taskFile, phase))
    (hready : ready = true) (hindex : taskFile.driveIndex ≤ 1)
    (hhead : taskFile.head ≤ 0x0f#8)
    (hdrive : d.disks.drive taskFile.driveIndex = some drive)
    (hheads : 0 < drive.geometry.heads) (hbyte : drive.geometry.heads < 256) :
    (d.kick ready request).isSome
      ↔ (d.recovery = .needReset → drive.geometry.heads ≤ 16) := by
  unfold AtaDriver.kick AtaDriver.takeRecoveryState
  rw [hok]
  simp only
  cases hrecovery : d.recovery with
  | ready =>
    simp only [Option.isSome_map]
    rw [issueCommand_isSome]
    exact iff_of_true ⟨hindex, hhead, hready⟩ nofun
  | needReset =>
    simp only [Option.isSome_map]
    have hdrive : ({ d with recovery := RecoveryState.needRecalibrate }
        : AtaDriver).disks.drive taskFile.driveIndex = some drive := hdrive
    rw [resetDrive_isSome hready hdrive hheads hbyte]
    exact ⟨fun h _ => h, fun h => h trivial⟩
  | needRecalibrate =>
    simp only [Option.isSome_map]
    rw [issueCommand_isSome]
    have hzero : (0#8 : Byte) ≤ 0x0f#8 := by decide
    exact iff_of_true ⟨hindex, hzero, hready⟩ nofun

/-- On drives that the BIOS describes, and with whatever partitions: an
accepted request obeys the law if and only if it fits. -/
theorem disk_addressing_iff (hparsed : d.disks.Parsed)
    (hlookup : d.disks.lookup request.minor = some (drive, partition))
    (hok : d.translateRequest request = .ok (geometry, taskFile, phase)) :
    d.Obeys ready request drive partition geometry taskFile phase
      ↔ d.Fits ready request drive partition := by
  obtain ⟨hdrive, -⟩ := lookup_drive hlookup
  obtain ⟨hindex, hslot⟩ := drive_some hdrive
  obtain ⟨⟨entry, hentry⟩, -⟩ := hparsed _ _ hslot
  obtain ⟨hheads, hspt⟩ := fromBiosEntry_bytes hentry
  have htranslate : request.translate drive partition
      = .ok (geometry, taskFile, phase) := by
    rw [← hok]
    unfold AtaDriver.translateRequest
    rw [hlookup]
  have htr := translate_ok hheads hspt htranslate
  have hhead : taskFile.head.toNat ≤ 15 ↔ request.absolute partition
        % (drive.geometry.spt * drive.geometry.heads)
          < 16 * drive.geometry.spt := by
    rw [htr.head]
    exact head_le_iff htr.spt
  have hindex' : taskFile.driveIndex ≤ 1 := by
    rw [htr.driveIndex]
    omega
  have hslot' : d.disks.drive taskFile.driveIndex = some drive := by
    rw [htr.driveIndex]
    exact hdrive
  constructor
  · intro h
    obtain ⟨r, d', hissued, hr⟩ := h.issued
    have hsome : (d.issueCommand ready geometry taskFile phase).isSome := by
      rw [hissued]
      rfl
    obtain ⟨-, hfour, hready⟩ := Iff.mp issueCommand_isSome hsome
    have hcount := hr.count
    have hmoved := hr.transferred
    have hin := hr.inDrive
    rw [hmoved] at hin
    refine ⟨?_, hhead.mp h.head, hin, ?_, hready⟩
    · have hbound := r.sectorCount.isLt
      refine ⟨Nat.pos_of_ne_zero fun hzero => ?_, by omega⟩
      have hno : r.sectorCount = 0#8 := BitVec.eq_of_toNat_eq
        (hcount.trans hzero)
      unfold Registers.transferred at hmoved
      rw [if_pos hno] at hmoved
      omega
    · exact (kick_isSome hok hready hindex' hfour hslot' htr.heads
        hheads).mp h.runs
  · intro h
    obtain ⟨hone, hmany⟩ := h.count
    have hlast := hhead.mpr h.head
    have hfour : taskFile.head ≤ 0x0f#8 := hlast
    obtain ⟨⟨r, d'⟩, hissued⟩ := Option.isSome_iff_exists.mp
      (Iff.mpr issueCommand_isSome ⟨hindex', hfour, h.ready⟩
        : (d.issueCommand ready geometry taskFile phase).isSome)
    obtain ⟨hselect, hheadr, hcyl, hsector, hcountr⟩ :=
      issueCommand_registers hissued
    have hcount : r.sectorCount.toNat = request.remainingSectors.toNat := by
      rw [hcountr, htr.count]
      omega
    have hmoved : r.transferred = request.remainingSectors.toNat := by
      unfold Registers.transferred
      rw [if_neg, hcount]
      intro hzero
      rw [hzero] at hcount
      have hcount : 0 = request.remainingSectors.toNat := hcount
      omega
    have hcylinder : r.cylinder = request.absolute partition
        / drive.geometry.spt / drive.geometry.heads := by
      rw [hcyl, htr.cylinder]
      apply Nat.mod_eq_of_lt
      have hin := h.inDrive
      exact Nat.lt_trans (cylinder_lt htr.spt htr.heads (by omega))
        drive.geometry.cylinderCount.isLt
    have hmod := Nat.mod_lt (request.absolute partition) htr.spt
    refine ⟨hlast, ⟨r, d', hissued, ?_⟩, ?_⟩
    · refine ⟨hselect.trans htr.driveIndex, ?_, ?_, hcount, hmoved, ?_, ?_⟩
      · rw [hsector, htr.sector]
        omega
      · rw [hcylinder, hheadr, htr.head, hsector, htr.sector]
        exact chs_address _ _ _
      · have hinside := htr.inside
        rw [hmoved]
        unfold AtaRequest.absolute
        omega
      · rw [hmoved]
        exact h.inDrive
    · exact (kick_isSome hok h.ready hindex' hfour hslot' htr.heads
        hheads).mpr h.reset

end Law

-- ======== examples

/-- A BIOS entry with few cylinders, and so many heads and sectors. -/
def biosEntry (heads spt : Byte) (k : Nat) : Byte :=
  match k with
  | 0 => 20#8
  | 2 => heads
  | 14 => spt
  | _ => 0#8

/-- A boot record with one partition of sixteen sectors, behind as many as
the four bytes say. -/
def bootRecord (b₀ b₁ b₂ b₃ : Byte) : List Byte :=
  List.replicate 454 0#8 ++ [b₀, b₁, b₂, b₃, 16#8, 0#8, 0#8, 0#8]
    ++ List.replicate 48 0#8 ++ [0x55#8, 0xaa#8]

def bootedDriver (heads spt : Byte) (record : List Byte) : AtaDriver :=
  (AtaDriver.new.setupFromBios (biosEntry heads spt) 0xf0#8
    fun _ => some record).2

theorem parsed_bootedDriver (heads spt : Byte) (record : List Byte) :
    (bootedDriver heads spt record).disks.Parsed :=
  parsed_setupFromBios parsed_new _ _

def readTwo (minor : Byte) (next : BitVec 32) : AtaRequest :=
  ⟨.read, minor, next, 2#32, 0⟩

set_option maxRecDepth 8000 in
/-- Two sectors of a partition that starts at sector one. -/
theorem disk_addressing_partition : ∃ drive partition geometry taskFile phase,
      (bootedDriver 4#8 17#8 (bootRecord 1#8 0#8 0#8 0#8)).translateRequest
        (readTwo 1#8 4#32) = .ok (geometry, taskFile, phase)
      ∧ (bootedDriver 4#8 17#8 (bootRecord 1#8 0#8 0#8 0#8)).Obeys true
        (readTwo 1#8 4#32) drive partition geometry taskFile phase := by
  have hlookup : (bootedDriver 4#8 17#8
      (bootRecord 1#8 0#8 0#8 0#8)).disks.lookup 1#8 = some (_, _) := rfl
  refine ⟨_, _, _, _, _, rfl, (disk_addressing_iff
    (parsed_bootedDriver _ _ _) hlookup rfl).mpr ?_⟩
  exact ⟨by decide, by decide, by decide, nofun, rfl⟩

set_option maxRecDepth 8000 in
/-- A whole disk of 255 heads: the request for sector 1008 is accepted and
`issue_command` panics. A partition that starts behind 65536 cylinders:
its first sector is issued as the first one of the drive. -/
theorem disk_addressing_fails : (∃ result, (bootedDriver 255#8 63#8
        (bootRecord 1#8 0#8 0#8 0#8)).translateRequest
          (readTwo 0#8 1008#32) = .ok result)
    ∧ (bootedDriver 255#8 63#8 (bootRecord 1#8 0#8 0#8 0#8)).kick true
        (readTwo 0#8 1008#32) = none
    ∧ ∃ r d', (bootedDriver 4#8 17#8 (bootRecord 0#8 0#8 0x44#8 0#8)).kick
        true (readTwo 1#8 0#32) = some (some r, d')
      ∧ r.cylinder = 0 ∧ r.head = 0 ∧ r.sectorNumber = 1#8 :=
  ⟨⟨_, rfl⟩, rfl, _, _, rfl, rfl, rfl, rfl⟩

end LinuxRs.Driver
