/-
The arithmetic of `DiskLayout::from_parts`, operation by operation
(mbrkit/src/layout.rs).

# The checked model

Every sum, difference, product and quotient of `u64` values is an operation
that may fail, and a failure ends the function: `none` is a build with
overflow checks that panics, and a value is the result, which is the one of
the model with wrapping arithmetic (`fromPartsChecked_eq`).

# Where it fails

`checked_add` guards the end of a partition, but the rounding that follows
multiplies without a check: an end past the last multiple of the alignment
in `u64` has no place to round up to. That is the only place
(`from_parts_overflow_iff`), and it is reached for the last partition too,
after which no start is needed.
-/
import LinuxRs.Mbrkit.Disk

namespace LinuxRs.Mbrkit

open LinuxRs.Lib Extent

-- ======== u64 operations

def addU64 (a b : Nat) : Option Nat :=
  if a + b < u64Limit then some (a + b) else none

def subU64 (a b : Nat) : Option Nat := if b ≤ a then some (a - b) else none

def mulU64 (a b : Nat) : Option Nat :=
  if a * b < u64Limit then some (a * b) else none

def divU64 (a b : Nat) : Option Nat := if b = 0 then none else some (a / b)

/-- `u64::div_ceil`: the quotient, and one more when something remains. -/
def divCeilU64 (a b : Nat) : Option Nat :=
  match divU64 a b with
  | none => none
  | some d => if 0 < a % b then addU64 d 1 else some d

def bytesToSectorsChecked (bytes : Nat) : Option Nat :=
  divCeilU64 bytes sectorSize

def alignUpChecked (value alignment : Nat) : Option Nat :=
  match divCeilU64 value alignment with
  | none => none
  | some blocks => mulU64 blocks alignment

def PartitionLayout.endLbaChecked (p : PartitionLayout) : Option Nat :=
  match addU64 p.startLba p.sectorCount with
  | none => none
  | some stop => subU64 stop 1

-- ======== the checked model

/-- The first check of `validate_partitions`. -/
def checkOverlapsChecked :
    List PartitionLayout → Option (Except MbrkitError Unit)
  | left :: right :: rest =>
    match left.endLbaChecked with
    | none => none
    | some endLba =>
      if right.startLba ≤ endLba then
        some (.error (.invalidArgument ("partitions " ++ toString left.slot
          ++ " and " ++ toString right.slot ++ " overlap")))
      else checkOverlapsChecked (right :: rest)
  | _ => some (.ok ())

/-- The second check of `validate_partitions`. -/
def checkBoundsChecked (diskSectors : Nat) :
    List PartitionLayout → Option (Except MbrkitError Unit)
  | [] => some (.ok ())
  | p :: rest =>
    if p.sectorCount = 0 then
      some (.error (.invalidArgument ("partition " ++ toString p.slot
        ++ " has zero sectors")))
    else
      match p.endLbaChecked with
      | none => none
      | some endLba =>
        if diskSectors ≤ endLba then
          some (.error (.invalidArgument ("partition " ++ toString p.slot
            ++ " exceeds the declared disk size")))
        else checkBoundsChecked diskSectors rest

def validatePartitionsChecked (partitions : List PartitionLayout)
    (diskSectors : Nat) : Option (Except MbrkitError Unit) :=
  match checkOverlapsChecked (partitions.insertionSort StartLe) with
  | none => none
  | some (.error e) => some (.error e)
  | some (.ok ()) => checkBoundsChecked diskSectors partitions

def placePartitionsChecked (metadata : Path → Option Nat)
    (alignSectors : Nat) : Nat → Nat → List PartitionSpec →
      Option (Except MbrkitError (List PartitionLayout))
  | _, _, [] => some (.ok [])
  | index, nextAutoStart, spec :: rest =>
    match metadata spec.file with
    | none => some (.error (.io (some spec.file)
        "failed to read source image metadata"))
    | some fileSize =>
      if spec.sizeBytes.getD fileSize < fileSize then
        some (.error (.invalidArgument ("partition source `" ++ spec.file
          ++ "` is larger than the declared partition size")))
      else
        match bytesToSectorsChecked (spec.sizeBytes.getD fileSize) with
        | none => none
        | some sectorCount =>
          if spec.startLba.getD nextAutoStart = 0 then
            some (.error (.invalidArgument
              "partition LBA 0 is reserved for the MBR sector"))
          else
            -- `checked_add`: an error, not an overflow
            match addU64 (spec.startLba.getD nextAutoStart) sectorCount with
            | none => some (.error (.invalidArgument
                "partition range overflowed"))
            | some stop =>
              match alignUpChecked stop alignSectors with
              | none => none
              | some next =>
                match placePartitionsChecked metadata alignSectors
                  (index + 1) next rest with
                | none => none
                | some (.error e) => some (.error e)
                | some (.ok partitions) => some (.ok
                    (⟨index + 1, spec.file, spec.partitionType,
                      spec.bootable, spec.startLba.getD nextAutoStart,
                      sectorCount, fileSize⟩ :: partitions))

def DiskLayout.fromPartsChecked (metadata : Path → Option Nat)
    (output : Path) (diskSize : Nat) (bootstrapCode : BootstrapCode)
    (diskSignature : BitVec 32) (alignSectors : Nat)
    (partitionSpecs : List PartitionSpec) :
    Option (Except MbrkitError DiskLayout) :=
  if alignSectors = 0 then
    some (.error (.invalidArgument "`--align` must be greater than zero"))
  else if diskSize < sectorSize then
    some (.error (.invalidArgument "disk size must be at least one sector"))
  else if partitionSpecs.isEmpty then
    some (.error (.invalidArgument "at least one partition must be defined"))
  else if 4 < partitionSpecs.length then
    some (.error (.invalidArgument
      "MBR supports at most four primary partitions"))
  else
    match divU64 diskSize sectorSize with
    | none => none
    | some sectorCount =>
      match alignUpChecked 1 alignSectors with
      | none => none
      | some nextAutoStart =>
        match placePartitionsChecked metadata alignSectors 0 nextAutoStart
          partitionSpecs with
        | none => none
        | some (.error e) => some (.error e)
        | some (.ok partitions) =>
          match validatePartitionsChecked partitions sectorCount with
          | none => none
          | some (.error e) => some (.error e)
          | some (.ok ()) => some (.ok ⟨output, diskSize, diskSignature,
              bootstrapCode, (0#8, 0#8), alignSectors, partitions⟩)

-- ======== the rounding

/-- Within 64 bits the rounded division is the one of the numbers. -/
theorem divCeilU64_eq {a b : Nat} (hb : 0 < b) (ha : a < u64Limit) :
    divCeilU64 a b = some ((a + (b - 1)) / b) := by
  have hdiv := Nat.div_add_mod a b
  have hmod := Nat.mod_lt a hb
  have hround : (a + (b - 1)) / b = if 0 < a % b then a / b + 1 else a / b := by
    split
    next hpos =>
      refine Nat.div_eq_of_lt_le ?_ ?_
      · rw [Nat.add_mul, Nat.one_mul, Nat.mul_comm]; omega
      · rw [Nat.add_mul, Nat.add_mul, Nat.one_mul, Nat.mul_comm]; omega
    next hzero =>
      refine Nat.div_eq_of_lt_le ?_ ?_
      · rw [Nat.mul_comm]; omega
      · rw [Nat.add_mul, Nat.one_mul, Nat.mul_comm]; omega
  unfold divCeilU64 divU64
  rw [if_neg (Nat.ne_of_gt hb), hround]
  dsimp only
  split
  next hpos =>
    -- with a remainder, the divisor is at least two
    have hle : a / b + 1 ≤ a := by
      have hb2 : 2 ≤ b := by omega
      have hmul : a / b * 2 ≤ b * (a / b) := by
        rw [Nat.mul_comm b]
        exact Nat.mul_le_mul_left _ hb2
      omega
    unfold addU64
    rw [if_pos (by omega)]
  next => rfl

theorem bytesToSectorsChecked_eq {bytes : Nat} (h : bytes < u64Limit) :
    bytesToSectorsChecked bytes = some (bytesToSectors bytes) :=
  divCeilU64_eq (by decide) h

/-- The last multiple of an alignment that is a `u64`. -/
def lastMultiple (alignment : Nat) : Nat :=
  (u64Limit - 1) / alignment * alignment

def roundUp (value alignment : Nat) : Nat :=
  (value + (alignment - 1)) / alignment * alignment

theorem roundUp_lt_iff {value alignment : Nat} (h : 0 < alignment) :
    roundUp value alignment < u64Limit ↔ value ≤ lastMultiple alignment := by
  have hblocks : roundUp value alignment < u64Limit ↔
      (value + (alignment - 1)) / alignment ≤ (u64Limit - 1) / alignment := by
    rw [Nat.le_div_iff_mul_le h]
    unfold roundUp u64Limit
    omega
  rw [hblocks, ← Nat.lt_succ_iff, Nat.div_lt_iff_lt_mul h]
  unfold lastMultiple
  rw [Nat.succ_mul]
  omega

theorem alignUpChecked_eq {value alignment : Nat} (h : 0 < alignment)
    (hvalue : value < u64Limit) : alignUpChecked value alignment =
      if value ≤ lastMultiple alignment then some (roundUp value alignment)
      else none := by
  unfold alignUpChecked
  rw [divCeilU64_eq h hvalue]
  exact if_congr (roundUp_lt_iff h) rfl rfl

-- ======== the plan

def PartitionSpec.requestedSize (metadata : Path → Option Nat)
    (spec : PartitionSpec) : Nat :=
  spec.sizeBytes.getD ((metadata spec.file).getD 0)

/-- Where the specifications would lie if nothing were refused and numbers
had no bound: each one at its own start, or at the rounded end of the one
before. -/
def plan (metadata : Path → Option Nat) (alignSectors : Nat) :
    Nat → List PartitionSpec → List (PartitionSpec × Extent)
  | _, [] => []
  | next, spec :: rest =>
    let e : Extent := ⟨spec.startLba.getD next,
      bytesToSectors (spec.requestedSize metadata)⟩
    (spec, e) :: plan metadata alignSectors (roundUp e.stop alignSectors) rest

/-- The loop does not refuse a planned partition: its payload can be read
and fits, it does not start at sector 0, and its end is a `u64`. -/
def passes (metadata : Path → Option Nat) (x : PartitionSpec × Extent) :
    Bool :=
  match metadata x.1.file with
  | none => false
  | some fileSize => fileSize ≤ x.1.requestedSize metadata ∧
      x.2.start ≠ 0 ∧ x.2.stop < u64Limit

/-- Every planned partition ends at or before the last multiple of the
alignment, up to the first that is refused. -/
def Rounds (metadata : Path → Option Nat) (alignSectors next : Nat)
    (specs : List PartitionSpec) : Prop :=
  ∀ x ∈ (plan metadata alignSectors next specs).takeWhile (passes metadata),
    x.2.stop ≤ lastMultiple alignSectors

theorem rounds_nil {metadata : Path → Option Nat} {alignSectors next : Nat} :
    Rounds metadata alignSectors next [] := nofun

theorem rounds_refused {metadata : Path → Option Nat} {alignSectors next : Nat}
    {spec : PartitionSpec} {rest : List PartitionSpec}
    (h : passes metadata (spec, ⟨spec.startLba.getD next,
      bytesToSectors (spec.requestedSize metadata)⟩) = false) :
    Rounds metadata alignSectors next (spec :: rest) := by
  unfold Rounds plan
  rw [List.takeWhile_cons_of_neg (by rw [h]; exact Bool.false_ne_true)]
  exact nofun

theorem rounds_cons {metadata : Path → Option Nat} {alignSectors next : Nat}
    {spec : PartitionSpec} {rest : List PartitionSpec}
    {e : Extent} (he : e = ⟨spec.startLba.getD next,
      bytesToSectors (spec.requestedSize metadata)⟩)
    (h : passes metadata (spec, e) = true) :
    Rounds metadata alignSectors next (spec :: rest) ↔
      e.stop ≤ lastMultiple alignSectors ∧
      Rounds metadata alignSectors (roundUp e.stop alignSectors) rest := by
  unfold Rounds
  rw [plan, ← he, List.takeWhile_cons_of_pos h]
  simp only [List.mem_cons, forall_eq_or_imp]

-- ======== the loop

/-- Every number of a specification is a `u64`, and so are the sizes of the
files. -/
structure Admitted (metadata : Path → Option Nat) (diskSize alignSectors : Nat)
    (specs : List PartitionSpec) : Prop where
  files : ∀ path size, metadata path = some size → size < u64Limit
  disk : diskSize < u64Limit
  align : alignSectors < u64Limit
  starts : ∀ spec ∈ specs, ∀ start, spec.startLba = some start →
    start < u64Limit
  sizes : ∀ spec ∈ specs, ∀ size, spec.sizeBytes = some size → size < u64Limit

/-- What a partition that was placed lets `end_lba` count on. -/
def Bounded (p : PartitionLayout) : Prop :=
  0 < p.startLba ∧ p.startLba + p.sectorCount < u64Limit

/-- The checked placement fails exactly where the unchecked one leaves 64
bits. -/
theorem placePartitionsChecked_iff {metadata : Path → Option Nat}
    {alignSectors : Nat} (halign : 0 < alignSectors)
    (hfiles : ∀ path size, metadata path = some size → size < u64Limit)
    {specs : List PartitionSpec}
    (hsizes : ∀ spec ∈ specs, ∀ size, spec.sizeBytes = some size →
      size < u64Limit) (index next : Nat) :
    (Rounds metadata alignSectors next specs ∧
      placePartitionsChecked metadata alignSectors index next specs =
        some (placePartitions metadata alignSectors index next specs) ∧
      ∀ ps, placePartitions metadata alignSectors index next specs = .ok ps →
        ∀ p ∈ ps, Bounded p) ∨
    (¬ Rounds metadata alignSectors next specs ∧
      placePartitionsChecked metadata alignSectors index next specs = none) := by
  induction specs generalizing index next with
  | nil =>
    refine .inl ⟨rounds_nil, rfl, fun ps hps p hp => ?_⟩
    cases hps
    cases hp
  | cons spec rest ih =>
    unfold placePartitionsChecked placePartitions
    cases hmeta : metadata spec.file with
    | none =>
      refine .inl ⟨rounds_refused ?_, rfl, fun ps hps => by cases hps⟩
      unfold passes
      rw [hmeta]
    | some fileSize =>
      have hrequested : spec.requestedSize metadata =
          spec.sizeBytes.getD fileSize := by
        unfold PartitionSpec.requestedSize
        rw [hmeta]
        rfl
      have hbound : spec.sizeBytes.getD fileSize < u64Limit := by
        cases hsize : spec.sizeBytes with
        | none => exact hfiles _ _ hmeta
        | some size => exact hsizes spec List.mem_cons_self size hsize
      have hpasses : ∀ e : Extent, passes metadata (spec, e) =
          decide (fileSize ≤ spec.sizeBytes.getD fileSize ∧
            e.start ≠ 0 ∧ e.stop < u64Limit) := by
        intro e
        unfold passes
        rw [hmeta, hrequested]
      dsimp only
      rw [bytesToSectorsChecked_eq hbound]
      dsimp only
      by_cases hlarge : spec.sizeBytes.getD fileSize < fileSize
      · rw [if_pos hlarge, if_pos hlarge]
        refine .inl ⟨rounds_refused ?_, rfl, fun ps hps => by cases hps⟩
        rw [hpasses]
        exact decide_eq_false fun hok => absurd hok.1 (Nat.not_le.mpr hlarge)
      rw [if_neg hlarge, if_neg hlarge]
      by_cases hzero : spec.startLba.getD next = 0
      · rw [if_pos hzero, if_pos hzero]
        refine .inl ⟨rounds_refused ?_, rfl, fun ps hps => by cases hps⟩
        rw [hpasses]
        exact decide_eq_false fun hok => hok.2.1 hzero
      rw [if_neg hzero, if_neg hzero]
      generalize he : (⟨spec.startLba.getD next,
        bytesToSectors (spec.sizeBytes.getD fileSize)⟩ : Extent) = e
      have hstop : spec.startLba.getD next
          + bytesToSectors (spec.sizeBytes.getD fileSize) = e.stop := by
        rw [← he]
        rfl
      rw [hstop]
      unfold addU64
      rw [hstop]
      by_cases hrange : u64Limit ≤ e.stop
      · rw [if_neg (Nat.not_lt.mpr hrange), if_pos hrange]
        refine .inl ⟨rounds_refused ?_, rfl, fun ps hps => by cases hps⟩
        rw [hrequested, he, hpasses]
        exact decide_eq_false fun hok =>
          absurd hok.2.2 (Nat.not_lt.mpr hrange)
      have hlt : e.stop < u64Limit := Nat.lt_of_not_le hrange
      rw [if_pos hlt, if_neg hrange]
      dsimp only
      have hpass : passes metadata (spec, e) = true := by
        rw [hpasses]
        refine decide_eq_true ⟨Nat.le_of_not_lt hlarge, ?_, hlt⟩
        rw [← he]
        exact hzero
      have hrounds : Rounds metadata alignSectors next (spec :: rest) ↔
          e.stop ≤ lastMultiple alignSectors ∧
          Rounds metadata alignSectors (roundUp e.stop alignSectors) rest :=
        rounds_cons (by rw [hrequested, he]) hpass
      rw [alignUpChecked_eq halign hlt, hrounds]
      by_cases hlast : e.stop ≤ lastMultiple alignSectors
      · have hwrap : alignUp e.stop alignSectors =
            roundUp e.stop alignSectors :=
          Nat.mod_eq_of_lt ((roundUp_lt_iff halign).mpr hlast)
        rw [if_pos hlast, hwrap]
        dsimp only
        rcases ih (fun s hs => hsizes s (List.mem_cons_of_mem _ hs))
          (index + 1) (roundUp e.stop alignSectors) with
          ⟨hrest, hsame, hall⟩ | ⟨hrest, hnone⟩
        · refine .inl ⟨⟨hlast, hrest⟩, ?_, fun ps hps p hp => ?_⟩
          · rw [hsame]
            cases placePartitions metadata alignSectors (index + 1)
              (roundUp e.stop alignSectors) rest <;> rfl
          · cases htail : placePartitions metadata alignSectors (index + 1)
              (roundUp e.stop alignSectors) rest with
            | error err => rw [htail] at hps; cases hps
            | ok tail =>
              rw [htail] at hps
              cases hps
              rcases List.mem_cons.mp hp with rfl | hp
              · exact ⟨Nat.pos_of_ne_zero hzero, by
                  show spec.startLba.getD next + bytesToSectors
                    (spec.sizeBytes.getD fileSize) < u64Limit
                  rw [hstop]
                  exact hlt⟩
              · exact hall tail htail p hp
        · refine .inr ⟨fun hno => hrest hno.2, ?_⟩
          rw [hnone]
      · rw [if_neg hlast]
        exact .inr ⟨fun hno => hlast hno.1, rfl⟩

-- ======== the validation

theorem Bounded.endLba {p : PartitionLayout} (h : Bounded p) :
    p.endLbaChecked = some p.endLba := by
  obtain ⟨hstart, hstop⟩ := h
  unfold PartitionLayout.endLbaChecked addU64
  rw [if_pos hstop]
  dsimp only
  unfold subU64
  rw [if_pos (by omega)]
  rfl

theorem checkOverlapsChecked_eq {l : List PartitionLayout}
    (h : ∀ p ∈ l, Bounded p) :
    checkOverlapsChecked l = some (checkOverlaps l) := by
  induction l with
  | nil => rfl
  | cons left l ih =>
    cases l with
    | nil => rfl
    | cons right rest =>
      unfold checkOverlapsChecked checkOverlaps
      rw [(h left List.mem_cons_self).endLba]
      dsimp only
      rw [ih fun p hp => h p (List.mem_cons_of_mem _ hp)]
      split
      next => rfl
      next => rfl

theorem checkBoundsChecked_eq {diskSectors : Nat} {l : List PartitionLayout}
    (h : ∀ p ∈ l, Bounded p) :
    checkBoundsChecked diskSectors l = some (checkBounds diskSectors l) := by
  induction l with
  | nil => rfl
  | cons p rest ih =>
    unfold checkBoundsChecked checkBounds
    rw [(h p List.mem_cons_self).endLba]
    dsimp only
    rw [ih fun q hq => h q (List.mem_cons_of_mem _ hq)]
    split
    next => rfl
    next =>
      split
      next => rfl
      next => rfl

theorem validatePartitionsChecked_eq {partitions : List PartitionLayout}
    {diskSectors : Nat} (h : ∀ p ∈ partitions, Bounded p) :
    validatePartitionsChecked partitions diskSectors =
      some (validatePartitions partitions diskSectors) := by
  have hperm := List.perm_insertionSort StartLe partitions
  unfold validatePartitionsChecked validatePartitions
  rw [checkOverlapsChecked_eq fun p hp => h p (hperm.mem_iff.mp hp)]
  cases hoverlaps : checkOverlaps (partitions.insertionSort StartLe) with
  | error e => rfl
  | ok u => exact checkBoundsChecked_eq h

-- ======== from_parts

/-- Refused before anything is laid out. -/
def RefusedAtOnce (diskSize alignSectors : Nat) (specs : List PartitionSpec) :
    Prop :=
  alignSectors = 0 ∨ diskSize < sectorSize ∨ specs = [] ∨ 4 < specs.length

variable {metadata : Path → Option Nat} {output : Path} {diskSize : Nat}
  {boot : BootstrapCode} {signature : BitVec 32} {align : Nat}
  {specs : List PartitionSpec}

/-- What admitted arguments come to: a refusal, an overflow, or a layout. -/
theorem fromPartsChecked_cases (h : Admitted metadata diskSize align specs)
    (output : Path) (boot : BootstrapCode)
    (signature : BitVec 32) : ((RefusedAtOnce diskSize align specs ∨
        Rounds metadata align (roundUp 1 align) specs) ∧
      DiskLayout.fromPartsChecked metadata output diskSize boot signature align
        specs = some (DiskLayout.fromParts metadata output diskSize boot
          signature align specs)) ∨
    (¬ (RefusedAtOnce diskSize align specs ∨
        Rounds metadata align (roundUp 1 align) specs) ∧
      DiskLayout.fromPartsChecked metadata output diskSize boot signature align
        specs = none) := by
  unfold DiskLayout.fromPartsChecked DiskLayout.fromParts
  by_cases hzero : align = 0
  · rw [if_pos hzero, if_pos hzero]
    exact .inl ⟨.inl (.inl hzero), rfl⟩
  rw [if_neg hzero, if_neg hzero]
  by_cases hdisk : diskSize < sectorSize
  · rw [if_pos hdisk, if_pos hdisk]
    exact .inl ⟨.inl (.inr (.inl hdisk)), rfl⟩
  rw [if_neg hdisk, if_neg hdisk]
  by_cases hempty : specs.isEmpty = true
  · rw [if_pos hempty, if_pos hempty]
    exact .inl ⟨.inl (.inr (.inr (.inl (List.isEmpty_iff.mp hempty)))), rfl⟩
  rw [if_neg hempty, if_neg hempty]
  by_cases hmany : 4 < specs.length
  · rw [if_pos hmany, if_pos hmany]
    exact .inl ⟨.inl (.inr (.inr (.inr hmany))), rfl⟩
  rw [if_neg hmany, if_neg hmany]
  have halign : 0 < align := Nat.pos_of_ne_zero hzero
  have hentered : ¬ RefusedAtOnce diskSize align specs := by
    rintro (hbad | hbad | hbad | hbad)
    · exact hzero hbad
    · exact hdisk hbad
    · exact hempty (List.isEmpty_iff.mpr hbad)
    · exact hmany hbad
  -- the first automatic start is the alignment itself
  have hfirst : 1 ≤ lastMultiple align := by
    have hblocks : 1 ≤ (u64Limit - 1) / align :=
      (Nat.le_div_iff_mul_le halign).mpr (by have := h.align; omega)
    exact Nat.mul_le_mul hblocks halign
  have hwrap : alignUp 1 align = roundUp 1 align :=
    Nat.mod_eq_of_lt ((roundUp_lt_iff halign).mpr hfirst)
  have hdiv : divU64 diskSize sectorSize = some (diskSize / sectorSize) := rfl
  rw [hdiv, alignUpChecked_eq halign (by decide), if_pos hfirst, hwrap]
  dsimp only
  rcases placePartitionsChecked_iff halign h.files h.sizes 0
    (roundUp 1 align) with ⟨hrounds, hsame, hall⟩ | ⟨hrounds, hnone⟩
  · refine .inl ⟨.inr hrounds, ?_⟩
    rw [hsame]
    cases hplace : placePartitions metadata align 0 (roundUp 1 align) specs with
    | error e => rfl
    | ok partitions =>
      dsimp only
      rw [validatePartitionsChecked_eq (hall partitions hplace)]
      cases validatePartitions partitions (diskSize / sectorSize) <;> rfl
  · refine .inr ⟨fun hno => hno.elim hentered hrounds, ?_⟩
    rw [hnone]

/-- For every specification: `from_parts` returns a layout or an error, with
no operation overflowing or dividing by zero, exactly when it is refused at
once or every planned partition, up to the first that is refused, ends at or
before the last multiple of the alignment. -/
theorem from_parts_overflow_iff (h : Admitted metadata diskSize align specs) :
    (∃ result, DiskLayout.fromPartsChecked metadata output diskSize boot
        signature align specs = some result) ↔
      RefusedAtOnce diskSize align specs ∨
        Rounds metadata align (roundUp 1 align) specs := by
  rcases fromPartsChecked_cases h output boot signature with
    ⟨hcond, hsame⟩ | ⟨hcond, hnone⟩
  · exact ⟨fun _ => hcond, fun _ => ⟨_, hsame⟩⟩
  · constructor
    · intro hok
      obtain ⟨result, hok⟩ := hok
      rw [hnone] at hok
      cases hok
    · exact fun hyes => absurd hyes hcond

/-- The two partitions of the small disk are placed without overflow. -/
theorem from_parts_two :
    ∃ result, DiskLayout.fromPartsChecked (fun _ => some 3) "disk.img" 4096
      blankCode 0#32 1 twoSpecs = some result := by
  have hsize : ∀ size : Nat, some 3 = some size → size < u64Limit := by
    intro size hsize
    rw [← Option.some.inj hsize]
    decide
  have hspecs : ∀ spec ∈ twoSpecs,
      (∀ start, spec.startLba = some start → start < u64Limit) ∧
      ∀ size, spec.sizeBytes = some size → size < u64Limit := by
    unfold twoSpecs u64Limit
    simp
  refine (from_parts_overflow_iff ⟨fun _ => hsize, by decide, by decide,
    fun spec hs => (hspecs spec hs).1, fun spec hs => (hspecs spec hs).2⟩).mpr
      (.inr ?_)
  unfold Rounds
  decide

def lastSpecs : List PartitionSpec :=
  [⟨"root.img", 0x83#8, false, some 0xfffffffffffffffe, none⟩]

/-- A partition of one sector that starts at the last sector but one of the
numbering: its end is a `u64`, and rounding it up to a multiple of 2048
overflows, before anything compares it with the disk. -/
theorem from_parts_overflows :
    (∀ spec ∈ lastSpecs, ∀ start, spec.startLba = some start →
      start + bytesToSectors 512 < u64Limit) ∧
    DiskLayout.fromPartsChecked (fun _ => some 512) "disk.img" 4096 blankCode
      0#32 2048 lastSpecs = none := by
  refine ⟨?_, rfl⟩
  unfold lastSpecs u64Limit bytesToSectors sectorSize
  simp

end LinuxRs.Mbrkit
