/-
From a layout to a disk and back.

# The layout

Whatever `from_parts` accepts has its partitions apart from each other,
inside the disk, behind the record, and as large as their payloads.

# The image

Each write of `pack` stays inside its partition, so the partitions and the
record are read back as they were written: `extract` returns the payload
with zeros behind it, and `verify` finds the entries that the layout put
there.
-/
import LinuxRs.Mbrkit.Commands
import LinuxRs.Lib.Extent
import Mathlib.Data.Fintype.Basic
import Mathlib.Tactic.FinCases

namespace LinuxRs.Mbrkit

open LinuxRs.Lib Extent

-- ======== the layout

def PartitionLayout.sectors (p : PartitionLayout) : Extent :=
  ⟨p.startLba, p.sectorCount⟩

/-- The slots of a list of partitions follow each other from an index on. -/
def Slots (index : Nat) (ps : List PartitionLayout) : Prop :=
  ∀ (j : Nat) (p : PartitionLayout), ps[j]? = some p → p.slot = index + j + 1

theorem Slots.tail {index : Nat} {p : PartitionLayout}
    {ps : List PartitionLayout} (h : Slots index (p :: ps)) :
    Slots (index + 1) ps := by
  intro j q hq
  have hslot := h (j + 1) q (by rw [List.getElem?_cons_succ]; exact hq)
  omega

/-- What the loop of `from_parts` makes sure of. -/
structure Placed (metadata : Path → Option Nat) (p : PartitionLayout) :
    Prop where
  start : 1 ≤ p.startLba
  size : metadata p.file = some p.fileSize
  room : p.fileSize ≤ p.byteLen

theorem le_bytesToSectors (bytes : Nat) :
    bytes ≤ bytesToSectors bytes * sectorSize := by
  unfold bytesToSectors sectorSize
  omega

/-- The partitions are placed one behind the other, aligned where no start is
given. -/
theorem placePartitions_spec {metadata : Path → Option Nat} {align : Nat}
    {specs : List PartitionSpec} {index next : Nat} {ps : List PartitionLayout}
    (h : placePartitions metadata align index next specs = .ok ps) :
    ps.map PartitionLayout.file = specs.map PartitionSpec.file ∧
      Slots index ps ∧ ∀ p ∈ ps, Placed metadata p := by
  induction specs generalizing index next ps with
  | nil =>
    cases h
    exact ⟨rfl, nofun, nofun⟩
  | cons spec rest ih =>
    unfold placePartitions at h
    split at h
    next => cases h
    next fileSize hmeta =>
      dsimp only at h
      split at h
      next => cases h
      next hsize =>
        split at h
        next => cases h
        next hstart =>
          split at h
          next => cases h
          next =>
            split at h
            next => cases h
            next tail htail =>
              cases h
              obtain ⟨hfiles, hslots, hplaced⟩ := ih htail
              refine ⟨?_, fun j p hp => ?_, fun p hp => ?_⟩
              · rw [List.map_cons, List.map_cons, hfiles]
              · cases j with
                | zero =>
                  cases hp
                  rfl
                | succ j =>
                  have hslot := hslots j p hp
                  omega
              · rcases List.mem_cons.mp hp with rfl | hp
                · refine ⟨Nat.pos_of_ne_zero hstart, hmeta, ?_⟩
                  exact (Nat.le_of_not_lt hsize).trans (le_bytesToSectors _)
                · exact hplaced p hp

/-- The check accepts only partitions in order that do not meet. -/
theorem checkOverlaps_ok {l : List PartitionLayout}
    (h : checkOverlaps l = .ok ()) (hpos : ∀ p ∈ l, 0 < p.sectorCount) :
    l.Pairwise fun p q => p.sectors.stop ≤ q.sectors.start := by
  induction l with
  | nil => exact List.Pairwise.nil
  | cons left l ih =>
    cases l with
    | nil => exact List.pairwise_singleton _ _
    | cons right rest =>
      unfold checkOverlaps at h
      split at h
      next => cases h
      next hgap =>
        have htail := ih h fun p hp => hpos p (List.mem_cons_of_mem _ hp)
        have hleft := hpos left List.mem_cons_self
        have hfirst : left.sectors.stop ≤ right.sectors.start := by
          unfold PartitionLayout.endLba at hgap
          unfold PartitionLayout.sectors stop
          dsimp only
          omega
        refine List.pairwise_cons.mpr ⟨fun q hq => ?_, htail⟩
        rcases List.mem_cons.mp hq with rfl | hq
        · exact hfirst
        · have hnext := List.rel_of_pairwise_cons htail hq
          unfold stop at *
          omega

theorem checkBounds_ok {diskSectors : Nat} {l : List PartitionLayout}
    (h : checkBounds diskSectors l = .ok ()) :
    ∀ p ∈ l, 0 < p.sectorCount ∧ p.sectors.stop ≤ diskSectors := by
  induction l with
  | nil => exact nofun
  | cons p rest ih =>
    unfold checkBounds at h
    split at h
    next => cases h
    next hzero =>
      split at h
      next => cases h
      next hend =>
        intro q hq
        rcases List.mem_cons.mp hq with rfl | hq
        · refine ⟨Nat.pos_of_ne_zero hzero, ?_⟩
          unfold PartitionLayout.endLba at hend
          unfold PartitionLayout.sectors stop
          dsimp only
          omega
        · exact ih h q hq

theorem validatePartitions_ok {partitions : List PartitionLayout}
    {diskSectors : Nat}
    (h : validatePartitions partitions diskSectors = .ok ()) :
    (partitions.Pairwise fun p q => Apart p.sectors q.sectors) ∧
      ∀ p ∈ partitions, 0 < p.sectorCount ∧ p.sectors.stop ≤ diskSectors := by
  unfold validatePartitions at h
  split at h
  next => cases h
  next hoverlaps =>
    have hbounds := checkBounds_ok h
    have hperm := List.perm_insertionSort StartLe partitions
    refine ⟨?_, hbounds⟩
    have hsorted := checkOverlaps_ok hoverlaps
      (fun p hp => (hbounds p (hperm.mem_iff.mp hp)).1)
    exact (hperm.pairwise_iff fun hapart => hapart.symm).mp
      (hsorted.imp fun hle => .inl hle)

/-- Partitions on the disk that do not meet, each with room for its
payload. -/
structure DiskLayout.Valid (metadata : Path → Option Nat)
    (layout : DiskLayout) : Prop where
  apart : layout.partitions.Pairwise fun p q => Apart p.sectors q.sectors
  inside : ∀ p ∈ layout.partitions,
    0 < p.sectorCount ∧ p.sectors.stop ≤ layout.diskSize / sectorSize
  placed : ∀ p ∈ layout.partitions, Placed metadata p
  slots : Slots 0 layout.partitions
  disk : sectorSize ≤ layout.diskSize

/-- A layout that is built is valid. -/
theorem DiskLayout.fromParts_valid {metadata : Path → Option Nat}
    {output : Path} {diskSize : Nat} {boot : BootstrapCode}
    {signature : BitVec 32} {align : Nat} {specs : List PartitionSpec}
    {layout : DiskLayout}
    (h : fromParts metadata output diskSize boot signature align specs
      = .ok layout) :
    layout.Valid metadata ∧ layout.diskSize = diskSize ∧
      layout.partitions.map PartitionLayout.file =
        specs.map PartitionSpec.file := by
  unfold fromParts at h
  split at h
  next => cases h
  next =>
    split at h
    next => cases h
    next hdisk =>
      split at h
      next => cases h
      next =>
        split at h
        next => cases h
        next =>
          split at h
          next => cases h
          next partitions hplace =>
            split at h
            next => cases h
            next hvalid =>
              cases h
              obtain ⟨hfiles, hslots, hplaced⟩ := placePartitions_spec hplace
              obtain ⟨hapart, hinside⟩ := validatePartitions_ok hvalid
              exact ⟨⟨hapart, hinside, hplaced, hslots,
                Nat.le_of_not_lt hdisk⟩, rfl, hfiles⟩

-- ======== the record

theorem PartitionEntry.fromBytes_toBytes (e : PartitionEntry) :
    PartitionEntry.fromBytes e.toBytes = e := by
  have hlba : slice e.toBytes 8 4 = leBytes32 e.startingLba := rfl
  have hsectors : slice e.toBytes 12 4 = leBytes32 e.sectors := rfl
  unfold PartitionEntry.fromBytes
  rw [hlba, hsectors, ofLeBytes32_leBytes32, ofLeBytes32_leBytes32]
  rfl

theorem slice_table (entries : Fin 4 → PartitionEntry) (i : Fin 4)
    (rest : List Byte) :
    slice (((List.finRange 4).flatMap fun i => (entries i).toBytes) ++ rest)
      (i.val * 16) 16 = (entries i).toBytes := by
  fin_cases i <;> rfl

theorem MbrHeader.length_toSector (h : MbrHeader) : h.toSector.length = 512 := by
  unfold MbrHeader.toSector
  rw [List.length_append, h.bootstrapCode.property]
  rfl

theorem MbrHeader.slice_toSector (h : MbrHeader) (off n : Nat) :
    slice h.toSector (440 + off) n = slice (leBytes32 h.diskSignature
      ++ ([h.reserved.1, h.reserved.2]
        ++ (((List.finRange 4).flatMap fun i => (h.partitions i).toBytes)
          ++ leBytes16 h.signature))) off n := by
  have happend := slice_append_right h.bootstrapCode.val (leBytes32 h.diskSignature
    ++ ([h.reserved.1, h.reserved.2]
      ++ (((List.finRange 4).flatMap fun i => (h.partitions i).toBytes)
        ++ leBytes16 h.signature))) off n
  rw [h.bootstrapCode.property] at happend
  exact happend

theorem MbrHeader.slice_entry (h : MbrHeader) (i : Fin 4) :
    slice h.toSector (446 + i.val * 16) 16 = (h.partitions i).toBytes := by
  rw [show 446 + i.val * 16 = 440 + (4 + (2 + i.val * 16)) by omega,
    h.slice_toSector]
  have hsig := slice_append_right (leBytes32 h.diskSignature)
    ([h.reserved.1, h.reserved.2]
      ++ (((List.finRange 4).flatMap fun i => (h.partitions i).toBytes)
        ++ leBytes16 h.signature)) (2 + i.val * 16) 16
  have hres := slice_append_right [h.reserved.1, h.reserved.2]
    (((List.finRange 4).flatMap fun i => (h.partitions i).toBytes)
      ++ leBytes16 h.signature) (i.val * 16) 16
  rw [length_leBytes32] at hsig
  rw [hsig]
  exact hres.trans (slice_table h.partitions i _)

theorem MbrHeader.fromSector_toSector (h : MbrHeader) {data : List Byte}
    (hlen : sectorSize ≤ data.length) (hdata : slice data 0 512 = h.toSector) :
    ∃ h', MbrHeader.fromSector data = .ok h' ∧
      h'.partitions = h.partitions ∧ h'.signature = h.signature := by
  unfold MbrHeader.fromSector
  rw [dif_neg (Nat.not_lt.mpr hlen)]
  refine ⟨_, rfl, ?_, ?_⟩
  · funext i
    have hentry : slice (slice data 0 512) (446 + i.val * 16) 16
        = slice data (0 + (446 + i.val * 16)) 16 := slice_slice (by omega)
    rw [hdata, h.slice_entry, Nat.zero_add] at hentry
    show PartitionEntry.fromBytes (slice data (446 + i.val * 16) 16) = _
    rw [← hentry, PartitionEntry.fromBytes_toBytes]
  · have hend : slice (slice data 0 512) 510 2 = slice data (0 + 510) 2 :=
      slice_slice (by omega)
    rw [hdata, Nat.zero_add] at hend
    rw [← hend, show 510 = 440 + 70 from rfl, h.slice_toSector]
    have hlast : slice (leBytes32 h.diskSignature
      ++ ([h.reserved.1, h.reserved.2]
        ++ (((List.finRange 4).flatMap fun i => (h.partitions i).toBytes)
          ++ leBytes16 h.signature))) 70 2 = leBytes16 h.signature := rfl
    rw [hlast, ofLeBytes16_leBytes16]

theorem PartitionEntry.fromLayout_ok {p : PartitionLayout}
    {e : PartitionEntry} (h : PartitionEntry.fromLayout p = .ok e) :
    e.startingLba.toNat = p.startLba ∧ e.sectors.toNat = p.sectorCount ∧
      (e.bootIndicator = 0x00#8 ∨ e.bootIndicator = 0x80#8) := by
  unfold PartitionEntry.fromLayout at h
  split at h
  next => cases h
  next hstart =>
    split at h
    next => cases h
    next hcount =>
      cases h
      unfold u32Limit at hstart hcount
      refine ⟨?_, ?_, ?_⟩
      · rw [BitVec.toNat_ofNat]
        omega
      · rw [BitVec.toNat_ofNat]
        omega
      · cases p.bootable
        · exact .inl rfl
        · exact .inr rfl

/-- Every entry comes to its slot, and the other slots stay as they were. -/
theorem setPartitions_ok {h h' : MbrHeader} {ps : List PartitionLayout}
    {k : Nat} (hslots : Slots k ps) (hok : setPartitions h ps = .ok h') :
    h'.signature = h.signature ∧
      (∀ i : Fin 4, i.val < k ∨ k + ps.length ≤ i.val →
        h'.partitions i = h.partitions i) ∧
      ∀ j p, ps[j]? = some p → ∃ hj : k + j < 4,
        PartitionEntry.fromLayout p = .ok (h'.partitions ⟨k + j, hj⟩) := by
  induction ps generalizing h k with
  | nil =>
    cases hok
    exact ⟨rfl, fun _ _ => rfl, nofun⟩
  | cons p ps ih =>
    have hslot : p.slot = k + 1 := hslots 0 p rfl
    unfold setPartitions at hok
    split at hok
    next => cases hok
    next h₁ hset =>
      rw [hslot, Nat.add_sub_cancel] at hset
      unfold MbrHeader.setPartition at hset
      split at hset
      next hk =>
        split at hset
        next => cases hset
        next entry hentry =>
          cases hset
          obtain ⟨hsig, hother, hmine⟩ := ih hslots.tail hok
          refine ⟨hsig, fun i hi => ?_, fun j q hq => ?_⟩
          · rw [List.length_cons] at hi
            rw [hother i (by omega)]
            apply Function.update_of_ne
            intro heq
            have hval := congrArg Fin.val heq
            dsimp only at hval
            omega
          · cases j with
            | zero =>
              cases hq
              refine ⟨hk, ?_⟩
              rw [hother ⟨k + 0, hk⟩ (.inl (Nat.lt_succ_self k)), hentry]
              show Except.ok entry = Except.ok
                (Function.update h.partitions ⟨k, hk⟩ entry ⟨k, hk⟩)
              rw [Function.update_self]
            | succ j =>
              obtain ⟨hj, hfrom⟩ := hmine j q hq
              refine ⟨by omega, hfrom.trans ?_⟩
              congr 3
              omega
      next => cases hset

theorem setPartitions_new {layout : DiskLayout} {h' : MbrHeader}
    (hslots : Slots 0 layout.partitions)
    (hok : setPartitions { MbrHeader.new layout.bootstrapCode
      layout.diskSignature with reserved := layout.reserved }
        layout.partitions = .ok h') :
    h'.hasValidSignature = true ∧
      ∀ i : Fin 4, (∃ p, layout.partitions[i.val]? = some p ∧
          PartitionEntry.fromLayout p = .ok (h'.partitions i)) ∨
        (layout.partitions.length ≤ i.val ∧ h'.partitions i = .default) := by
  obtain ⟨hsig, hother, hmine⟩ := setPartitions_ok hslots hok
  refine ⟨?_, fun i => ?_⟩
  · unfold MbrHeader.hasValidSignature
    rw [hsig]
    rfl
  · cases hp : layout.partitions[i.val]? with
    | some p =>
      obtain ⟨hi, hfrom⟩ := hmine i.val p hp
      refine .inl ⟨p, rfl, hfrom.trans ?_⟩
      congr 3
      omega
    | none =>
      have hlen := List.getElem?_eq_none_iff.mp hp
      exact .inr ⟨hlen, hother i (.inr (by omega))⟩

-- ======== the payloads

/-- The padding is written in chunks, and is zero to its end. -/
theorem OutFile.writePadding_eq (turns remaining : Nat) (f : OutFile)
    (hturns : remaining ≤ turns) (hfit : f.pos + remaining ≤ f.data.length) :
    (writePadding turns remaining f).data =
      overwrite 0#8 f.data f.pos (List.replicate remaining 0#8) := by
  induction turns generalizing remaining f with
  | zero =>
    obtain rfl : remaining = 0 := Nat.le_zero.mp hturns
    rw [List.replicate_zero, overwrite_eq (by omega)]
    exact (List.take_append_drop f.pos f.data).symm
  | succ turns ih =>
    unfold writePadding
    split
    next hzero =>
      subst hzero
      rw [List.replicate_zero, overwrite_eq (by omega)]
      exact (List.take_append_drop f.pos f.data).symm
    next hpos =>
      have hlen : (List.replicate (min remaining 4096) 0#8).length
          = min remaining 4096 := List.length_replicate
      have hkeep : (f.writeAll (List.replicate (min remaining 4096)
          0#8)).data.length = f.data.length :=
        length_overwrite (by rw [hlen]; omega)
      rw [ih _ _ (by omega) (by
        rw [hkeep]
        unfold writeAll
        dsimp only
        rw [hlen]
        omega)]
      unfold writeAll
      rw [overwrite_append (by
        rw [List.length_replicate, List.length_replicate]
        omega), List.replicate_append_replicate]
      congr 2
      omega

theorem OutFile.copyExactWithPadding_ok {f f' : OutFile} {input : List Byte}
    {n : Nat} (h : f.copyExactWithPadding input n = .ok f')
    (hfit : f.pos + n ≤ f.data.length) :
    input.length ≤ n ∧ f'.data = overwrite 0#8 f.data f.pos
      (input ++ List.replicate (n - input.length) 0#8) := by
  unfold OutFile.copyExactWithPadding at h
  split at h
  next => cases h
  next hle =>
    have hle := Nat.le_of_not_lt hle
    cases h
    refine ⟨hle, ?_⟩
    have hkeep : (f.writeAll input).data.length = f.data.length :=
      length_overwrite (by omega)
    rw [OutFile.writePadding_eq _ _ _ le_rfl (by
      rw [hkeep]
      unfold OutFile.writeAll
      dsimp only
      omega)]
    unfold OutFile.writeAll
    rw [overwrite_append (by rw [List.length_replicate]; omega)]

def PartitionLayout.bytes (p : PartitionLayout) : Extent :=
  ⟨p.startOffset, p.byteLen⟩

theorem PartitionLayout.bytes_apart {p q : PartitionLayout}
    (h : Apart p.sectors q.sectors) : Apart p.bytes q.bytes := by
  unfold Apart stop PartitionLayout.sectors PartitionLayout.bytes
    PartitionLayout.startOffset PartitionLayout.byteLen sectorSize at *
  dsimp only at *
  omega

/-- The partition's file lies in its extent, filled up with zeros. -/
def Holds (files : Path → Option (List Byte)) (data : List Byte)
    (p : PartitionLayout) : Prop :=
  ∃ payload, files p.file = some payload ∧ payload.length ≤ p.byteLen ∧
    slice data p.startOffset p.byteLen =
      payload ++ List.replicate (p.byteLen - payload.length) 0#8

/-- Payloads of disjoint partitions do not write over one another. -/
theorem copyPayloads_ok {files : Path → Option (List Byte)}
    {ps : List PartitionLayout} {f f' : OutFile}
    (h : copyPayloads files f ps = .ok f')
    (hapart : ps.Pairwise fun p q => Apart p.sectors q.sectors)
    (hfit : ∀ p ∈ ps, p.bytes.stop ≤ f.data.length) :
    f'.data.length = f.data.length ∧ (∀ p ∈ ps, Holds files f'.data p) ∧
      ∀ off n, (∀ p ∈ ps, Apart ⟨off, n⟩ p.bytes) →
        slice f'.data off n = slice f.data off n := by
  induction ps generalizing f with
  | nil =>
    cases h
    exact ⟨rfl, nofun, fun _ _ _ => rfl⟩
  | cons p ps ih =>
    unfold copyPayloads at h
    split at h
    next => cases h
    next input hfile =>
      split at h
      next => cases h
      next f₁ hcopy =>
        obtain ⟨hfirst, hrest⟩ := List.pairwise_cons.mp hapart
        have hroom : p.startOffset + p.byteLen ≤ f.data.length :=
          hfit p List.mem_cons_self
        obtain ⟨hle, hdata⟩ := OutFile.copyExactWithPadding_ok hcopy hroom
        have hlen : (input ++ List.replicate (p.byteLen - input.length)
            0#8).length = p.byteLen := by
          rw [List.length_append, List.length_replicate]
          omega
        have hwrite : f₁.data = overwrite 0#8 f.data p.startOffset
          (input ++ List.replicate (p.byteLen - input.length) 0#8) := hdata
        have hkeep : f₁.data.length = f.data.length := by
          rw [hwrite]
          exact length_overwrite (by rw [hlen]; exact hroom)
        obtain ⟨hlength, hholds, hsame⟩ := ih h hrest (fun q hq => by
          rw [hkeep]
          exact hfit q (List.mem_cons_of_mem _ hq))
        refine ⟨hlength.trans hkeep, fun q hq => ?_, fun off n hoff => ?_⟩
        · rcases List.mem_cons.mp hq with rfl | hq
          · refine ⟨input, hfile, hle, ?_⟩
            rw [hsame _ _ fun r hr => PartitionLayout.bytes_apart
              (hfirst r hr), hwrite]
            have hself : slice (overwrite 0#8 f.data q.startOffset
                (input ++ List.replicate (q.byteLen - input.length) 0#8))
                  q.startOffset _ = _ :=
              slice_overwrite_self (by rw [hlen]; exact hroom)
            rw [hlen] at hself
            exact hself
          · exact hholds q hq
        · rw [hsame off n fun r hr => hoff r (List.mem_cons_of_mem _ hr),
            hwrite]
          apply slice_overwrite_apart
          · rw [hlen]
            exact hroom
          · rw [hlen]
            exact hoff p List.mem_cons_self

-- ======== the image

/-- What a packed image is: its record lists the partitions, and each
holds its payload. -/
structure Packed (files : Path → Option (List Byte)) (layout : DiskLayout)
    (image : List Byte) (header : MbrHeader) : Prop where
  length : image.length = layout.diskSize
  record : slice image 0 512 = header.toSector
  signature : header.hasValidSignature = true
  entries : ∀ i : Fin 4, (∃ p, layout.partitions[i.val]? = some p ∧
      PartitionEntry.fromLayout p = .ok (header.partitions i)) ∨
    (layout.partitions.length ≤ i.val ∧ header.partitions i = .default)
  slots : ∀ (j : Nat) (p : PartitionLayout), layout.partitions[j]? = some p →
    p.slot = j + 1 ∧ j < 4
  holds : ∀ p ∈ layout.partitions, Holds files image p

theorem DiskLayout.Valid.stop_le {metadata : Path → Option Nat}
    {layout : DiskLayout} (h : layout.Valid metadata) {p : PartitionLayout}
    (hp : p ∈ layout.partitions) : p.bytes.stop ≤ layout.diskSize := by
  have hstop := (h.inside p hp).2
  unfold PartitionLayout.bytes PartitionLayout.sectors stop
    PartitionLayout.startOffset PartitionLayout.byteLen sectorSize at *
  dsimp only at *
  omega

/-- The packed image holds the header and every payload at its place. -/
theorem pack_packed {metadata : Path → Option Nat}
    {files : Path → Option (List Byte)} {outputExists force : Bool}
    {layout : DiskLayout} {image : List Byte} (hvalid : layout.Valid metadata)
    (h : pack files outputExists force layout = .ok image) :
    ∃ header, Packed files layout image header := by
  unfold pack at h
  split at h
  next => cases h
  next =>
    dsimp only at h
    split at h
    next => cases h
    next header hset =>
      split at h
      next => cases h
      next f hcopy =>
        cases h
        obtain ⟨hsig, hentries⟩ := setPartitions_new hvalid.slots hset
        obtain ⟨-, -, hmine⟩ := setPartitions_ok hvalid.slots hset
        have hdisk := hvalid.disk
        have hlen : (List.replicate layout.diskSize 0#8).length
            = layout.diskSize := List.length_replicate
        have hsector : 0 + header.toSector.length
            ≤ (List.replicate layout.diskSize 0#8).length := by
          rw [header.length_toSector, hlen]
          unfold sectorSize at hdisk
          omega
        have hstart : (((⟨List.replicate layout.diskSize 0#8, 0⟩ : OutFile).seek
            0).writeAll header.toSector).data.length = layout.diskSize :=
          (length_overwrite hsector).trans hlen
        obtain ⟨hlength, hholds, hsame⟩ := copyPayloads_ok hcopy hvalid.apart
          (fun p hp => by rw [hstart]; exact hvalid.stop_le hp)
        refine ⟨header, hlength.trans hstart, ?_, hsig, hentries,
          fun j p hj => ?_, hholds⟩
        · rw [hsame 0 512 fun p hp => .inl ?_]
          · have hself : slice (overwrite 0#8 _ 0 header.toSector) 0 _ = _ :=
              slice_overwrite_self hsector
            rw [header.length_toSector] at hself
            exact hself
          · have hone := (hvalid.placed p hp).start
            unfold stop PartitionLayout.bytes PartitionLayout.startOffset
              sectorSize
            dsimp only
            omega
        · obtain ⟨hj4, -⟩ := hmine j p hj
          have hslot := hvalid.slots j p hj
          omega

variable {files : Path → Option (List Byte)} {layout : DiskLayout}
  {image : List Byte} {header : MbrHeader}

theorem Packed.inspect (h : Packed files layout image header)
    (hdisk : sectorSize ≤ layout.diskSize) :
    ∃ report, inspectDisk image = .ok report ∧
      report.diskSize = layout.diskSize ∧ report.mbrSignatureValid = true ∧
      report.mbr.partitions = header.partitions ∧
      report.partitions = buildPartitionReports header := by
  obtain ⟨h', hfrom, hparts, hsig⟩ := header.fromSector_toSector
    (by rw [h.length]; exact hdisk) h.record
  unfold inspectDisk
  rw [hfrom]
  refine ⟨_, rfl, h.length, ?_, hparts, ?_⟩
  · have hvalid := h.signature
    unfold MbrHeader.hasValidSignature at *
    rw [hsig]
    exact hvalid
  · unfold buildPartitionReports
    rw [hparts]

theorem find_report (mbr : MbrHeader) (i : Fin 4) :
    (buildPartitionReports mbr).find? (fun p => p.slot = i.val + 1) =
      some ((mbr.partitions i).report i.val) := by
  fin_cases i <;> rfl

theorem report_fromLayout {p : PartitionLayout} {e : PartitionEntry} {i : Nat}
    (h : PartitionEntry.fromLayout p = .ok e) (hstart : 1 ≤ p.startLba)
    (hcount : 0 < p.sectorCount) :
    (e.report i).used = true ∧ (e.report i).startLba = p.startLba ∧
      (e.report i).endLba = some p.endLba ∧
      (e.report i).startOffset = p.startOffset ∧
      (e.report i).byteLen = p.byteLen := by
  obtain ⟨hlba, hsectors, -⟩ := PartitionEntry.fromLayout_ok h
  have hne : e.startingLba ≠ 0#32 := by
    intro hzero
    rw [hzero] at hlba
    exact absurd hlba (by rw [BitVec.toNat_ofNat]; omega)
  have hne' : e.sectors ≠ 0#32 := by
    intro hzero
    rw [hzero] at hsectors
    exact absurd hsectors (by rw [BitVec.toNat_ofNat]; omega)
  unfold PartitionEntry.report PartitionEntry.isEmpty PartitionEntry.endLba
    PartitionLayout.startOffset PartitionLayout.byteLen PartitionLayout.endLba
  rw [if_neg hne', hlba, hsectors]
  exact ⟨by simp [hne], rfl, rfl, rfl, rfl⟩

/-- A partition that is extracted is the file that was packed. -/
theorem Packed.extract {metadata : Path → Option Nat}
    (h : Packed files layout image header) (hvalid : layout.Valid metadata)
    {p : PartitionLayout} (hp : p ∈ layout.partitions)
    {outputExists force : Bool} {output : Path}
    (hforce : outputExists = true → force = true) :
    ∃ payload, files p.file = some payload ∧ payload.length ≤ p.byteLen ∧
      Mbrkit.extract image p.slot outputExists force output =
        .ok (payload ++ List.replicate (p.byteLen - payload.length) 0#8) := by
  obtain ⟨j, hj⟩ := List.mem_iff_getElem?.mp hp
  obtain ⟨hslot, hj4⟩ := h.slots j p hj
  obtain ⟨payload, hfile, hle, hslice⟩ := h.holds p hp
  obtain ⟨report, hinspect, -, -, -, hreports⟩ := h.inspect hvalid.disk
  obtain ⟨q, hq, hfrom⟩ : ∃ q, layout.partitions[j]? = some q ∧
      PartitionEntry.fromLayout q = .ok (header.partitions ⟨j, hj4⟩) := by
    rcases h.entries ⟨j, hj4⟩ with hentry | ⟨hlen, -⟩
    · exact hentry
    · rw [List.getElem?_eq_none hlen] at hj
      cases hj
  obtain rfl : q = p := Option.some.inj (hq.symm.trans hj)
  obtain ⟨hused, -, -, hoffset, hbytes⟩ := report_fromLayout (i := j) hfrom
    (hvalid.placed q hp).start (hvalid.inside q hp).1
  have hfind := find_report header ⟨j, hj4⟩
  refine ⟨payload, hfile, hle, ?_⟩
  unfold Mbrkit.extract
  have hwrite : ¬ (outputExists = true ∧ force = false) := by
    intro hno
    rw [hforce hno.1] at hno
    exact absurd hno.2 (by decide)
  rw [if_neg (by omega), if_neg hwrite, hinspect]
  dsimp only
  rw [hreports, hslot, hfind]
  dsimp only
  rw [if_neg (by rw [hused]; decide), hoffset, hbytes, if_neg, hslice]
  rw [h.length]
  exact Nat.not_lt.mpr (hvalid.stop_le hp)

/-- Two ranges of sectors, the one in front of the other. -/
structure Clear (p q : PartitionReport) : Prop where
  left : p.startLba ≤ p.endLba.getD 0
  right : q.startLba ≤ q.endLba.getD 0
  apart : p.endLba.getD 0 < q.startLba ∨ q.endLba.getD 0 < p.startLba

theorem Clear.symm {p q : PartitionReport} (h : Clear p q) : Clear q p :=
  ⟨h.right, h.left, Or.symm h.apart⟩

theorem checkWindows_nil {l : List PartitionReport} (h : l.Pairwise Clear) :
    checkWindows l = [] := by
  induction l with
  | nil => rfl
  | cons left l ih =>
    cases l with
    | nil => rfl
    | cons right rest =>
      obtain ⟨hleft, hrest⟩ := List.pairwise_cons.mp h
      have hclear := hleft right List.mem_cons_self
      have hapart := hclear.apart
      have hright := hclear.right
      unfold checkWindows
      rw [if_neg (by omega), ih hrest, List.nil_append]

theorem DiskLayout.Valid.apart_of_ne {metadata : Path → Option Nat}
    (h : layout.Valid metadata) {i j : Nat} {p q : PartitionLayout}
    (hp : layout.partitions[i]? = some p) (hq : layout.partitions[j]? = some q)
    (hne : i ≠ j) : Apart p.sectors q.sectors := by
  obtain ⟨hi, rfl⟩ := List.getElem?_eq_some_iff.mp hp
  obtain ⟨hj, rfl⟩ := List.getElem?_eq_some_iff.mp hq
  have hpairs := List.pairwise_iff_getElem.mp h.apart
  rcases Nat.lt_or_gt_of_ne hne with hlt | hgt
  · exact hpairs i j hi hj hlt
  · exact (hpairs j i hj hi hgt).symm

theorem Packed.used (h : Packed files layout image header) {i : Fin 4}
    (hused : ((header.partitions i).report i.val).used = true) :
    ∃ p, layout.partitions[i.val]? = some p ∧
      PartitionEntry.fromLayout p = .ok (header.partitions i) := by
  rcases h.entries i with hentry | ⟨-, hdefault⟩
  · exact hentry
  · rw [hdefault] at hused
    cases hused

/-- The reports of what was packed keep clear of each other. -/
theorem Packed.clear {metadata : Path → Option Nat}
    (h : Packed files layout image header) (hvalid : layout.Valid metadata) :
    (((buildPartitionReports header).filter
      PartitionReport.used).insertionSort ReportLe).Pairwise Clear := by
  have hperm := List.perm_insertionSort ReportLe
    ((buildPartitionReports header).filter PartitionReport.used)
  refine (hperm.pairwise_iff fun hclear => hclear.symm).mpr ?_
  unfold buildPartitionReports
  rw [List.pairwise_filter, List.pairwise_map]
  refine (List.nodup_finRange 4).imp fun {i j} hne hi hj => ?_
  obtain ⟨p, hp, hpfrom⟩ := h.used hi
  obtain ⟨q, hq, hqfrom⟩ := h.used hj
  have hpmem := List.mem_of_getElem? hp
  have hqmem := List.mem_of_getElem? hq
  have hpcount := (hvalid.inside p hpmem).1
  have hqcount := (hvalid.inside q hqmem).1
  obtain ⟨-, hpstart, hpend, -, -⟩ := report_fromLayout (i := i.val) hpfrom
    (hvalid.placed p hpmem).start hpcount
  obtain ⟨-, hqstart, hqend, -, -⟩ := report_fromLayout (i := j.val) hqfrom
    (hvalid.placed q hqmem).start hqcount
  have hapart := hvalid.apart_of_ne hp hq fun heq => hne (Fin.ext heq)
  have hpapart : p.endLba < q.startLba ∨ q.endLba < p.startLba := by
    unfold Apart stop PartitionLayout.sectors PartitionLayout.endLba at *
    dsimp only at *
    omega
  constructor
  · rw [hpstart, hpend]
    show p.startLba ≤ p.endLba
    unfold PartitionLayout.endLba
    omega
  · rw [hqstart, hqend]
    show q.startLba ≤ q.endLba
    unfold PartitionLayout.endLba
    omega
  · rw [hpstart, hpend, hqstart, hqend]
    exact hpapart

/-- A packed image passes the verification. -/
theorem Packed.verify {metadata : Path → Option Nat}
    (h : Packed files layout image header) (hvalid : layout.Valid metadata) :
    verifyDisk image false = .ok true := by
  obtain ⟨report, hinspect, hsize, hsig, hmbr, hreports⟩ :=
    h.inspect hvalid.disk
  unfold verifyDisk
  rw [hinspect]
  dsimp only
  congr 1
  refine List.all_eq_true.mpr fun d hd => ?_
  have hlevel : d.level ≠ .error := by
    unfold verifyDiagnostics at hd
    dsimp only at hd
    rw [hsig, hreports, checkWindows_nil (h.clear hvalid)] at hd
    simp only [Bool.true_eq_false, if_false, List.nil_append, List.append_nil,
      Bool.false_eq_true, false_and, List.mem_flatMap] at hd
    obtain ⟨q, hq, hd⟩ := hd
    have hmem := (List.perm_insertionSort ReportLe _).mem_iff.mp hq
    obtain ⟨hmem, hused⟩ := List.mem_filter.mp hmem
    obtain ⟨i, -, rfl⟩ := List.mem_map.mp hmem
    obtain ⟨p, hp, hfrom⟩ := h.used hused
    have hpmem := List.mem_of_getElem? hp
    obtain ⟨-, -, -, hoffset, hbytes⟩ := report_fromLayout (i := i.val) hfrom
      (hvalid.placed p hpmem).start (hvalid.inside p hpmem).1
    have hboot : bootIndicatorOf report.mbr
        ((header.partitions i).report i.val).slot
          = (header.partitions i).bootIndicator := by
      unfold bootIndicatorOf
      rw [dif_pos (show ((header.partitions i).report i.val).slot - 1 < 4 from
        i.isLt), hmbr]
      rfl
    have hflag := (PartitionEntry.fromLayout_ok hfrom).2.2
    have hstop : p.startOffset + p.byteLen ≤ layout.diskSize :=
      hvalid.stop_le hpmem
    unfold checkPartition at hd
    rw [hboot, hsize, hoffset, hbytes, if_neg (by
      rcases hflag with hflag | hflag
      · exact fun hbad => hbad.1 hflag
      · exact fun hbad => hbad.2 hflag), if_neg (Nat.not_lt.mpr hstop)] at hd
    split at hd
    next =>
      obtain rfl := List.mem_singleton.mp hd
      exact DiagnosticLevel.noConfusion
    next => cases hd
  simp [hlevel]

-- ======== from the layout to the disk

/-- A layout that `from_parts` accepts, and the image that `pack` makes of
it. -/
theorem layout_to_disk {metadata : Path → Option Nat} {output : Path}
    {diskSize : Nat} {boot : BootstrapCode} {signature : BitVec 32}
    {align : Nat} {specs : List PartitionSpec} {layout : DiskLayout}
    (h : DiskLayout.fromParts metadata output diskSize boot signature align
      specs = .ok layout) :
    layout.partitions.map PartitionLayout.file = specs.map PartitionSpec.file ∧
      (layout.partitions.Pairwise fun p q => Apart p.sectors q.sectors) ∧
      (∀ p ∈ layout.partitions, 0 < p.sectorCount ∧ 1 ≤ p.startLba ∧
        p.startLba + p.sectorCount ≤ diskSize / sectorSize ∧
        ∃ size, metadata p.file = some size ∧ size ≤ p.byteLen) ∧
      ∀ (files : Path → Option (List Byte)) (outputExists force : Bool)
        (image : List Byte), pack files outputExists force layout = .ok image →
        (∀ p ∈ layout.partitions, ∃ payload, files p.file = some payload ∧
          payload.length ≤ p.byteLen ∧
          ∀ (targetExists overwrite : Bool) (target : Path),
            (targetExists = true → overwrite = true) →
            extract image p.slot targetExists overwrite target = .ok
              (payload ++ List.replicate (p.byteLen - payload.length) 0#8)) ∧
        verifyDisk image false = .ok true := by
  obtain ⟨hvalid, rfl, hfiles⟩ := DiskLayout.fromParts_valid h
  refine ⟨hfiles, hvalid.apart, fun p hp => ?_, ?_⟩
  · have hplaced := hvalid.placed p hp
    obtain ⟨hcount, hstop⟩ := hvalid.inside p hp
    exact ⟨hcount, hplaced.start, hstop, p.fileSize, hplaced.size, hplaced.room⟩
  · intro files outputExists force image hpack
    obtain ⟨header, hpacked⟩ := pack_packed hvalid hpack
    refine ⟨fun p hp => ?_, hpacked.verify hvalid⟩
    obtain ⟨payload, hfile, hle, -⟩ := hpacked.holds p hp
    refine ⟨payload, hfile, hle, fun targetExists overwrite target hok => ?_⟩
    obtain ⟨payload', hfile', -, hextract⟩ :=
      hpacked.extract hvalid hp hok
    obtain rfl : payload = payload' :=
      Option.some.inj (hfile.symm.trans hfile')
    exact hextract

def blankCode : BootstrapCode := ⟨List.replicate 440 0#8, List.length_replicate⟩

def twoSpecs : List PartitionSpec :=
  [⟨"root.img", 0x81#8, true, some 5, none⟩,
    ⟨"swap.img", 0x82#8, false, some 1, some 1024⟩]

def twoFiles (_ : Path) : Option (List Byte) := some [1#8, 2#8, 3#8]

/-- Two small files on a disk of eight sectors: the layout is accepted, it
is packed, and the image passes. -/
theorem layout_to_disk_two :
    ∃ layout, DiskLayout.fromParts (fun _ => some 3) "disk.img" 4096 blankCode
        0#32 1 twoSpecs = .ok layout ∧
      (layout.partitions.Pairwise fun p q => Apart p.sectors q.sectors) ∧
      ∃ image, pack twoFiles false false layout = .ok image ∧
        verifyDisk image false = .ok true := by
  obtain ⟨layout, hlayout⟩ : ∃ layout, DiskLayout.fromParts (fun _ => some 3)
      "disk.img" 4096 blankCode 0#32 1 twoSpecs = .ok layout := ⟨_, rfl⟩
  obtain ⟨image, himage⟩ : ∃ image, pack twoFiles false false layout
      = .ok image := by
    cases hlayout
    exact ⟨_, rfl⟩
  obtain ⟨-, hapart, -, hpack⟩ := layout_to_disk hlayout
  exact ⟨layout, hlayout, hapart, image, himage,
    (hpack twoFiles false false image himage).2⟩

end LinuxRs.Mbrkit
