/-
The boot record as a code: decoding undoes encoding and encoding undoes
decoding, and the kernel's own reading of an entry
(kernel/src/driver/block/hd/mod.rs) finds in a packed image what the layout
asked for.

The kernel reads four bytes for the start and four for the length at offsets
of its own; both are offsets into the sector that mbrkit writes.
-/
import LinuxRs.Mbrkit.Disk

namespace LinuxRs.Driver

open LinuxRs.Lib

structure DrivePartition where
  startSector : BitVec 32
  sectorCount : BitVec 32

def DrivePartition.fromMbrEntry (sector : List (BitVec 8)) (index : Nat) :
    Option DrivePartition :=
  let off := 0x1BE + index * 16
  let startSector := ofLeBytes32 (slice sector (off + 8) 4)
  let sectorCount := ofLeBytes32 (slice sector (off + 12) 4)
  if sectorCount ≠ 0#32 then some ⟨startSector, sectorCount⟩ else none

end LinuxRs.Driver

namespace LinuxRs.Mbrkit

open LinuxRs.Lib
open LinuxRs.Driver

-- ======== bytes

theorem slice_add {A : Type} (l : List A) (off m n : Nat) :
    slice l off m ++ slice l (off + m) n = slice l off (m + n) := by
  unfold slice
  rw [← List.drop_drop, ← List.take_add]

theorem extract_low {n : Nat} (x : BitVec n) (y : Byte) :
    (x ++ y).extractLsb' 0 8 = y := by
  rw [BitVec.extractLsb'_append_eq_of_add_le (Nat.le_refl 8),
    BitVec.extractLsb'_eq_self]

theorem extract_high {n : Nat} (x : BitVec n) (y : Byte) (k len : Nat) :
    (x ++ y).extractLsb' (8 + k) len = x.extractLsb' k len := by
  rw [BitVec.extractLsb'_append_eq_of_le (Nat.le_add_right 8 k),
    Nat.add_sub_cancel_left]

theorem leBytes32_ofLeBytes32 {l : List Byte} (h : l.length = 4) :
    leBytes32 (ofLeBytes32 l) = l := by
  match l, h with
  | [a, b, c, d], _ =>
    have hb : (d ++ c ++ b ++ a).extractLsb' (8 + 0) 8 = b := by
      rw [extract_high, extract_low]
    have hc : (d ++ c ++ b ++ a).extractLsb' (8 + (8 + 0)) 8 = c := by
      rw [extract_high, extract_high, extract_low]
    have hd : (d ++ c ++ b ++ a).extractLsb' (8 + (8 + (8 + 0))) 8 = d := by
      rw [extract_high, extract_high, extract_high, BitVec.extractLsb'_eq_self]
    show [(d ++ c ++ b ++ a).extractLsb' 0 8,
      (d ++ c ++ b ++ a).extractLsb' (8 + 0) 8,
      (d ++ c ++ b ++ a).extractLsb' (8 + (8 + 0)) 8,
      (d ++ c ++ b ++ a).extractLsb' (8 + (8 + (8 + 0))) 8] = [a, b, c, d]
    rw [extract_low, hb, hc, hd]

theorem leBytes16_ofLeBytes16 {l : List Byte} (h : l.length = 2) :
    leBytes16 (ofLeBytes16 l) = l := by
  match l, h with
  | [a, b], _ =>
    have hb : (b ++ a).extractLsb' (8 + 0) 8 = b := by
      rw [extract_high, BitVec.extractLsb'_eq_self]
    show [(b ++ a).extractLsb' 0 8, (b ++ a).extractLsb' (8 + 0) 8] = [a, b]
    rw [extract_low, hb]

-- ======== entries

theorem PartitionEntry.toBytes_fromBytes {l : List Byte} (h : l.length = 16) :
    (PartitionEntry.fromBytes l).toBytes = l := by
  match l, h with
  | [a0, a1, a2, a3, a4, a5, a6, a7, a8, a9, a10, a11, a12, a13, a14, a15], _ =>
    have hlba : leBytes32 (ofLeBytes32 [a8, a9, a10, a11]) = [a8, a9, a10, a11] :=
      leBytes32_ofLeBytes32 rfl
    have hsectors : leBytes32 (ofLeBytes32 [a12, a13, a14, a15])
        = [a12, a13, a14, a15] := leBytes32_ofLeBytes32 rfl
    show [a0, a1, a2, a3, a4, a5, a6, a7]
      ++ leBytes32 (ofLeBytes32 [a8, a9, a10, a11])
      ++ leBytes32 (ofLeBytes32 [a12, a13, a14, a15]) = _
    rw [hlba, hsectors]
    rfl

theorem flatMap_entries {sector : List Byte} (h : sector.length = 512) :
    ((List.finRange 4).flatMap fun i : Fin 4 =>
      (PartitionEntry.fromBytes (slice sector (446 + i.val * 16) 16)).toBytes)
      = slice sector 446 64 := by
  have hentry : ∀ k < 4,
      (PartitionEntry.fromBytes (slice sector (446 + k * 16) 16)).toBytes
        = slice sector (446 + k * 16) 16 := by
    intro k hk
    exact PartitionEntry.toBytes_fromBytes (length_slice (by omega))
  show (PartitionEntry.fromBytes (slice sector (446 + 0 * 16) 16)).toBytes
    ++ ((PartitionEntry.fromBytes (slice sector (446 + 1 * 16) 16)).toBytes
    ++ ((PartitionEntry.fromBytes (slice sector (446 + 2 * 16) 16)).toBytes
    ++ ((PartitionEntry.fromBytes (slice sector (446 + 3 * 16) 16)).toBytes
    ++ []))) = _
  rw [hentry 0 (by omega), hentry 1 (by omega), hentry 2 (by omega),
    hentry 3 (by omega), List.append_nil]
  rw [show 446 + 3 * 16 = (446 + 2 * 16) + 16 from rfl, slice_add,
    show 446 + 2 * 16 = (446 + 1 * 16) + 16 from rfl, slice_add,
    show 446 + 1 * 16 = (446 + 0 * 16) + 16 from rfl, slice_add]

-- ======== sectors

theorem MbrHeader.toSector_fromSector {sector : List Byte} (h : sector.length = 512) :
    ∃ m, MbrHeader.fromSector sector = .ok m ∧ m.toSector = sector := by
  unfold MbrHeader.fromSector
  rw [dif_neg (by unfold sectorSize; omega)]
  refine ⟨_, rfl, ?_⟩
  have hres : [sector.getD 444 0#8, sector.getD 445 0#8] = slice sector 444 2 := by
    unfold slice
    rw [List.getD_eq_getElem?_getD, List.getD_eq_getElem?_getD,
      List.getElem?_eq_getElem (by omega), List.getElem?_eq_getElem (by omega),
      List.drop_eq_getElem_cons (by omega), List.drop_eq_getElem_cons (by omega)]
    rfl
  unfold MbrHeader.toSector
  rw [leBytes32_ofLeBytes32 (length_slice (by omega)), hres, flatMap_entries h,
    leBytes16_ofLeBytes16 (length_slice (by omega))]
  rw [show 510 = 446 + 64 from rfl, slice_add, show 446 = 444 + 2 from rfl,
    slice_add, show 444 = 440 + 4 from rfl, slice_add,
    show slice sector 440 _ = slice sector (0 + 440) _ from rfl, slice_add]
  unfold slice
  rw [List.drop_zero, List.take_of_length_le (by omega)]

/-- A header is read back from the sector it was written to. -/
theorem MbrHeader.fromSector_self (m : MbrHeader) :
    MbrHeader.fromSector m.toSector = .ok m := by
  have hlen := m.length_toSector
  unfold MbrHeader.fromSector
  rw [dif_neg (by rw [hlen]; unfold sectorSize; omega)]
  congr 1
  have hboot : slice m.toSector 0 440 = m.bootstrapCode.val := by
    have := slice_append_left m.bootstrapCode.val (leBytes32 m.diskSignature
      ++ ([m.reserved.1, m.reserved.2]
        ++ (((List.finRange 4).flatMap fun i => (m.partitions i).toBytes)
          ++ leBytes16 m.signature)))
    rw [m.bootstrapCode.property] at this
    exact this
  have hsig : slice m.toSector 440 4 = leBytes32 m.diskSignature :=
    m.slice_toSector 0 4
  have hend : slice m.toSector 510 2 = leBytes16 m.signature :=
    m.slice_toSector 70 2
  have hres : slice m.toSector 444 2 = [m.reserved.1, m.reserved.2] :=
    m.slice_toSector 4 2
  have hget : ∀ k < 2, m.toSector.getD (444 + k) 0#8
      = (slice m.toSector 444 2).getD k 0#8 := by
    intro k hk
    unfold slice
    rw [List.getD_eq_getElem?_getD, List.getD_eq_getElem?_getD,
      List.getElem?_take_of_lt hk, List.getElem?_drop]
  have hentries : (fun i : Fin 4 =>
      PartitionEntry.fromBytes (slice m.toSector (446 + i.val * 16) 16))
        = m.partitions := by
    funext i
    rw [m.slice_entry, PartitionEntry.fromBytes_toBytes]
  cases m with
  | mk boot signature reserved partitions last =>
    rw [MbrHeader.mk.injEq]
    refine ⟨Subtype.ext hboot, ?_, ?_, hentries, ?_⟩
    · rw [hsig, ofLeBytes32_leBytes32]
    · rw [show 444 = 444 + 0 from rfl, hget 0 (by omega),
        show 445 = 444 + 1 from rfl, hget 1 (by omega), hres]
      rfl
    · rw [hend, ofLeBytes16_leBytes16]

-- ======== kernel

theorem fromMbrEntry_toSector (m : MbrHeader) (i : Fin 4) :
    DrivePartition.fromMbrEntry m.toSector i.val
      = if (m.partitions i).sectors ≠ 0#32 then
          some ⟨(m.partitions i).startingLba, (m.partitions i).sectors⟩
        else none := by
  have hentry := m.slice_entry i
  have hstart : slice m.toSector (446 + i.val * 16 + 8) 4
      = leBytes32 (m.partitions i).startingLba := by
    rw [← slice_slice (show 8 + 4 ≤ 16 by omega), hentry]
    rfl
  have hcount : slice m.toSector (446 + i.val * 16 + 12) 4
      = leBytes32 (m.partitions i).sectors := by
    rw [← slice_slice (show 12 + 4 ≤ 16 by omega), hentry]
    rfl
  unfold DrivePartition.fromMbrEntry
  dsimp only
  rw [hstart, hcount, ofLeBytes32_leBytes32, ofLeBytes32_leBytes32]

theorem Packed.kernel {files : Path → Option (List Byte)} {layout : DiskLayout}
    {image : List Byte} {header : MbrHeader} {metadata : Path → Option Nat}
    (h : Packed files layout image header) (hvalid : layout.Valid metadata)
    {j : Nat} {p : PartitionLayout} (hp : layout.partitions[j]? = some p) :
    ∃ d, DrivePartition.fromMbrEntry (slice image 0 512) (p.slot - 1) = some d ∧
      d.startSector.toNat = p.startLba ∧ d.sectorCount.toNat = p.sectorCount := by
  obtain ⟨hslot, hj⟩ := h.slots j p hp
  have hcount := (hvalid.inside p (List.mem_of_getElem? hp)).1
  have hread := fromMbrEntry_toSector header ⟨j, hj⟩
  rw [h.record, show p.slot - 1 = j by omega, hread]
  rcases h.entries ⟨j, hj⟩ with ⟨q, hq, hfrom⟩ | ⟨hlen, _⟩
  · obtain rfl : p = q := Option.some.inj (hp.symm.trans hq)
    obtain ⟨hlba, hsectors, _⟩ := PartitionEntry.fromLayout_ok hfrom
    rw [if_pos (fun hz => by rw [hz] at hsectors; simp at hsectors; omega)]
    exact ⟨_, rfl, hlba, hsectors⟩
  · rw [List.getElem?_eq_none (by exact hlen)] at hp
    cases hp

/-- The codec of the boot record: both round trips, and the kernel reads from
the first sector of the image that `pack` makes of a layout the start and the
length of every partition of the layout. -/
theorem mbr_codec :
    (∀ m : MbrHeader, MbrHeader.fromSector m.toSector = .ok m) ∧
    (∀ sector : List Byte, sector.length = 512 →
      ∃ m, MbrHeader.fromSector sector = .ok m ∧ m.toSector = sector) ∧
    ∀ (metadata : Path → Option Nat) (output : Path) (diskSize : Nat)
      (boot : BootstrapCode) (signature : BitVec 32) (align : Nat)
      (specs : List PartitionSpec) (layout : DiskLayout)
      (files : Path → Option (List Byte)) (outputExists force : Bool)
      (image : List Byte),
      DiskLayout.fromParts metadata output diskSize boot signature align specs
        = .ok layout →
      pack files outputExists force layout = .ok image →
      ∀ p ∈ layout.partitions,
        ∃ d, DrivePartition.fromMbrEntry (slice image 0 512) (p.slot - 1) = some d ∧
          d.startSector.toNat = p.startLba ∧
          d.sectorCount.toNat = p.sectorCount := by
  refine ⟨MbrHeader.fromSector_self, fun _ => MbrHeader.toSector_fromSector, ?_⟩
  intro metadata output diskSize boot signature align specs layout files
    outputExists force image hlayout hpack p hp
  obtain ⟨hvalid, _, _⟩ := DiskLayout.fromParts_valid hlayout
  obtain ⟨header, hpacked⟩ := pack_packed hvalid hpack
  obtain ⟨j, hj⟩ := List.mem_iff_getElem?.mp hp
  exact hpacked.kernel hvalid hj

/-- The two partitions of the small disk, as the kernel finds them. -/
theorem mbr_codec_two :
    ∃ layout image, DiskLayout.fromParts (fun _ => some 3) "disk.img" 4096
        blankCode 0#32 1 twoSpecs = .ok layout ∧
      pack twoFiles false false layout = .ok image ∧
      layout.partitions.length = 2 ∧
      ∀ p ∈ layout.partitions,
        ∃ d, DrivePartition.fromMbrEntry (slice image 0 512) (p.slot - 1) = some d ∧
          d.startSector.toNat = p.startLba ∧
          d.sectorCount.toNat = p.sectorCount := by
  obtain ⟨layout, hlayout, hlen⟩ : ∃ layout, DiskLayout.fromParts
      (fun _ => some 3) "disk.img" 4096 blankCode 0#32 1 twoSpecs = .ok layout ∧
        layout.partitions.length = 2 := ⟨_, rfl, rfl⟩
  obtain ⟨image, himage⟩ : ∃ image, pack twoFiles false false layout
      = .ok image := by
    cases hlayout
    exact ⟨_, rfl⟩
  exact ⟨layout, image, hlayout, himage, hlen,
    mbr_codec.2.2 _ _ _ _ _ _ _ _ _ _ _ _ hlayout himage⟩

end LinuxRs.Mbrkit
