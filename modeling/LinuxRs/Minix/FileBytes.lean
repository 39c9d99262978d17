/-
The bytes that a file shows, and what `read_at` makes of them.

`view` is what a file shows in a logical block, through its pointers, and
`byte` what it shows at a position. Reading depends on nothing else: it
gives the bytes up to the end of the file, and fails exactly when it runs
past the last block that pointers can reach (`readAt_eq`).

`file` is the sparse sequence that a file stands for, with zeros from the
end on.
-/
import LinuxRs.Lib.Sparse
import LinuxRs.Minix.FileStore

namespace LinuxRs.Minix

open LinuxRs.Lib
open LinuxRs.Miniximg (PointerPath Slot slotOf zoneAt tableOf entryOf)

namespace FileStore

-- ======== showing

def view (s : FileStore) (m : InodeNumber) (k : Nat) : Block :=
  (slotOf k).elim zeroBlock fun slot => s.content m slot.path

def byte (s : FileStore) (m : InodeNumber) : Nat → Byte :=
  Volume.fileByte (s.view m)

def file (s : FileStore) (m : InodeNumber) : Sparse Byte 0#8 where
  size := (s.disk m).size.toNat
  get p := if p < (s.disk m).size.toNat then s.byte m p else 0#8
  beyond _ hp := if_neg (by omega)

theorem view_of_slot {s : FileStore} {m : InodeNumber} {k : Nat} {slot : Slot}
    (h : slotOf k = some slot) : s.view m k = s.content m slot.path := by
  unfold view
  rw [h]
  rfl

theorem Kept.byte {s s' : FileStore} (h : Kept s s') {m : InodeNumber}
    (hm : s.IsFile m) : s'.byte m = s.byte m := by
  unfold FileStore.byte
  congr 1
  funext k
  cases hslot : slotOf k with
  | none =>
    unfold view
    rw [hslot]
    rfl
  | some slot =>
    rw [view_of_slot hslot, view_of_slot hslot]
    exact h.content m hm _ slot.isData_path

-- ======== reading

theorem resolve_device (s : FileStore) (t : Zone) (k : Fin 512) :
    Volume.resolveIndirectEntry s.device t k.val
      = .ok (entryOf s.blocks t k) := by
  unfold Volume.resolveIndirectEntry entryOf
  split
  next => rfl
  next => rfl

/-- Mapping a block finds the zone at the slot's path. -/
theorem mapBlockId_device (s : FileStore) (m : InodeNumber) (k : Nat) :
    Volume.mapBlockId s.device (s.disk m) k
      = (slotOf k).elim (.error .fbig) fun slot => .ok (s.zone m slot.path) := by
  unfold Volume.mapBlockId
  by_cases hmax : k ≥ maxLogicalBlocks
  · have hnone : slotOf k = none := dif_pos hmax
    rw [if_pos hmax, hnone]
    rfl
  · rw [if_neg hmax]
    unfold slotOf
    rw [dif_neg hmax]
    by_cases hdirect : k < 7
    · have hd : k < directZoneCount := hdirect
      rw [dif_pos hd, dif_pos hdirect]
      rfl
    · have hd : ¬ k < directZoneCount := hdirect
      rw [dif_neg hd, dif_neg hdirect]
      by_cases hsingle : k - 7 < 512
      · have hlt : k < Volume.indirectZoneIndex
            + Volume.indirectEntriesPerBlock := by
          show k < 7 + 512
          omega
        rw [if_pos hlt, dif_pos hsingle]
        exact resolve_device s _ ⟨k - 7, hsingle⟩
      · have hlt : ¬ k < Volume.indirectZoneIndex
            + Volume.indirectEntriesPerBlock := by
          show ¬ k < 7 + 512
          omega
        have hblock : k - (Volume.doubleIndirectZoneIndex
            + Volume.indirectEntriesPerBlock - 1) = k - 7 - 512 := by
          show k - (8 + 512 - 1) = k - 7 - 512
          omega
        rw [if_neg hlt, dif_neg hsingle]
        dsimp only
        rw [hblock]
        have houter := resolve_device s (s.disk m).doubleIndirectZone
          ⟨(k - 7 - 512) / 512, by unfold maxLogicalBlocks at hmax; omega⟩
        have hinner := resolve_device s (entryOf s.blocks
          (s.disk m).doubleIndirectZone
          ⟨(k - 7 - 512) / 512, by unfold maxLogicalBlocks at hmax; omega⟩)
          ⟨(k - 7 - 512) % 512, by omega⟩
        unfold Volume.indirectEntriesPerBlock
        rw [houter]
        exact hinner

theorem fileBlock_eq {s : FileStore} {m : InodeNumber} {k : Nat}
    (h : k < maxLogicalBlocks) :
    Volume.fileBlock s.device (s.disk m) k = some (s.view m k) := by
  obtain ⟨slot, hslot⟩ := Miniximg.slotOf_isSome h
  unfold Volume.fileBlock
  rw [mapBlockId_device, hslot, view_of_slot hslot]
  unfold content
  dsimp only [Option.elim]
  split
  next => rfl
  next => rfl

def maxBytes : Nat := maxLogicalBlocks * blockSize

/-- A read beyond the largest file fails. -/
theorem readFrom_past {s : FileStore} {m : InodeNumber} :
    ∀ {left pos : Nat} {done : List Byte}, left ≠ 0 → maxBytes < pos + left →
      Volume.readFrom s.device (s.disk m) pos left done = .error .fbig := by
  intro left
  induction left using Nat.strongRecOn with
  | ind left ih =>
    intro pos done hleft hpast
    have hmin : Nat.min left (blockSize - pos % blockSize)
        = min left (blockSize - pos % blockSize) := rfl
    unfold maxBytes maxLogicalBlocks at hpast
    by_cases hmax : pos / blockSize < maxLogicalBlocks
    · rw [Volume.readFrom_round hleft (fileBlock_eq hmax)]
      unfold maxLogicalBlocks at hmax
      refine ih _ ?_ ?_ ?_
      · rw [hmin]
        unfold blockSize
        omega
      · rw [hmin]
        unfold blockSize at *
        omega
      · rw [hmin]
        unfold maxBytes maxLogicalBlocks
        omega
    · have hnone : slotOf (pos / blockSize) = none := dif_pos (by omega)
      rw [Volume.readFrom, dif_neg hleft, mapBlockId_device, hnone]
      rfl

/-- A read gives the bytes of the file, up to its end. -/
theorem readAt_eq (s : FileStore) (m : InodeNumber) (pos len : Nat) :
    s.readAt m pos len = if min len ((s.disk m).size.toNat - pos) ≠ 0
            ∧ maxBytes < pos + min len ((s.disk m).size.toNat - pos) then
          .error .fbig
        else .ok ((s.file m).read pos len) := by
  have hread : (s.file m).read pos len = Volume.fileBytes (s.view m) pos
          (min len ((s.disk m).size.toNat - pos)) := by
    refine List.map_congr_left fun i hi => ?_
    have hi := List.mem_range.mp hi
    exact if_pos (show pos + i < (s.disk m).size.toNat by
      unfold file at hi
      dsimp only at hi
      omega)
  rw [hread]
  unfold readAt Volume.readAt
  by_cases hlen : len = 0
  · rw [if_pos hlen, if_neg (by omega), hlen, Nat.zero_min]
    rfl
  · rw [if_neg hlen]
    by_cases hpos : pos ≥ (s.disk m).size.toNat
    · rw [if_pos hpos, if_neg (by omega), Nat.sub_eq_zero_of_le hpos,
        Nat.min_zero]
      rfl
    · rw [if_neg hpos]
      have hmin : Nat.min len ((s.disk m).size.toNat - pos)
          = min len ((s.disk m).size.toNat - pos) := rfl
      rw [hmin]
      by_cases hpast : maxBytes < pos + min len ((s.disk m).size.toNat - pos)
      · rw [if_pos ⟨by omega, hpast⟩]
        exact readFrom_past (by omega) hpast
      · rw [if_neg (fun h => hpast h.2)]
        refine (Volume.readFrom_all fun i _ hi => fileBlock_eq ?_).trans rfl
        unfold maxBytes at hpast
        unfold blockSize maxLogicalBlocks at *
        omega

theorem readAt_congr {s s' : FileStore} {m : InodeNumber}
    (hsize : (s'.disk m).size = (s.disk m).size) (hbyte : s'.byte m = s.byte m)
    (pos len : Nat) : s'.readAt m pos len = s.readAt m pos len := by
  have hfile : s'.file m = s.file m := by
    unfold file
    simp only [hsize, hbyte]
  rw [readAt_eq, readAt_eq, hsize, hfile]

end FileStore

end LinuxRs.Minix
