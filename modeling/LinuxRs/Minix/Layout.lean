/-
The on-disk records of the Minix file system, as
miniximg/miniximg-core/src/layout.rs encodes and decodes them and the
kernel's fs/layout.rs lays them over a block (`repr(C)`, little endian).

A block is the map from its 1024 offsets to bytes. Records are written into
a block at an offset and read back from there; what is read back is what was
written, and what lies apart is untouched.
-/
import LinuxRs.Lib.Slice
import Mathlib.Logic.Function.Basic

namespace LinuxRs.Minix

open LinuxRs.Lib

abbrev Byte := BitVec 8

abbrev Zone := BitVec 16

/-- The bytes of a block by offset; only the first `blockSize` count. -/
abbrev Block := Nat → Byte

abbrev Text := List Byte

-- ======== constants

def blockSize : Nat := 1024

def minixNameLength : Nat := 14

def minixSuperMagic : BitVec 16 := 0x137f#16

def rootInodeNumber : BitVec 16 := 1#16

def directZoneCount : Nat := 7

theorem directZoneCount_pos : 0 < directZoneCount := by decide

def diskInodeSize : Nat := 32

def directoryEntrySize : Nat := 16

def inodesPerBlock : Nat := 32

/-- `MAX_LOGICAL_BLOCKS`: 7 direct, 512 and 512 * 512 indirect. -/
def maxLogicalBlocks : Nat := 262663

def maxFileSize : BitVec 32 := 268966912#32

def bitsPerBlock : Nat := 8192

def zeroBlock : Block := fun _ => 0#8

-- ======== words

def u16At (b : Block) (off : Nat) : BitVec 16 := b (off + 1) ++ b off

def u32At (b : Block) (off : Nat) : BitVec 32 :=
  b (off + 3) ++ b (off + 2) ++ b (off + 1) ++ b off

def putBytes (b : Block) (off : Nat) (bytes : List Byte) : Block := fun i =>
  if off ≤ i ∧ i < off + bytes.length then bytes.getD (i - off) 0#8 else b i

theorem putBytes_at {b : Block} {off k : Nat} {bytes : List Byte}
    (h : k < bytes.length) :
    putBytes b off bytes (off + k) = bytes.getD k 0#8 := by
  unfold putBytes
  rw [if_pos (by omega), Nat.add_sub_cancel_left]

theorem putBytes_apart {b : Block} {off i : Nat} {bytes : List Byte}
    (h : i < off ∨ off + bytes.length ≤ i) : putBytes b off bytes i = b i := by
  unfold putBytes
  rw [if_neg (by omega)]

-- ======== modes

inductive InodeType
  | regular
  | directory
  | fifo
  | blockDevice
  | characterDevice
  deriving DecidableEq

abbrev InodeMode := BitVec 16

def flagsMask : BitVec 16 := 0x0fff#16

def typeMask : BitVec 16 := 0xf000#16

def InodeMode.regular (permissions : BitVec 16) : InodeMode :=
  0x8000#16 ||| (permissions &&& flagsMask)

def InodeMode.directory (permissions : BitVec 16) : InodeMode :=
  0x4000#16 ||| (permissions &&& flagsMask)

def InodeMode.fileType (mode : InodeMode) : Option InodeType :=
  if mode &&& typeMask = 0x8000#16 then some .regular
  else if mode &&& typeMask = 0x4000#16 then some .directory
  else if mode &&& typeMask = 0x1000#16 then some .fifo
  else if mode &&& typeMask = 0x6000#16 then some .blockDevice
  else if mode &&& typeMask = 0x2000#16 then some .characterDevice
  else none

-- ======== records

structure DiskSuperBlock where
  inodeCount : BitVec 16
  zoneCount : BitVec 16
  inodeBitmapBlockCount : BitVec 16
  zoneBitmapBlockCount : BitVec 16
  firstDataZone : BitVec 16
  logZoneSize : BitVec 16
  maxFileSize : BitVec 32
  magic : BitVec 16
  deriving DecidableEq

/-- `DiskSuperBlock::encode`, as the bytes it writes. -/
def DiskSuperBlock.encode (s : DiskSuperBlock) : List Byte :=
  leBytes16 s.inodeCount ++ leBytes16 s.zoneCount
    ++ leBytes16 s.inodeBitmapBlockCount ++ leBytes16 s.zoneBitmapBlockCount
    ++ leBytes16 s.firstDataZone ++ leBytes16 s.logZoneSize
    ++ leBytes32 s.maxFileSize ++ leBytes16 s.magic

def DiskSuperBlock.decode (b : Block) : DiskSuperBlock where
  inodeCount := u16At b 0
  zoneCount := u16At b 2
  inodeBitmapBlockCount := u16At b 4
  zoneBitmapBlockCount := u16At b 6
  firstDataZone := u16At b 8
  logZoneSize := u16At b 10
  maxFileSize := u32At b 12
  magic := u16At b 16

structure DiskInode where
  mode : InodeMode
  userId : BitVec 16
  size : BitVec 32
  modificationTime : BitVec 32
  groupId : Byte
  linkCount : Byte
  directZones : Fin 7 → Zone
  singleIndirectZone : Zone
  doubleIndirectZone : Zone

def DiskInode.zeroed : DiskInode where
  mode := 0#16
  userId := 0#16
  size := 0#32
  modificationTime := 0#32
  groupId := 0#8
  linkCount := 0#8
  directZones := fun _ => 0#16
  singleIndirectZone := 0#16
  doubleIndirectZone := 0#16

/-- `DiskInode::encode`, as the bytes it writes. -/
def DiskInode.encode (i : DiskInode) : List Byte :=
  leBytes16 i.mode ++ (leBytes16 i.userId ++ (leBytes32 i.size
    ++ (leBytes32 i.modificationTime ++ (i.groupId :: i.linkCount ::
      (leBytes16 (i.directZones 0) ++ (leBytes16 (i.directZones 1)
        ++ (leBytes16 (i.directZones 2) ++ (leBytes16 (i.directZones 3)
          ++ (leBytes16 (i.directZones 4) ++ (leBytes16 (i.directZones 5)
            ++ (leBytes16 (i.directZones 6)
              ++ (leBytes16 i.singleIndirectZone
                ++ leBytes16 i.doubleIndirectZone))))))))))))

/-- `DiskInode::decode`, of the slot at an offset. -/
def DiskInode.decode (b : Block) (off : Nat) : DiskInode where
  mode := u16At b off
  userId := u16At b (off + 2)
  size := u32At b (off + 4)
  modificationTime := u32At b (off + 8)
  groupId := b (off + 12)
  linkCount := b (off + 13)
  directZones := fun k => u16At b (off + 14 + 2 * k.val)
  singleIndirectZone := u16At b (off + 28)
  doubleIndirectZone := u16At b (off + 30)

structure DiskDirectoryEntry where
  inodeNumber : BitVec 16
  name : List Byte
  name_length : name.length = minixNameLength

def DiskDirectoryEntry.empty : DiskDirectoryEntry where
  inodeNumber := 0#16
  name := List.replicate minixNameLength 0#8
  name_length := List.length_replicate

def DiskDirectoryEntry.encode (e : DiskDirectoryEntry) : List Byte :=
  leBytes16 e.inodeNumber ++ e.name

/-- `DiskDirectoryEntry::decode`, of a slot of 16 bytes. -/
def DiskDirectoryEntry.decode (bytes : List Byte) : DiskDirectoryEntry where
  inodeNumber := ofLeBytes16 bytes
  name := (List.range minixNameLength).map fun i => bytes.getD (2 + i) 0#8
  name_length := by rw [List.length_map, List.length_range]

-- ======== round trips

theorem u16At_eq {b : Block} {off : Nat} {x : BitVec 16}
    (h0 : b off = x.extractLsb' 0 8) (h1 : b (off + 1) = x.extractLsb' 8 8) :
    u16At b off = x := by
  unfold u16At
  rw [h0, h1]
  exact ofLeBytes16_leBytes16 x

theorem u32At_eq {b : Block} {off : Nat} {x : BitVec 32}
    (h0 : b off = x.extractLsb' 0 8) (h1 : b (off + 1) = x.extractLsb' 8 8)
    (h2 : b (off + 2) = x.extractLsb' 16 8)
    (h3 : b (off + 3) = x.extractLsb' 24 8) : u32At b off = x := by
  unfold u32At
  rw [h0, h1, h2, h3]
  exact ofLeBytes32_leBytes32 x

/-- An inode is read back as it was written. -/
theorem DiskInode.decode_encode (b : Block) (off : Nat) (i : DiskInode) :
    decode (putBytes b off i.encode) off = i := by
  have hat : ∀ k, k < 32 → putBytes b off i.encode (off + k)
      = i.encode.getD k 0#8 := fun k hk => putBytes_at hk
  have hmode : u16At (putBytes b off i.encode) off = i.mode :=
    u16At_eq (hat 0 (by omega)) (hat 1 (by omega))
  unfold decode
  rw [hmode, u16At_eq (hat 2 (by omega)) (hat 3 (by omega)),
    u32At_eq (hat 4 (by omega)) (hat 5 (by omega)) (hat 6 (by omega))
      (hat 7 (by omega)),
    u32At_eq (hat 8 (by omega)) (hat 9 (by omega)) (hat 10 (by omega))
      (hat 11 (by omega)), hat 12 (by omega), hat 13 (by omega),
    u16At_eq (hat 28 (by omega)) (hat 29 (by omega)),
    u16At_eq (hat 30 (by omega)) (hat 31 (by omega))]
  congr 1
  funext k
  match k with
  | 0 => exact u16At_eq (hat 14 (by omega)) (hat 15 (by omega))
  | 1 => exact u16At_eq (hat 16 (by omega)) (hat 17 (by omega))
  | 2 => exact u16At_eq (hat 18 (by omega)) (hat 19 (by omega))
  | 3 => exact u16At_eq (hat 20 (by omega)) (hat 21 (by omega))
  | 4 => exact u16At_eq (hat 22 (by omega)) (hat 23 (by omega))
  | 5 => exact u16At_eq (hat 24 (by omega)) (hat 25 (by omega))
  | 6 => exact u16At_eq (hat 26 (by omega)) (hat 27 (by omega))

end LinuxRs.Minix
