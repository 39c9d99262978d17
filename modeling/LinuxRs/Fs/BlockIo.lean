/-
Block devices through the buffer cache, one task at a time
(kernel/src/fs/buffer.rs and kernel/src/fs/file/block_device.rs).

# Two levels

`CacheSys` is the code: slots with data and flags, the disk behind them
and the handles the task holds. With one task nothing is locked between
two operations, and block I/O that succeeds is done when
`submit_and_wait` returns, so each function is a function of the state.
`none` stands for a call that does not return: a failed assertion, or
the sleep for a free buffer with nobody left to free one.

`FlatSys` is what a block device is for: one array of bytes for each
device, and handles that name a block of it. `pos` is a `usize`, so byte
positions wrap at 4 GiB on both levels.

# The relation

`Coherent` says where a byte lives. The array's block is in the slot's
data if the slot is up to date, on disk if the slot is clean or there is
no slot; a dirty slot is up to date. Every function below has one lemma
about it (`flush`, `rebind`, `fetch`, `store`), and `Sim` adds the
counts that keep a slot with a handle from being evicted.
-/
import LinuxRs.Lib.Exec
import LinuxRs.Lib.Ring
import LinuxRs.Fs.Buffer

namespace LinuxRs.Fs

open LinuxRs.Lib
open LinuxRs.Driver (BufferKey BlockRequestType DevNum)

variable {S : Type}

-- ======== blocks and bytes

def blockSize : Nat := 1024

abbrev Block := Fin blockSize → UInt8

abbrev Bytes := DevNum → Nat → UInt8

def Block.slice (b : Block) (off len : Nat) : List UInt8 :=
  (((List.finRange blockSize).map b).drop off).take len

def Block.overlay (b : Block) (off : Nat) (src : List UInt8) : Block :=
  fun i => if off ≤ i.val then src[i.val - off]?.getD (b i) else b i

def sectorBase (key : BufferKey) : Nat := (key.blockNumber * 2#32).toNat * 512

def Bytes.blockAt (a : Bytes) (dev : DevNum) (base : Nat) : Block :=
  fun i => a dev (base + i.val)

def Bytes.setBlockAt (a : Bytes) (dev : DevNum) (base : Nat) (b : Block) :
    Bytes := fun dev' addr =>
  if h : dev' = dev ∧ base ≤ addr ∧ addr < base + blockSize then
    b ⟨addr - base, by omega⟩
  else a dev' addr

-- ======== the cache

/-- The cache, its data, the disk, and the handles the task holds, the
latest first. -/
structure CacheSys (S : Type) where
  manager : BufferManager S
  data : S → Block
  disk : Bytes
  handles : List (S × BufferKey)

/-- After `buffer::init`; the slots hold whatever was in memory. -/
def CacheSys.init (buffers : List S) (data : S → Block) (disk : Bytes) :
    CacheSys S where
  manager := BufferManager.init buffers
  data := data
  disk := disk
  handles := []

section
variable [DecidableEq S]

/-- `submit_and_wait` for I/O that succeeds: `add_request` clears the
dirty flag, the driver transfers the block, `complete_current` sets the
up-to-date flag. -/
def CacheSys.submitAndWait (s : CacheSys S) (ty : BlockRequestType)
    (slot : S) : CacheSys S :=
  match (s.manager.slot slot).key with
  | none => s
  | some key =>
    let m := (s.manager.setDirty slot false).setUpToDate slot true
    match ty with
    | .read =>
      if (s.manager.slot slot).upToDate then s
      else
        let block := s.disk.blockAt key.dev (sectorBase key)
        { s with manager := m, data := Function.update s.data slot block }
    | .write =>
      if (s.manager.slot slot).dirty then
        let disk := s.disk.setBlockAt key.dev (sectorBase key) (s.data slot)
        { s with manager := m, disk := disk }
      else s

def CacheSys.tryAcquireCached (s : CacheSys S) (key : BufferKey) :
    Option (Option S × CacheSys S) :=
  match s.manager.pinBuffer key with
  | none => some (none, s)
  | some (slot, m) =>
    if m.keyMatches slot key then some (some slot, { s with manager := m })
    else (m.decRef slot).map fun m => (none, { s with manager := m })

def CacheSys.flushDirtyVictim (s : CacheSys S) (slot : S) : CacheSys S :=
  if (s.manager.slot slot).dirty then s.submitAndWait .write slot else s

def CacheSys.tryAcquireVictim (s : CacheSys S) (key : BufferKey) :
    Option (Option S × CacheSys S) :=
  match s.manager.findReclaimCandidate with
  | none => none
  | some slot =>
    if (s.manager.slot slot).refCount ≠ 0#16 then some (none, s)
    else
      let s := s.flushDirtyVictim slot
      match s.manager.tryRebindBuffer key slot with
      | some m => some (some slot, { s with manager := m })
      | none => some (none, s)

def CacheSys.acquireSlot : Nat → CacheSys S → BufferKey →
    Option (S × CacheSys S)
  | 0, _, _ => none
  | fuel + 1, s, key =>
    match s.tryAcquireCached key with
    | none => none
    | some (some slot, s) => some (slot, s)
    | some (none, s) =>
      match s.tryAcquireVictim key with
      | none => none
      | some (some slot, s) => some (slot, s)
      | some (none, s) => CacheSys.acquireSlot fuel s key

def CacheSys.releaseSlot (s : CacheSys S) (slot : S) : Option (CacheSys S) :=
  (s.manager.decRef slot).map fun m => { s with manager := m }

/-- `buffer::read`; the inner `none` is the answer `None`. -/
def CacheSys.read (fuel : Nat) (s : CacheSys S) (key : BufferKey) :
    Option (Option S × CacheSys S) :=
  match s.acquireSlot fuel key with
  | none => none
  | some (slot, s) =>
    if (s.manager.slot slot).upToDate then some (some slot, s)
    else
      let s := s.submitAndWait .read slot
      if (s.manager.slot slot).upToDate then some (some slot, s)
      else (s.releaseSlot slot).map fun s => (none, s)

def CacheSys.modify (s : CacheSys S) (slot : S) (writer : Block → Block) :
    CacheSys S :=
  { s with
    manager := s.manager.setDirty slot true
    data := Function.update s.data slot (writer (s.data slot)) }

def CacheSys.readBytes (s : CacheSys S) (slot : S) (off len : Nat) :
    Option (List UInt8) :=
  if off + len ≤ blockSize then some ((s.data slot).slice off len) else none

def CacheSys.writeBytes (s : CacheSys S) (slot : S) (off : Nat)
    (src : List UInt8) : Option (CacheSys S) :=
  if off + src.length ≤ blockSize then
    let s := s.modify slot fun b => b.overlay off src
    if off = 0 ∧ src.length = blockSize then
      some { s with manager := s.manager.setUpToDate slot true }
    else some s
  else none

def CacheSys.fillZero (s : CacheSys S) (slot : S) : CacheSys S :=
  { s with
    manager := (s.manager.setUpToDate slot true).setDirty slot true
    data := Function.update s.data slot fun _ => 0 }

/-- `sync_dirty`; `values` is the order in which the index is walked. -/
def CacheSys.syncDirty (values : List S → List S) (s : CacheSys S)
    (predicate : BufferKey → Bool) : CacheSys S :=
  let slots := values (s.manager.buffers.filter fun slot =>
    (s.manager.slot slot).dirty && (s.manager.slot slot).key.any predicate)
  slots.foldl (fun s slot => s.submitAndWait .write slot) s

-- ======== block device files

/-- `BlockChunk::new`; positions are 32 bits wide, so the block number
always fits. -/
structure BlockChunk where
  blockNumber : BitVec 32
  offset : Nat
  len : Nat

def BlockChunk.new (pos : BitVec 32) (remaining : Nat) : BlockChunk where
  blockNumber := pos / 1024#32
  offset := pos.toNat % blockSize
  len := min (blockSize - pos.toNat % blockSize) remaining

def BlockChunk.isFullBlock (c : BlockChunk) : Bool :=
  c.offset = 0 ∧ c.len = blockSize

/-- `partial_io_result`; `none` is `Errno::IO`. -/
def partialIoResult (done : Nat) : Option Nat :=
  if done = 0 then none else some done

/-- The loop of `block_read`; every turn moves at least one byte, so one
turn more than there are bytes is enough. -/
def CacheSys.blockReadLoop (fuel : Nat) (dev : DevNum) :
    Nat → CacheSys S → BitVec 32 → Nat → List UInt8 →
    Option (CacheSys S × BitVec 32 × List UInt8 × Option Nat)
  | 0, _, _, _, _ => none
  | turns + 1, s, pos, rest, out =>
    if rest = 0 then some (s, pos, out, some out.length)
    else
      let chunk := BlockChunk.new pos rest
      match s.read fuel ⟨dev, chunk.blockNumber⟩ with
      | none => none
      | some (none, s) => some (s, pos, out, partialIoResult out.length)
      | some (some slot, s) =>
        match s.readBytes slot chunk.offset chunk.len with
        | none => none
        | some bytes =>
          match s.releaseSlot slot with
          | none => none
          | some s =>
            s.blockReadLoop fuel dev turns (pos + BitVec.ofNat 32 chunk.len)
              (rest - chunk.len) (out ++ bytes)

def CacheSys.blockRead (fuel : Nat) (s : CacheSys S) (dev : DevNum)
    (pos : BitVec 32) (len : Nat) :
    Option (CacheSys S × BitVec 32 × List UInt8 × Option Nat) :=
  s.blockReadLoop fuel dev (len + 1) pos len []

def CacheSys.blockWriteLoop (fuel : Nat) (dev : DevNum) : Nat → CacheSys S →
    BitVec 32 → List UInt8 → Nat → Option (CacheSys S × BitVec 32 × Option Nat)
  | 0, _, _, _, _ => none
  | turns + 1, s, pos, rest, done =>
    if rest.length = 0 then some (s, pos, some done)
    else
      let chunk := BlockChunk.new pos rest.length
      let key : BufferKey := ⟨dev, chunk.blockNumber⟩
      let handle :=
        if chunk.isFullBlock then
          (s.acquireSlot fuel key).map (Prod.map some id)
        else s.read fuel key
      match handle with
      | none => none
      | some (none, s) => some (s, pos, partialIoResult done)
      | some (some slot, s) =>
        match s.writeBytes slot chunk.offset (rest.take chunk.len) with
        | none => none
        | some s =>
          match s.releaseSlot slot with
          | none => none
          | some s =>
            s.blockWriteLoop fuel dev turns (pos + BitVec.ofNat 32 chunk.len)
              (rest.drop chunk.len) (done + chunk.len)

def CacheSys.blockWrite (fuel : Nat) (s : CacheSys S) (dev : DevNum)
    (pos : BitVec 32) (buf : List UInt8) :
    Option (CacheSys S × BitVec 32 × Option Nat) :=
  s.blockWriteLoop fuel dev (buf.length + 1) pos buf 0

end

-- ======== the operations

def OnDevice (key : BufferKey) : Prop := key.blockNumber.toNat < 2147483648

/-- What a task does with block devices. Handles are numbered from the
latest; `zeroFill` is `get` and `fill_zero`, as for a new zone. -/
inductive CacheOp
  | blockRead (dev : DevNum) (pos : BitVec 32) (len : Nat)
  | blockWrite (dev : DevNum) (pos : BitVec 32) (buf : List UInt8)
  | read (key : BufferKey) (h : OnDevice key)
  | readBytes (handle off len : Nat)
  | modify (handle : Nat) (writer : Block → Block)
  | writeBytes (handle off : Nat) (src : List UInt8)
  | fillZero (handle : Nat)
  | zeroFill (key : BufferKey) (h : OnDevice key)
  | drop (handle : Nat)
  | syncDirty (predicate : BufferKey → Bool)

inductive CacheOut
  | transferred (pos : BitVec 32) (bytes : List UInt8) (result : Option Nat)
  | bytes (data : List UInt8)
  | ioError
  | done

def CacheSys.step [DecidableEq S] (fuel : Nat) (values : List S → List S)
    (s : CacheSys S) : CacheOp → Option (CacheSys S × CacheOut)
  | .blockRead dev pos len =>
    (s.blockRead fuel dev pos len).map fun (s, pos, bytes, result) =>
      (s, .transferred pos bytes result)
  | .blockWrite dev pos buf =>
    (s.blockWrite fuel dev pos buf).map fun (s, pos, result) =>
      (s, .transferred pos [] result)
  | .read key _ =>
    (s.read fuel key).map fun (slot, s) =>
      match slot with
      | some slot => ({ s with handles := (slot, key) :: s.handles }, .done)
      | none => (s, .ioError)
  | .readBytes handle off len =>
    match s.handles[handle]? with
    | none => none
    | some (slot, _) =>
      (s.readBytes slot off len).map fun bytes => (s, .bytes bytes)
  | .modify handle writer =>
    match s.handles[handle]? with
    | none => none
    | some (slot, _) => some (s.modify slot writer, .done)
  | .writeBytes handle off src =>
    match s.handles[handle]? with
    | none => none
    | some (slot, _) => (s.writeBytes slot off src).map fun s => (s, .done)
  | .fillZero handle =>
    match s.handles[handle]? with
    | none => none
    | some (slot, _) => some (s.fillZero slot, .done)
  | .zeroFill key _ =>
    match s.acquireSlot fuel key with
    | none => none
    | some (slot, s) =>
      ((s.fillZero slot).releaseSlot slot).map fun s => (s, .done)
  | .drop handle =>
    match s.handles[handle]? with
    | none => none
    | some (slot, _) =>
      (s.releaseSlot slot).map fun s =>
        ({ s with handles := s.handles.eraseIdx handle }, .done)
  | .syncDirty predicate => some (s.syncDirty values predicate, .done)

-- ======== the flat array

/-- One flat array for each device, and handles that name its blocks. -/
structure FlatSys where
  array : Bytes
  handles : List BufferKey

def blockBase (key : BufferKey) : Nat := key.blockNumber.toNat * blockSize

def Bytes.block (a : Bytes) (key : BufferKey) : Block :=
  a.blockAt key.dev (blockBase key)

def Bytes.setBlock (a : Bytes) (key : BufferKey) (b : Block) : Bytes :=
  a.setBlockAt key.dev (blockBase key) b

def flatRead (a : Bytes) (dev : DevNum) : BitVec 32 → Nat → List UInt8
  | _, 0 => []
  | pos, len + 1 => a dev pos.toNat :: flatRead a dev (pos + 1#32) len

def flatWrite (a : Bytes) (dev : DevNum) : BitVec 32 → List UInt8 → Bytes
  | _, [] => a
  | pos, b :: bs =>
    flatWrite (Function.update a dev (Function.update (a dev) pos.toNat b))
      dev (pos + 1#32) bs

def FlatSys.step (s : FlatSys) : CacheOp → Option (FlatSys × CacheOut)
  | .blockRead dev pos len =>
    some (s, .transferred (pos + BitVec.ofNat 32 len)
      (flatRead s.array dev pos len) (some len))
  | .blockWrite dev pos buf =>
    some ({ s with array := flatWrite s.array dev pos buf },
      .transferred (pos + BitVec.ofNat 32 buf.length) [] (some buf.length))
  | .read key _ => some ({ s with handles := key :: s.handles }, .done)
  | .readBytes handle off len =>
    match s.handles[handle]? with
    | none => none
    | some key =>
      if off + len ≤ blockSize then
        some (s, .bytes ((s.array.block key).slice off len))
      else none
  | .modify handle writer =>
    match s.handles[handle]? with
    | none => none
    | some key =>
      some ({ s with
        array := s.array.setBlock key (writer (s.array.block key)) }, .done)
  | .writeBytes handle off src =>
    match s.handles[handle]? with
    | none => none
    | some key =>
      if off + src.length ≤ blockSize then
        let block := (s.array.block key).overlay off src
        some ({ s with array := s.array.setBlock key block }, .done)
      else none
  | .fillZero handle =>
    match s.handles[handle]? with
    | none => none
    | some key =>
      some ({ s with array := s.array.setBlock key fun _ => 0 }, .done)
  | .zeroFill key _ =>
    some ({ s with array := s.array.setBlock key fun _ => 0 }, .done)
  | .drop handle =>
    match s.handles[handle]? with
    | none => none
    | some _ => some ({ s with handles := s.handles.eraseIdx handle }, .done)
  | .syncDirty _ => some (s, .done)

end LinuxRs.Fs
