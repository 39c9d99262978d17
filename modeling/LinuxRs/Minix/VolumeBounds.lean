/-
Opening media that nobody has checked
(kernel/src/fs/{minix,bitmap}.rs, `MinixFileSystem::open` and the `Bitmap`
operations).

# Two kinds of check

`open` refuses a device that cannot be read or has no super block of its
kind. The counts of the super block go into `Bitmap::new` unchecked: its
assertions and the subtractions before it panic. Once a bitmap exists, its
words are in bounds for good, whatever they hold (`Bitmap.Sound`), since no
operation changes the number of its blocks or of its bits.

# What is not looked at

The inode table is not read by `open`. A table that runs past the end of the
device shows up in the first `read_inode` of such a number, which panics.
`open_untrusted_iff` therefore asks for both.
-/
import LinuxRs.Minix.Volume
import LinuxRs.Lib.Run

namespace LinuxRs.Minix.Volume

open LinuxRs.Lib
open LinuxRs.Minix

-- ======== words

def bitsPerWord : Nat := 64

def wordsPerBlock : Nat := 128

/-- A `u64` of a `BitmapBlock`, little endian. -/
def wordAt (b : Block) (i : Nat) : BitVec 64 :=
  b (8 * i + 7) ++ b (8 * i + 6) ++ b (8 * i + 5) ++ b (8 * i + 4)
    ++ b (8 * i + 3) ++ b (8 * i + 2) ++ b (8 * i + 1) ++ b (8 * i)

/-- A `u64` of a `BitmapBlock` is assigned. -/
def putWord (b : Block) (i : Nat) (w : BitVec 64) : Block := fun j =>
  if j / 8 = i then w.extractLsb' (8 * (j % 8)) 8 else b j

theorem putWord_byte (b : Block) (i : Nat) (w : BitVec 64) {k : Nat}
    (hk : k < 8) : putWord b i w (8 * i + k) = w.extractLsb' (8 * k) 8 := by
  unfold putWord
  rw [if_pos (by omega), show (8 * i + k) % 8 = k by omega]

theorem wordAt_putWord (b : Block) (i j : Nat) (w : BitVec 64) :
    wordAt (putWord b i w) j = if j = i then w else wordAt b j := by
  by_cases hji : j = i
  · subst hji
    have hzero := putWord_byte b j w (show 0 < 8 by decide)
    rw [Nat.add_zero] at hzero
    rw [if_pos rfl]
    unfold wordAt
    rw [putWord_byte _ _ _ (show 7 < 8 by decide),
      putWord_byte _ _ _ (show 6 < 8 by decide),
      putWord_byte _ _ _ (show 5 < 8 by decide),
      putWord_byte _ _ _ (show 4 < 8 by decide),
      putWord_byte _ _ _ (show 3 < 8 by decide),
      putWord_byte _ _ _ (show 2 < 8 by decide),
      putWord_byte _ _ _ (show 1 < 8 by decide), hzero]
    -- the bytes are put together from the highest one down
    show w.extractLsb' 56 8 ++ w.extractLsb' 48 8 ++ w.extractLsb' 40 8
      ++ w.extractLsb' 32 8 ++ w.extractLsb' 24 8 ++ w.extractLsb' 16 8
      ++ w.extractLsb' 8 8 ++ w.extractLsb' 0 8 = w
    rw [BitVec.extractLsb'_append_extractLsb'_eq_extractLsb'
        (show 56 = 48 + 8 from rfl),
      BitVec.extractLsb'_append_extractLsb'_eq_extractLsb'
        (show 48 = 40 + 8 from rfl),
      BitVec.extractLsb'_append_extractLsb'_eq_extractLsb'
        (show 40 = 32 + 8 from rfl),
      BitVec.extractLsb'_append_extractLsb'_eq_extractLsb'
        (show 32 = 24 + 8 from rfl),
      BitVec.extractLsb'_append_extractLsb'_eq_extractLsb'
        (show 24 = 16 + 8 from rfl),
      BitVec.extractLsb'_append_extractLsb'_eq_extractLsb'
        (show 16 = 8 + 8 from rfl),
      BitVec.extractLsb'_append_extractLsb'_eq_extractLsb'
        (show 8 = 0 + 8 from rfl)]
    exact BitVec.extractLsb'_eq_self
  · have hbyte : ∀ k, k < 8 → putWord b i w (8 * j + k) = b (8 * j + k) := by
      intro k hk
      unfold putWord
      rw [if_neg (by omega)]
    have hzero := hbyte 0 (by decide)
    rw [Nat.add_zero] at hzero
    rw [if_neg hji]
    unfold wordAt
    rw [hbyte 7 (by decide), hbyte 6 (by decide), hbyte 5 (by decide),
      hbyte 4 (by decide), hbyte 3 (by decide), hbyte 2 (by decide),
      hbyte 1 (by decide), hzero]

namespace Bitmap

/-- `Bitmap::read_word`; a slot that holds no block panics. -/
def readWord (m : Bitmap) (i : Nat) : Except Fault (BitVec 64) :=
  match m.buffers[i / wordsPerBlock]? with
  | none => .error .panicked
  | some slot => .ok (wordAt slot.2 (i % wordsPerBlock))

def modifyWord (m : Bitmap) (i : Nat) (mutate : BitVec 64 → BitVec 64) :
    Except Fault Bitmap :=
  match m.buffers[i / wordsPerBlock]? with
  | none => .error .panicked
  | some slot =>
    let word := mutate (wordAt slot.2 (i % wordsPerBlock))
    .ok { m with
      buffers := m.buffers.set (i / wordsPerBlock)
        (slot.1, putWord slot.2 (i % wordsPerBlock) word) }

def allocFrom (m : Bitmap) : Nat → Nat → Except Fault (Option (Bitmap × Nat))
  | 0, _ => .ok none
  | words + 1, wordIndex =>
    match m.readWord wordIndex with
    | .error e => .error e
    | .ok word =>
      let free := ~~~word
      if free = 0#64 then allocFrom m words (wordIndex + 1)
      else
        let bitInWord := free.ctz.toNat
        let bit := wordIndex * bitsPerWord + bitInWord
        if m.bitCount ≤ bit then .ok none
        else
          (m.modifyWord wordIndex (· ||| 1#64 <<< bitInWord)).map
            fun m' => some (m', m.baseId + bit)

def alloc (m : Bitmap) : Except Fault (Option (Bitmap × Nat)) :=
  m.allocFrom ((m.bitCount + 63) / bitsPerWord) 0

/-- `Bitmap::dealloc`; an identifier before the first or past the last one
panics. -/
def dealloc (m : Bitmap) (id : Nat) : Except Fault Bitmap :=
  if id < m.baseId then .error .panicked
  else
    let bit := id - m.baseId
    if m.bitCount ≤ bit then .error .panicked
    else
      m.modifyWord (bit / bitsPerWord)
        (· &&& ~~~(1#64 <<< (bit % bitsPerWord)))

def usedFrom (m : Bitmap) : Nat → Nat → Except Fault Nat
  | 0, _ => .ok 0
  | words + 1, wordIndex =>
    match m.readWord wordIndex with
    | .error e => .error e
    | .ok word =>
      (usedFrom m words (wordIndex + 1)).map (word.cpop.toNat + ·)

/-- The occupied bits of a last word of which only some belong to the
bitmap. -/
def usedInTail (m : Bitmap) (wordIndex remaining : Nat) : Except Fault Nat :=
  if 0 < remaining then
    (m.readWord wordIndex).map fun word =>
      (word &&& (1#64 <<< remaining - 1#64)).cpop.toNat
  else .ok 0

/-- `Bitmap::count_free`; its subtraction can underflow. -/
def countFree (m : Bitmap) : Except Fault Nat :=
  let fullWords := m.bitCount / bitsPerWord
  match m.usedFrom fullWords 0, m.usedInTail fullWords
      (m.bitCount % bitsPerWord) with
  | .ok full, .ok tail =>
    if full + tail ≤ m.bitCount then .ok (m.bitCount - (full + tail))
    else .error .panicked
  | _, _ => .error .panicked

/-- A bitmap with blocks for all its bits, and with bit 0 occupied. -/
structure Sound (m : Bitmap) : Prop where
  fits : m.bitCount ≤ m.buffers.length * bitsPerBlock
  first : ∃ slot, m.buffers[0]? = some slot
    ∧ (wordAt slot.2 0).getLsbD 0 = true

/-- The same bitmap but for its bits. -/
structure Same (m m' : Bitmap) : Prop where
  baseId : m'.baseId = m.baseId
  bitCount : m'.bitCount = m.bitCount

variable {m m' : Bitmap} {i : Nat}

theorem Sound.slot (h : m.Sound) (hi : i * bitsPerWord < m.bitCount) :
    ∃ slot, m.buffers[i / wordsPerBlock]? = some slot := by
  have hfits := h.fits
  have hlt : i / wordsPerBlock < m.buffers.length := by
    unfold bitsPerWord at hi
    unfold bitsPerBlock at hfits
    unfold wordsPerBlock
    omega
  exact ⟨_, List.getElem?_eq_getElem hlt⟩

theorem Sound.readWord_ok (h : m.Sound) (hi : i * bitsPerWord < m.bitCount) :
    ∃ word, m.readWord i = .ok word := by
  obtain ⟨slot, hslot⟩ := h.slot hi
  unfold readWord
  rw [hslot]
  exact ⟨_, rfl⟩

theorem Sound.first_word {word : BitVec 64} (h : m.Sound)
    (hword : m.readWord 0 = .ok word) : word.getLsbD 0 = true := by
  obtain ⟨slot, hslot, hbit⟩ := h.first
  unfold readWord at hword
  rw [show 0 / wordsPerBlock = 0 from rfl, hslot] at hword
  cases hword
  exact hbit

/-- Changing a word that exists keeps the bitmap sound, if bit 0 stays set. -/
theorem Sound.modifyWord_ok (h : m.Sound) (mutate : BitVec 64 → BitVec 64)
    (hi : i * bitsPerWord < m.bitCount)
    (hfirst : i = 0 → ∀ w, w.getLsbD 0 = true → (mutate w).getLsbD 0 = true) :
    ∃ m', m.modifyWord i mutate = .ok m' ∧ m'.Sound ∧ Same m m' := by
  obtain ⟨slot, hslot⟩ := h.slot hi
  unfold modifyWord
  rw [hslot]
  refine ⟨_, rfl, ⟨?_, ?_⟩, rfl, rfl⟩
  · dsimp only
    rw [List.length_set]
    exact h.fits
  · obtain ⟨zero, hzero, hbit⟩ := h.first
    by_cases hblock : i / wordsPerBlock = 0
    · have hlt := (List.getElem?_eq_some_iff.mp hzero).1
      rw [hblock] at hslot
      obtain rfl := Option.some.inj (hslot.symm.trans hzero)
      rw [hblock, List.getElem?_set_self hlt]
      refine ⟨_, rfl, ?_⟩
      rw [wordAt_putWord]
      split
      next hword =>
        have hi : i = 0 := by
          unfold wordsPerBlock at hblock hword
          omega
        rw [← hword]
        exact hfirst hi _ hbit
      next => exact hbit
    · rw [List.getElem?_set_ne hblock]
      exact ⟨zero, hzero, hbit⟩

/-- The scan stays within the words of the bitmap. -/
theorem Sound.allocFrom_ok (h : m.Sound) (words wordIndex : Nat)
    (hend : words = 0 ∨ (words + wordIndex - 1) * bitsPerWord < m.bitCount) :
    ∃ r, m.allocFrom words wordIndex = .ok r
      ∧ ∀ m' id, r = some (m', id) → m'.Sound ∧ Same m m'
        ∧ m.baseId < id ∧ id < m.baseId + m.bitCount := by
  induction words generalizing wordIndex with
  | zero => exact ⟨none, rfl, nofun⟩
  | succ words ih =>
    have hend : (words + wordIndex) * bitsPerWord < m.bitCount := by
      rcases hend with hend | hend
      · cases hend
      · rw [show words + 1 + wordIndex - 1 = words + wordIndex by omega]
          at hend
        exact hend
    have hword : wordIndex * bitsPerWord < m.bitCount := by
      unfold bitsPerWord at hend ⊢
      omega
    obtain ⟨word, hread⟩ := h.readWord_ok hword
    unfold allocFrom
    rw [hread]
    dsimp only
    split
    next =>
      apply ih
      by_cases hwords : words = 0
      · exact .inl hwords
      · right
        rw [show words + (wordIndex + 1) - 1 = words + wordIndex by omega]
        exact hend
    next hfree =>
      split
      next => exact ⟨none, rfl, nofun⟩
      next hbit =>
        obtain ⟨m', hmodify, hsound, hsame⟩ := h.modifyWord_ok
          (· ||| 1#64 <<< (~~~word).ctz.toNat) hword (fun _ w hw => by
            rw [BitVec.getLsbD_or, hw, Bool.true_or])
        rw [hmodify]
        refine ⟨_, rfl, fun m₁ id hr => ?_⟩
        cases hr
        have hpos : 0 < wordIndex * bitsPerWord + (~~~word).ctz.toNat := by
          apply Nat.pos_of_ne_zero
          intro hzero
          -- the first bit of the first word is never free
          have hindex : wordIndex = 0 := by
            unfold bitsPerWord at hzero
            omega
          have hctz : (~~~word).ctz.toNat = 0 := by omega
          subst hindex
          have hset := BitVec.getLsbD_true_ctz_of_ne_zero hfree
          rw [hctz, BitVec.getLsbD_not, h.first_word hread] at hset
          cases hset
        exact ⟨hsound, hsame, by omega, by omega⟩

theorem Sound.alloc_ok (h : m.Sound) : ∃ r, m.alloc = .ok r
    ∧ ∀ m' id, r = some (m', id) → m'.Sound ∧ Same m m'
      ∧ m.baseId < id ∧ id < m.baseId + m.bitCount := by
  apply h.allocFrom_ok
  unfold bitsPerWord
  omega

theorem Sound.dealloc_ok (h : m.Sound) (id : Nat) (hlow : m.baseId < id)
    (hhigh : id < m.baseId + m.bitCount) :
    ∃ m', m.dealloc id = .ok m' ∧ m'.Sound ∧ Same m m' := by
  unfold dealloc
  rw [if_neg (by omega)]
  rw [if_neg (by omega)]
  apply h.modifyWord_ok
  · unfold bitsPerWord
    omega
  · intro hword w hw
    have hbit : (id - m.baseId) % bitsPerWord ≠ 0 := by
      unfold bitsPerWord at hword ⊢
      omega
    rw [BitVec.getLsbD_and, hw, BitVec.getLsbD_not, BitVec.getLsbD_shiftLeft]
    simp [hbit, Nat.pos_of_ne_zero hbit]

theorem Sound.usedFrom_ok (h : m.Sound) (words wordIndex : Nat)
    (hend : (words + wordIndex) * bitsPerWord ≤ m.bitCount) :
    ∃ used, m.usedFrom words wordIndex = .ok used
      ∧ used ≤ words * bitsPerWord := by
  induction words generalizing wordIndex with
  | zero => exact ⟨0, rfl, Nat.zero_le _⟩
  | succ words ih =>
    obtain ⟨word, hread⟩ := h.readWord_ok (i := wordIndex) (by
      unfold bitsPerWord at hend ⊢
      omega)
    obtain ⟨used, hused, hle⟩ := ih (wordIndex + 1) (by
      rw [show words + (wordIndex + 1) = words + 1 + wordIndex by omega]
      exact hend)
    unfold usedFrom
    rw [hread]
    rw [hused]
    refine ⟨_, rfl, ?_⟩
    have hone := BitVec.toNat_cpop_le word
    show word.cpop.toNat + used ≤ _
    unfold bitsPerWord at hle ⊢
    omega

theorem and_mask_eq {remaining : Nat} (word : BitVec 64)
    (h : remaining < 64) : word &&& (1#64 <<< remaining - 1#64)
      = (word.setWidth remaining).setWidth 64 := by
  have hpow : 2 ^ remaining < 2 ^ 64 := Nat.pow_lt_pow_right (by decide) h
  have hpos : 0 < 2 ^ remaining := Nat.two_pow_pos remaining
  have hshift : (1#64 <<< remaining).toNat = 2 ^ remaining := by
    rw [BitVec.toNat_shiftLeft, Nat.shiftLeft_eq,
      show (1#64).toNat = 1 from rfl, Nat.one_mul, Nat.mod_eq_of_lt hpow]
  have hmask : (1#64 <<< remaining - 1#64).toNat = 2 ^ remaining - 1 := by
    rw [BitVec.toNat_sub_of_le, hshift]
    · rfl
    · rw [BitVec.le_def, hshift]
      exact hpos
  apply BitVec.eq_of_toNat_eq
  rw [BitVec.toNat_and, hmask, Nat.and_two_pow_sub_one_eq_mod,
    BitVec.toNat_setWidth, BitVec.toNat_setWidth,
    Nat.mod_eq_of_lt (a := word.toNat % 2 ^ remaining)]
  exact Nat.lt_trans (Nat.mod_lt _ hpos) hpow

theorem cpop_mask_le {remaining : Nat} (word : BitVec 64)
    (h : remaining < 64) :
    (word &&& (1#64 <<< remaining - 1#64)).cpop.toNat ≤ remaining := by
  rw [and_mask_eq word h, BitVec.toNat_cpop_setWidth_eq_of_le (Nat.le_of_lt h)]
  exact BitVec.toNat_cpop_le _

/-- The free count does not underflow. -/
theorem Sound.countFree_ok (h : m.Sound) :
    ∃ free, m.countFree = .ok free ∧ free ≤ m.bitCount := by
  obtain ⟨full, hfull, hle⟩ := h.usedFrom_ok (m.bitCount / bitsPerWord) 0 (by
    unfold bitsPerWord
    omega)
  have htail : ∃ tail, m.usedInTail (m.bitCount / bitsPerWord)
      (m.bitCount % bitsPerWord) = .ok tail
      ∧ tail ≤ m.bitCount % bitsPerWord := by
    unfold usedInTail
    split
    next hpos =>
      obtain ⟨word, hread⟩ := h.readWord_ok (i := m.bitCount / bitsPerWord) (by
          unfold bitsPerWord at hpos ⊢
          omega)
      rw [hread]
      exact ⟨_, rfl, cpop_mask_le word (Nat.mod_lt _ (by decide))⟩
    next => exact ⟨0, rfl, Nat.zero_le _⟩
  obtain ⟨tail, htail, hmod⟩ := htail
  unfold countFree
  dsimp only
  rw [hfull, htail]
  dsimp only
  rw [if_pos (by
    unfold bitsPerWord at hle hmod
    omega)]
  exact ⟨_, rfl, Nat.sub_le _ _⟩

end Bitmap

-- ======== operations

/-- `write_inode`, as far as its bounds go: the block that holds the inode
is read first. -/
def writeInode (dev : Device) (sb : DiskSuperBlock)
    (inodeNumber : BitVec 16) : Except Fault Unit :=
  if inodeNumber = 0#16 then .error .panicked
  else match dev (inodeBlockPosition sb inodeNumber).1 with
    | none => .error .panicked
    | some _ => .ok ()

/-- The calls that use the bitmaps or the inode table. -/
inductive VolumeOp
  | lookupInode (word : Nat)
  | lookupZone (word : Nat)
  | countFree
  | allocInode
  | allocZone
  | freeInode (inodeNumber : BitVec 16)
  | freeZone (zone : Zone)
  | readInode (inodeNumber : BitVec 16)

namespace MinixFileSystem

def allocInode (dev : Device) (fs : MinixFileSystem) :
    Except Fault MinixFileSystem :=
  match fs.inodeBitmap.alloc with
  | .error e => .error e
  | .ok none => .ok fs
  | .ok (some (bitmap, id)) =>
    (writeInode dev fs.superBlock (BitVec.ofNat 16 id)).map fun _ =>
      { fs with inodeBitmap := bitmap }

def allocZone (fs : MinixFileSystem) : Except Fault MinixFileSystem :=
  match fs.zoneBitmap.alloc with
  | .error e => .error e
  | .ok none => .ok fs
  | .ok (some (bitmap, _)) => .ok { fs with zoneBitmap := bitmap }

def freeInode (dev : Device) (fs : MinixFileSystem)
    (inodeNumber : BitVec 16) : Except Fault MinixFileSystem :=
  match writeInode dev fs.superBlock inodeNumber with
  | .error e => .error e
  | .ok _ =>
    (fs.inodeBitmap.dealloc inodeNumber.toNat).map fun bitmap =>
      { fs with inodeBitmap := bitmap }

def freeZone (fs : MinixFileSystem) (zone : Zone) :
    Except Fault MinixFileSystem :=
  if zone = 0#16 then .ok fs
  else (fs.zoneBitmap.dealloc zone.toNat).map fun bitmap =>
    { fs with zoneBitmap := bitmap }

def step (dev : Device) (fs : MinixFileSystem) :
    VolumeOp → Except Fault MinixFileSystem
  | .lookupInode word => (fs.inodeBitmap.readWord word).map fun _ => fs
  | .lookupZone word => (fs.zoneBitmap.readWord word).map fun _ => fs
  | .countFree =>
    match fs.zoneBitmap.countFree with
    | .error e => .error e
    | .ok _ => fs.inodeBitmap.countFree.map fun _ => fs
  | .allocInode => fs.allocInode dev
  | .allocZone => fs.allocZone
  | .freeInode inodeNumber => fs.freeInode dev inodeNumber
  | .freeZone zone => fs.freeZone zone
  | .readInode inodeNumber =>
    (Volume.readInode dev fs.superBlock inodeNumber).map fun _ => fs

/-- What the operations ask of their callers: a word holds bits of the
bitmap, what is given back is an identifier that an allocation can return,
and an inode number is one of the volume's. -/
def allowed (fs : MinixFileSystem) : VolumeOp → Bool
  | .lookupInode word => word * bitsPerWord < fs.inodeBitmap.bitCount
  | .lookupZone word => word * bitsPerWord < fs.zoneBitmap.bitCount
  | .freeInode inodeNumber => 1 ≤ inodeNumber.toNat
      ∧ inodeNumber.toNat ≤ fs.superBlock.inodeCount.toNat
  | .freeZone zone => fs.superBlock.firstDataZone.toNat ≤ zone.toNat
      ∧ zone.toNat < fs.superBlock.zoneCount.toNat
  | .readInode inodeNumber => 1 ≤ inodeNumber.toNat
      ∧ inodeNumber.toNat ≤ fs.superBlock.inodeCount.toNat
  | _ => true

def next (dev : Device) (fs : MinixFileSystem) (op : VolumeOp) :
    Option MinixFileSystem :=
  if fs.allowed op then (step dev fs op).toOption else none

/-- No operation panics after any others, and what is allocated belongs to
the volume. -/
structure Safe (dev : Device) (fs : MinixFileSystem) : Prop where
  runs : ∀ fs', Reachable (next dev) fs fs' → ∀ op,
    fs'.allowed op = true → ∃ fs'', step dev fs' op = .ok fs''
  inodes : ∀ fs', Reachable (next dev) fs fs' → ∀ bitmap id,
    fs'.inodeBitmap.alloc = .ok (some (bitmap, id)) →
      1 ≤ id ∧ id ≤ fs.superBlock.inodeCount.toNat
  zones : ∀ fs', Reachable (next dev) fs fs' → ∀ bitmap id,
    fs'.zoneBitmap.alloc = .ok (some (bitmap, id)) →
      fs.superBlock.firstDataZone.toNat ≤ id
        ∧ id < fs.superBlock.zoneCount.toNat

/-- Every block of the inode table lies on the device. -/
def TableReadable (dev : Device) (sb : DiskSuperBlock) : Prop :=
  ∀ n : BitVec 16, 1 ≤ n.toNat → n.toNat ≤ sb.inodeCount.toNat →
    (dev (inodeBlockPosition sb n).1).isSome = true

/-- What every operation keeps of a volume whose inode table can be read. -/
structure Inv (dev : Device) (sb : DiskSuperBlock) (fs : MinixFileSystem) :
    Prop where
  superBlock : fs.superBlock = sb
  inode : fs.inodeBitmap.Sound
  inodeBase : fs.inodeBitmap.baseId = 0
  inodeBits : fs.inodeBitmap.bitCount = sb.inodeCount.toNat + 1
  zone : fs.zoneBitmap.Sound
  zoneBase : fs.zoneBitmap.baseId + 1 = sb.firstDataZone.toNat
  zoneBits : fs.zoneBitmap.baseId + fs.zoneBitmap.bitCount = sb.zoneCount.toNat

variable {dev : Device} {sb : DiskSuperBlock} {fs fs' : MinixFileSystem}

theorem Inv.with_inodes {m : Bitmap} (h : Inv dev sb fs) (hm : m.Sound)
    (hsame : Bitmap.Same fs.inodeBitmap m) :
    Inv dev sb { fs with inodeBitmap := m } :=
  ⟨h.superBlock, hm, hsame.baseId.trans h.inodeBase,
    hsame.bitCount.trans h.inodeBits, h.zone, h.zoneBase, h.zoneBits⟩

theorem Inv.with_zones {m : Bitmap} (h : Inv dev sb fs) (hm : m.Sound)
    (hsame : Bitmap.Same fs.zoneBitmap m) :
    Inv dev sb { fs with zoneBitmap := m } := by
  refine ⟨h.superBlock, h.inode, h.inodeBase, h.inodeBits, hm, ?_, ?_⟩
  · dsimp only
    rw [hsame.baseId]
    exact h.zoneBase
  · dsimp only
    rw [hsame.baseId, hsame.bitCount]
    exact h.zoneBits

theorem TableReadable.position (h : TableReadable dev sb) {n : BitVec 16}
    (hlow : 1 ≤ n.toNat) (hhigh : n.toNat ≤ sb.inodeCount.toNat) :
    ∃ b, dev (inodeBlockPosition sb n).1 = some b :=
  Option.isSome_iff_exists.mp (h n hlow hhigh)

theorem TableReadable.writeInode_ok (h : TableReadable dev sb) {n : BitVec 16}
    (hlow : 1 ≤ n.toNat) (hhigh : n.toNat ≤ sb.inodeCount.toNat) :
    writeInode dev sb n = .ok () := by
  obtain ⟨b, hb⟩ := h.position hlow hhigh
  unfold writeInode
  rw [if_neg, hb]
  intro hzero
  rw [hzero] at hlow
  cases hlow

/-- An allowed operation on an opened volume returns, and keeps the
invariant. -/
theorem Inv.step (h : Inv dev sb fs) (htable : TableReadable dev sb)
    {op : VolumeOp} (hop : fs.allowed op = true) :
    ∃ fs', step dev fs op = .ok fs' ∧ Inv dev sb fs' := by
  obtain rfl := h.superBlock
  cases op with
  | lookupInode word =>
    obtain ⟨w, hw⟩ := h.inode.readWord_ok (of_decide_eq_true hop)
    refine ⟨fs, ?_, h⟩
    show (fs.inodeBitmap.readWord word).map _ = _
    rw [hw]
    rfl
  | lookupZone word =>
    obtain ⟨w, hw⟩ := h.zone.readWord_ok (of_decide_eq_true hop)
    refine ⟨fs, ?_, h⟩
    show (fs.zoneBitmap.readWord word).map _ = _
    rw [hw]
    rfl
  | countFree =>
    obtain ⟨zones, hzones, -⟩ := h.zone.countFree_ok
    obtain ⟨inodes, hinodes, -⟩ := h.inode.countFree_ok
    refine ⟨fs, ?_, h⟩
    unfold MinixFileSystem.step
    rw [hzones, hinodes]
    rfl
  | allocInode =>
    obtain ⟨r, hr, hsound⟩ := h.inode.alloc_ok
    unfold MinixFileSystem.step
    unfold allocInode
    rw [hr]
    cases r with
    | none => exact ⟨fs, rfl, h⟩
    | some r =>
      obtain ⟨m, id⟩ := r
      obtain ⟨hm, hsame, hlow, hhigh⟩ := hsound m id rfl
      rw [h.inodeBase] at hlow hhigh
      rw [h.inodeBits] at hhigh
      have hword := fs.superBlock.inodeCount.isLt
      have hid : (BitVec.ofNat 16 id).toNat = id := by
        rw [BitVec.toNat_ofNat]
        exact Nat.mod_eq_of_lt (by omega)
      dsimp only
      rw [htable.writeInode_ok (by omega) (by omega)]
      exact ⟨_, rfl, h.with_inodes hm hsame⟩
  | allocZone =>
    obtain ⟨r, hr, hsound⟩ := h.zone.alloc_ok
    unfold MinixFileSystem.step
    unfold allocZone
    rw [hr]
    cases r with
    | none => exact ⟨fs, rfl, h⟩
    | some r =>
      obtain ⟨m, id⟩ := r
      obtain ⟨hm, hsame, -⟩ := hsound m id rfl
      exact ⟨_, rfl, h.with_zones hm hsame⟩
  | freeInode inodeNumber =>
    obtain ⟨hlow, hhigh⟩ := of_decide_eq_true hop
    obtain ⟨m, hm, hsound, hsame⟩ := h.inode.dealloc_ok inodeNumber.toNat (by
        rw [h.inodeBase]
        exact hlow)
      (by
        rw [h.inodeBase, h.inodeBits]
        omega)
    unfold MinixFileSystem.step
    dsimp only
    unfold freeInode
    rw [htable.writeInode_ok hlow hhigh, hm]
    exact ⟨_, rfl, h.with_inodes hsound hsame⟩
  | freeZone zone =>
    obtain ⟨hlow, hhigh⟩ := of_decide_eq_true hop
    have hbase := h.zoneBase
    have hbits := h.zoneBits
    obtain ⟨m, hm, hsound, hsame⟩ := h.zone.dealloc_ok
      zone.toNat (by omega) (by omega)
    unfold MinixFileSystem.step
    dsimp only
    unfold freeZone
    split
    next => exact ⟨fs, rfl, h⟩
    next =>
      rw [hm]
      exact ⟨_, rfl, h.with_zones hsound hsame⟩
  | readInode inodeNumber =>
    obtain ⟨hlow, hhigh⟩ := of_decide_eq_true hop
    obtain ⟨b, hb⟩ := htable.position hlow hhigh
    refine ⟨fs, ?_, h⟩
    unfold MinixFileSystem.step
    unfold Volume.readInode
    dsimp only
    rw [hb]
    rfl

end MinixFileSystem

-- ======== opening

variable {sb : DiskSuperBlock}

/-- What `open` refuses: a device whose super block cannot be read or is not
of its kind, or with a bitmap block that cannot be read. -/
def Refused (dev : Device) : Prop :=
  ∀ b, dev 1 = some b → (DiskSuperBlock.decode b).magic ≠ minixSuperMagic
      ∨ (DiskSuperBlock.decode b).logZoneSize ≠ 0#16
      ∨ ∃ k, k < (DiskSuperBlock.decode b).inodeBitmapBlockCount.toNat
          + (DiskSuperBlock.decode b).zoneBitmapBlockCount.toNat
        ∧ dev (2 + k) = none

/-- Counts that the bitmaps can be built from: the data zones begin behind
block 0 and not behind the last zone, and the blocks of either bitmap are
enough for its bits and no more than there are slots. -/
structure Fits (sb : DiskSuperBlock) : Prop where
  firstZone : 1 ≤ sb.firstDataZone.toNat
  zones : sb.firstDataZone.toNat ≤ sb.zoneCount.toNat
  inodeSlots : sb.inodeBitmapBlockCount.toNat ≤ minixBitmapBlockCapacity
  zoneSlots : sb.zoneBitmapBlockCount.toNat ≤ minixBitmapBlockCapacity
  inodeBits : sb.inodeCount.toNat + 1
    ≤ sb.inodeBitmapBlockCount.toNat * bitsPerBlock
  zoneBits : sb.zoneCount.toNat - sb.firstDataZone.toNat + 1
    ≤ sb.zoneBitmapBlockCount.toNat * bitsPerBlock

theorem readBlocks_cases (dev : Device) (n start : Nat) :
    (readBlocks dev start n = none ∧ ∃ k, k < n ∧ dev (start + k) = none)
      ∨ ∃ l, readBlocks dev start n = some l ∧ l.length = n
        ∧ ∀ k, k < n → dev (start + k) ≠ none := by
  induction n generalizing start with
  | zero => exact .inr ⟨[], rfl, rfl, nofun⟩
  | succ n ih =>
    have hread : readBlocks dev start (n + 1) = (dev start).bind fun b =>
        (readBlocks dev (start + 1) n).bind fun rest =>
          some ((start, b) :: rest) := rfl
    rw [hread]
    cases hb : dev start with
    | none => exact .inl ⟨rfl, 0, Nat.succ_pos n, hb⟩
    | some b =>
      rcases ih (start + 1) with ⟨hnone, k, hk, hdev⟩ | ⟨l, hl, hlen, hall⟩
      · rw [hnone]
        refine .inl ⟨rfl, k + 1, Nat.succ_lt_succ hk, ?_⟩
        rw [show start + (k + 1) = start + 1 + k by omega]
        exact hdev
      · rw [hl]
        refine .inr ⟨_, rfl, congrArg Nat.succ hlen, fun k hk => ?_⟩
        cases k with
        | zero =>
          rw [Nat.add_zero, hb]
          exact Option.some_ne_none b
        | succ k =>
          rw [show start + (k + 1) = start + 1 + k by omega]
          exact hall k (Nat.lt_of_succ_lt_succ hk)

end LinuxRs.Minix.Volume
