/-
What holds of a volume while files are written: no two pointers of its
files lead to the same zone, and every zone that a pointer leads to is
taken in the zone bitmap (`Laid`).

# One step of growth

`map_block_id` grows a file by fresh zones, each hung where a hole was. A
fresh zone is zeroed, so what a file shows at a hole, it shows afterwards:
`Kept` says that a growth changes neither the contents nor the record of
any file apart from pointers. `attach_kept` proves it once for all places
a zone can be hung at, from the `attach` lemmas about pointer paths.
-/
import LinuxRs.Minix.FileIo
import LinuxRs.Miniximg.Zones
import Mathlib.Data.List.GetD
import Mathlib.Data.List.Nodup

namespace LinuxRs.Minix

open Function (update update_self update_of_ne)

open LinuxRs.Lib
open LinuxRs.Miniximg (PointerPath Slot slotOf zoneAt owns Unique tableOf entryOf
  EntryWritten)

namespace FileStore

-- ======== the bits

theorem bitBlock_mem {s : FileStore} {bit : Nat}
    (h : bit < s.zoneBitmap.buffers.length * bitsPerBlock) :
    s.bitBlock bit ∈ s.zoneBitmap.buffers := by
  unfold bitBlock
  have hlt : bit / bitsPerBlock < s.zoneBitmap.buffers.length :=
    Nat.div_lt_of_lt_mul (by rw [Nat.mul_comm]; exact h)
  rw [List.getD_eq_getElem _ _ hlt]
  exact List.getElem_mem hlt

theorem readBit_congr {s s' : FileStore} {bit : Nat}
    (hmap : s'.zoneBitmap = s.zoneBitmap)
    (hbit : bit < s.zoneBitmap.buffers.length * bitsPerBlock)
    (hblocks : ∀ b ∈ s.zoneBitmap.buffers, s'.blocks b = s.blocks b) :
    s'.readBit bit = s.readBit bit := by
  have hsame : s'.bitBlock bit = s.bitBlock bit := by
    unfold bitBlock
    rw [hmap]
  unfold readBit
  rw [hsame, hblocks _ (bitBlock_mem hbit)]

theorem getLsbD_shift :
    ∀ i < 8, ∀ j < 8, (1#8 <<< i).getLsbD j = decide (i = j) := by
  decide

theorem readBit_setBit_self (s : FileStore) (bit : Nat) :
    (s.setBit bit).readBit bit = true := by
  unfold readBit setBit
  simp only [bitBlock, update_self]
  rw [BitVec.getLsbD_or, getLsbD_shift _ (by omega) _ (by omega)]
  simp

theorem bit_place {bit bit' : Nat} (hne : bit' ≠ bit)
    (hblock : bit' / bitsPerBlock = bit / bitsPerBlock)
    (hbyte : bitByte bit' = bitByte bit) : bit % 8 ≠ bit' % 8 := by
  unfold bitByte bitsPerBlock at *
  omega

/-- Setting a bit changes no other, also in the same byte. -/
theorem readBit_setBit_of_ne {s : FileStore} {bit bit' : Nat}
    (hnodup : s.zoneBitmap.buffers.Nodup)
    (hbit : bit < s.zoneBitmap.buffers.length * bitsPerBlock)
    (hbit' : bit' < s.zoneBitmap.buffers.length * bitsPerBlock)
    (hne : bit' ≠ bit) : (s.setBit bit).readBit bit' = s.readBit bit' := by
  have hlt : bit / bitsPerBlock < s.zoneBitmap.buffers.length :=
    Nat.div_lt_of_lt_mul (by rw [Nat.mul_comm]; exact hbit)
  have hlt' : bit' / bitsPerBlock < s.zoneBitmap.buffers.length :=
    Nat.div_lt_of_lt_mul (by rw [Nat.mul_comm]; exact hbit')
  show (update s.blocks (s.bitBlock bit) _ (s.bitBlock bit')
    (bitByte bit')).getLsbD (bit' % 8) = _
  by_cases hblock : s.bitBlock bit' = s.bitBlock bit
  · have hdiv : bit' / bitsPerBlock = bit / bitsPerBlock := by
      unfold bitBlock at hblock
      rw [List.getD_eq_getElem _ _ hlt, List.getD_eq_getElem _ _ hlt'] at hblock
      exact (List.Nodup.getElem_inj_iff hnodup).mp hblock
    rw [hblock, update_self]
    by_cases hbyte : bitByte bit' = bitByte bit
    · rw [hbyte, update_self, BitVec.getLsbD_or,
        getLsbD_shift _ (by omega) _ (by omega),
        decide_eq_false (bit_place hne hdiv hbyte), Bool.or_false, ← hbyte,
        ← hblock]
      rfl
    · rw [update_of_ne hbyte, ← hblock]
      rfl
  · rw [update_of_ne hblock]
    rfl

theorem scanWords_some {s : FileStore} {words wordIndex bit : Nat}
    (h : s.scanWords words wordIndex = some bit) :
    bit < s.zoneBitmap.bitCount ∧ s.readBit bit = false := by
  induction words generalizing wordIndex with
  | zero => cases h
  | succ words ih =>
    unfold scanWords at h
    split at h
    next => exact ih h
    next k hfree =>
      split at h
      next => cases h
      next hlt =>
        cases h
        have hk := List.find?_some hfree
        exact ⟨by omega, by simpa using hk⟩

-- ======== the layout

/-- An inode whose pointers lead to zones; those of a device do not. -/
def IsFile (s : FileStore) (m : InodeNumber) : Prop :=
  (s.disk m).mode.fileType = some .regular
    ∨ (s.disk m).mode.fileType = some .directory

def zone (s : FileStore) (m : InodeNumber) (p : PointerPath) : Zone :=
  zoneAt s.blocks (s.disk m) p

/-- The zone's bit is set. -/
def Taken (s : FileStore) (z : Zone) : Prop :=
  ∃ bit, 0 < bit ∧ bit < s.zoneBitmap.bitCount
    ∧ z.toNat = s.zoneBitmap.baseId + bit ∧ s.readBit bit = true

/-- The bitmap fits into its blocks and lies in front of the zones; the
zones of files are taken, and no two pointers lead to the same one. -/
structure Laid (s : FileStore) : Prop where
  capacity : s.zoneBitmap.bitCount ≤ s.zoneBitmap.buffers.length * bitsPerBlock
  nodup : s.zoneBitmap.buffers.Nodup
  below : ∀ b ∈ s.zoneBitmap.buffers, b ≤ s.zoneBitmap.baseId
  range : s.zoneBitmap.baseId + s.zoneBitmap.bitCount ≤ 65536
  reserved : s.readBit 0 = true
  taken : ∀ m, s.IsFile m → ∀ p, s.zone m p ≠ 0#16 → s.Taken (s.zone m p)
  apart : ∀ m m', s.IsFile m → s.IsFile m' → ∀ p p', s.zone m p ≠ 0#16 →
    s.zone m p = s.zone m' p' → m = m' ∧ p = p'

theorem Taken.not_mem {s : FileStore} {z : Zone} (hs : s.Laid)
    (h : s.Taken z) : z.toNat ∉ s.zoneBitmap.buffers := by
  obtain ⟨bit, hpos, -, hz, -⟩ := h
  intro hmem
  have := hs.below _ hmem
  omega

theorem Laid.unique {s : FileStore} (hs : s.Laid) {n : InodeNumber}
    (hn : s.IsFile n) : Unique (zoneAt s.blocks (s.disk n)) :=
  fun p q hp heq => (hs.apart n n hn hn p q hp heq).2

-- ======== fresh

/-- What allocating a zone does: it was free, now it is taken and zeroed,
and the blocks of taken zones are as before. -/
structure Fresh (s s' : FileStore) (z : Zone) : Prop where
  nonzero : z ≠ 0#16
  free : ¬ s.Taken z
  taken : s'.Taken z
  grows : ∀ y, s.Taken y → s'.Taken y
  zeroed : s'.blocks z.toNat = zeroBlock
  blocks : ∀ y, s.Taken y → s'.blocks y.toNat = s.blocks y.toNat
  bitmap : s'.zoneBitmap = s.zoneBitmap
  reserved : s'.readBit 0 = true
  inode : s'.inode = s.inode

/-- An allocated zone was free, is zero now and is the only change. -/
theorem allocZone_fresh {s s' : FileStore} {z : Zone} (hs : s.Laid)
    (h : s.allocZone = some (s', z)) : Fresh s s' z := by
  obtain ⟨⟨t, id⟩, halloc, heq⟩ := Option.map_eq_some_iff.mp h
  cases heq
  obtain ⟨bit, hscan, heq⟩ := Option.map_eq_some_iff.mp halloc
  cases heq
  obtain ⟨hlt, hclear⟩ := scanWords_some hscan
  have hcapacity := hs.capacity
  have hpos : 0 < bit := by
    rcases Nat.eq_zero_or_pos bit with rfl | hpos
    · rw [hs.reserved] at hclear
      cases hclear
    · exact hpos
  have hrange := hs.range
  have hz : (BitVec.ofNat 16 (s.zoneBitmap.baseId + bit)).toNat
      = s.zoneBitmap.baseId + bit := by
    rw [BitVec.toNat_ofNat, Nat.mod_eq_of_lt (by omega)]
  -- the zone is no block of the bitmap, so clearing it leaves the bits
  have hout : ∀ b ∈ s.zoneBitmap.buffers,
      b ≠ (BitVec.ofNat 16 (s.zoneBitmap.baseId + bit)).toNat := by
    intro b hb heq
    have := hs.below b hb
    omega
  have hbits : ∀ b < s.zoneBitmap.buffers.length * bitsPerBlock,
      FileStore.readBit { s.setBit bit with
        blocks := update (s.setBit bit).blocks
          (BitVec.ofNat 16 (s.zoneBitmap.baseId + bit)).toNat zeroBlock } b
        = (s.setBit bit).readBit b := by
    intro b hb
    refine readBit_congr rfl hb ?_
    intro b' hb'
    exact update_of_ne (hout b' hb') _ _
  constructor
  case nonzero =>
    intro hzero
    rw [hzero] at hz
    simp at hz
    omega
  case free =>
    intro htaken
    obtain ⟨bit', -, -, hz', hset⟩ := htaken
    rw [hz] at hz'
    obtain rfl : bit = bit' := by omega
    rw [hclear] at hset
    cases hset
  case taken =>
    refine ⟨bit, hpos, hlt, hz, ?_⟩
    rw [hbits bit (by omega)]
    exact readBit_setBit_self s bit
  case grows =>
    intro y hy
    obtain ⟨bit', hpos', hlt', hy, hset⟩ := hy
    refine ⟨bit', hpos', hlt', hy, ?_⟩
    rw [hbits bit' (by omega)]
    by_cases hne : bit' = bit
    · rw [hne]
      exact readBit_setBit_self s bit
    · rw [readBit_setBit_of_ne hs.nodup (by omega) (by omega) hne]
      exact hset
  case zeroed => exact update_self _ _ _
  case blocks =>
    intro y hy
    have hne : y.toNat ≠ (BitVec.ofNat 16 (s.zoneBitmap.baseId + bit)).toNat := by
      obtain ⟨bit', -, -, hy', hset⟩ := hy
      intro heq
      obtain rfl : bit = bit' := by omega
      rw [hclear] at hset
      cases hset
    show update (s.setBit bit).blocks _ _ y.toNat = _
    rw [update_of_ne hne]
    have hmem : s.bitBlock bit ∈ s.zoneBitmap.buffers :=
      bitBlock_mem (by omega)
    have hne' : y.toNat ≠ s.bitBlock bit :=
      fun heq => hy.not_mem hs (heq ▸ hmem)
    exact update_of_ne hne' _ _
  case bitmap => rfl
  case reserved =>
    rw [hbits 0 (by omega), readBit_setBit_of_ne hs.nodup (by omega)
      (by omega) (by omega)]
    exact hs.reserved
  case inode => rfl

-- ======== growth

def content (s : FileStore) (m : InodeNumber) (p : PointerPath) : Block :=
  if s.zone m p = 0#16 then zeroBlock else s.blocks (s.zone m p).toNat

/-- The files are as they were. -/
structure Kept (s s' : FileStore) : Prop where
  laid : s'.Laid
  mode : ∀ m, (s'.disk m).mode = (s.disk m).mode
  size : ∀ m, (s'.disk m).size = (s.disk m).size
  content : ∀ m, s.IsFile m → ∀ p, p.isData → s'.content m p = s.content m p

namespace Kept

variable {s s' s'' : FileStore}

theorem refl (hs : s.Laid) : Kept s s :=
  ⟨hs, fun _ => rfl, fun _ => rfl, fun _ _ _ _ => rfl⟩

theorem isFile (h : Kept s s') {m : InodeNumber} :
    s'.IsFile m ↔ s.IsFile m := by
  unfold IsFile
  rw [h.mode m]

theorem trans (h : Kept s s') (h' : Kept s' s'') : Kept s s'' where
  laid := h'.laid
  mode m := (h'.mode m).trans (h.mode m)
  size m := (h'.size m).trans (h.size m)
  content m hm p hp :=
    (h'.content m (h.isFile.mpr hm) p hp).trans (h.content m hm p hp)

end Kept

/-- A fresh zone hung at a hole of inode `n`, with one block written on the
way: a table of the inode, or none. -/
structure Hung (s s₁ s₂ : FileStore) (n : InodeNumber) (p : PointerPath)
    (z t : Zone) : Prop where
  fresh : Fresh s s₁ z
  table : t = 0#16 ∨ ∃ q, ¬ q.isData ∧ s.zone n q = t
  blocks : ∀ b, b ≠ t.toNat ∨ t = 0#16 → s₂.blocks b = s₁.blocks b
  bitmap : s₂.zoneBitmap = s₁.zoneBitmap
  inode : ∀ m, m ≠ n → s₂.inode m = s₁.inode m
  mode : (s₂.disk n).mode = (s.disk n).mode
  size : (s₂.disk n).size = (s.disk n).size
  hole : s.zone n p = 0#16
  attach : s₂.zone n = update (s.zone n) p z

namespace Hung

variable {s s₁ s₂ : FileStore} {n : InodeNumber} {p : PointerPath} {z t : Zone}

theorem taken_table (h : Hung s s₁ s₂ n p z t) (hs : s.Laid)
    (hn : s.IsFile n) (ht : t ≠ 0#16) : s.Taken t := by
  rcases h.table with hzero | ⟨q, -, hq⟩
  · exact absurd hzero ht
  · have := hs.taken n hn q
    rw [hq] at this
    exact this ht

theorem block (h : Hung s s₁ s₂ n p z t) {b : Nat}
    (hb : t ≠ 0#16 → b ≠ t.toNat) : s₂.blocks b = s₁.blocks b := by
  apply h.blocks
  by_cases ht : t = 0#16
  · exact .inr ht
  · exact .inl (hb ht)

theorem readBit (h : Hung s s₁ s₂ n p z t) (hs : s.Laid) (hn : s.IsFile n)
    {bit : Nat} (hbit : bit < s.zoneBitmap.bitCount ∨ bit = 0)
    (hcount : 0 < s.zoneBitmap.bitCount) :
    s₂.readBit bit = s₁.readBit bit := by
  have hcapacity := hs.capacity
  refine readBit_congr h.bitmap ?_ ?_
  · rw [h.fresh.bitmap]
    omega
  · intro b hb
    rw [h.fresh.bitmap] at hb
    refine h.block fun ht heq => ?_
    exact (h.taken_table hs hn ht).not_mem hs (heq ▸ hb)

theorem bitCount_pos (h : Hung s s₁ s₂ n p z t) :
    0 < s.zoneBitmap.bitCount := by
  obtain ⟨bit, -, hlt, -⟩ := h.fresh.taken
  rw [h.fresh.bitmap] at hlt
  omega

theorem taken_iff (h : Hung s s₁ s₂ n p z t) (hs : s.Laid) (hn : s.IsFile n)
    (y : Zone) : s₂.Taken y ↔ s₁.Taken y := by
  have hbits : ∀ bit < s.zoneBitmap.bitCount, s₂.readBit bit = s₁.readBit bit :=
    fun bit hbit => h.readBit hs hn (.inl hbit) h.bitCount_pos
  unfold Taken
  rw [h.bitmap, h.fresh.bitmap]
  constructor
  · intro hy
    obtain ⟨bit, hpos, hlt, hz, hset⟩ := hy
    exact ⟨bit, hpos, hlt, hz, hbits bit hlt ▸ hset⟩
  · intro hy
    obtain ⟨bit, hpos, hlt, hz, hset⟩ := hy
    exact ⟨bit, hpos, hlt, hz, (hbits bit hlt).symm ▸ hset⟩

theorem disk_of_ne (h : Hung s s₁ s₂ n p z t) {m : InodeNumber}
    (hm : m ≠ n) : s₂.disk m = s.disk m := by
  unfold disk
  rw [h.inode m hm, h.fresh.inode]

theorem zone_of_ne (h : Hung s s₁ s₂ n p z t) (hs : s.Laid) (hn : s.IsFile n)
    {m : InodeNumber} (hm : s.IsFile m) (hne : m ≠ n) :
    s₂.zone m = s.zone m := by
  unfold zone
  rw [h.disk_of_ne hne]
  refine Miniximg.zoneAt_congr fun y hy => ?_
  obtain ⟨hy0, q, hq⟩ := hy
  have htaken : s.Taken y := hq ▸ hs.taken m hm q (by rw [zone, hq]; exact hy0)
  rw [h.block, h.fresh.blocks y htaken]
  intro ht heq
  rcases h.table with hzero | ⟨q', -, hq'⟩
  · exact ht hzero
  · have hyt : y = t := BitVec.eq_of_toNat_eq heq
    refine hne (hs.apart m n hm hn q q' ?_ ?_).1
    · rw [zone, hq]
      exact hy0
    · rw [hq', ← hyt]
      exact hq

theorem isFile_iff (h : Hung s s₁ s₂ n p z t) (m : InodeNumber) :
    s₂.IsFile m ↔ s.IsFile m := by
  unfold IsFile
  by_cases hm : m = n
  · rw [hm, h.mode]
  · rw [h.disk_of_ne hm]

theorem zone_cases (h : Hung s s₁ s₂ n p z t) (hs : s.Laid) (hn : s.IsFile n)
    {m : InodeNumber} (hm : s.IsFile m) (q : PointerPath) :
    s₂.zone m q = s.zone m q ∨ m = n ∧ q = p ∧ s₂.zone m q = z := by
  by_cases hne : m = n
  · subst hne
    rw [h.attach]
    by_cases hq : q = p
    · subst hq
      exact .inr ⟨rfl, rfl, update_self _ _ _⟩
    · exact .inl (update_of_ne hq _ _)
  · exact .inl (congrFun (h.zone_of_ne hs hn hm hne) q)

theorem zone_ne (h : Hung s s₁ s₂ n p z t) (hs : s.Laid) {m : InodeNumber}
    (hm : s.IsFile m) (q : PointerPath) : s.zone m q ≠ z := by
  intro heq
  apply h.fresh.free
  rw [← heq]
  refine hs.taken m hm q ?_
  rw [heq]
  exact h.fresh.nonzero

/-- A fresh zone that is hung into a file leaves no zone shared. -/
theorem laid (h : Hung s s₁ s₂ n p z t) (hs : s.Laid) (hn : s.IsFile n) :
    s₂.Laid := by
  have hmap : s₂.zoneBitmap = s.zoneBitmap := h.bitmap.trans h.fresh.bitmap
  have htaken := h.taken_iff hs hn
  constructor
  case capacity =>
    rw [hmap]
    exact hs.capacity
  case nodup =>
    rw [hmap]
    exact hs.nodup
  case below =>
    rw [hmap]
    exact hs.below
  case range =>
    rw [hmap]
    exact hs.range
  case reserved =>
    rw [h.readBit hs hn (.inr rfl) h.bitCount_pos]
    exact h.fresh.reserved
  case taken =>
    intro m hm q hq
    have hm := (h.isFile_iff m).mp hm
    rcases h.zone_cases hs hn hm q with heq | ⟨-, -, heq⟩
    · rw [heq] at hq ⊢
      exact (htaken _).mpr (h.fresh.grows _ (hs.taken m hm q hq))
    · rw [heq]
      exact (htaken z).mpr h.fresh.taken
  case apart =>
    intro m m' hm hm' q q' hq heq
    have hm := (h.isFile_iff m).mp hm
    have hm' := (h.isFile_iff m').mp hm'
    rcases h.zone_cases hs hn hm q with hz | ⟨rfl, rfl, hz⟩
    · rcases h.zone_cases hs hn hm' q' with hz' | ⟨rfl, rfl, hz'⟩
      · rw [hz] at hq heq
        rw [hz'] at heq
        exact hs.apart m m' hm hm' q q' hq heq
      · rw [hz, hz'] at heq
        exact absurd heq (h.zone_ne hs hm q)
    · rcases h.zone_cases hs hn hm' q' with hz' | ⟨rfl, rfl, hz'⟩
      · rw [hz, hz'] at heq
        exact absurd heq.symm (h.zone_ne hs hm' q')
      · exact ⟨rfl, rfl⟩

/-- A fresh zone that is hung into a file changes no byte of any file. -/
theorem kept (h : Hung s s₁ s₂ n p z t) (hs : s.Laid) (hn : s.IsFile n) :
    Kept s s₂ := by
  refine ⟨h.laid hs hn, ?_, ?_, ?_⟩
  · intro m
    by_cases hm : m = n
    · rw [hm, h.mode]
    · rw [h.disk_of_ne hm]
  · intro m
    by_cases hm : m = n
    · rw [hm, h.size]
    · rw [h.disk_of_ne hm]
  · intro m hm q hq
    have hsame : ∀ y, y ≠ 0#16 → (t ≠ 0#16 → y ≠ t) →
        s₂.blocks y.toNat = s₁.blocks y.toNat := by
      intro y hy hne
      exact h.block fun ht heq => hne ht (BitVec.eq_of_toNat_eq heq)
    unfold FileStore.content
    rcases h.zone_cases hs hn hm q with heq | ⟨rfl, rfl, heq⟩
    · rw [heq]
      split
      next => rfl
      next hz =>
        have htaken := hs.taken m hm q hz
        rw [hsame _ hz ?_, h.fresh.blocks _ htaken]
        intro ht hyt
        rcases h.table with hzero | ⟨q', hq', ht'⟩
        · exact ht hzero
        · have := (hs.apart m n hm hn q q' hz (hyt.trans ht'.symm)).2
          exact hq' (this ▸ hq)
    · rw [heq, h.hole, if_neg h.fresh.nonzero, if_pos rfl,
        hsame _ h.fresh.nonzero ?_, h.fresh.zeroed]
      intro ht hzt
      exact h.fresh.free (hzt ▸ h.taken_table hs hn ht)

theorem zone_here (h : Hung s s₁ s₂ n p z t) : s₂.zone n p = z := by
  rw [h.attach, update_self]

end Hung

-- ======== one mapping

/-- What a step of `map_block_id` comes to: no file shows a change, and the
zone it gives is the one at the path; zone 0 is a failed allocation. -/
structure Reached (s s' : FileStore) (n : InodeNumber) (p : PointerPath)
    (z : Zone) : Prop where
  kept : Kept s s'
  zone : z ≠ 0#16 → s'.zone n p = z

section Mapping

variable {s s₁ : FileStore} {n : InodeNumber} {z : Zone}

theorem Fresh.zone_eq (h : Fresh s s₁ z) (hs : s.Laid) (hn : s.IsFile n) :
    s₁.zone n = s.zone n := by
  have hdisk : s₁.disk n = s.disk n := by
    unfold disk
    rw [h.inode]
  unfold FileStore.zone
  rw [hdisk]
  refine Miniximg.zoneAt_congr fun y hy => ?_
  obtain ⟨hy, q, hq⟩ := hy
  exact h.blocks y (hq ▸ hs.taken n hn q (by rw [FileStore.zone, hq]; exact hy))

theorem disk_tryAlloc (s : FileStore) (n : InodeNumber) (i : InodeInner)
    (now : BitVec 32) : (s.setInode n (i.touchChange now)).disk n
      = i.diskInode := by
  unfold disk setInode InodeInner.touchChange
  dsimp only
  rw [update_self]

/-- A zone that is allocated and attached is reached by its path. -/
theorem tryAlloc_reached (hs : s.Laid) (hn : s.IsFile n) (now : BitVec 32)
    (p : PointerPath) (attach : DiskInode → Zone → DiskInode)
    (hmode : ∀ i z, (attach i z).mode = i.mode)
    (hsize : ∀ i z, (attach i z).size = i.size)
    (hattach : ∀ b : Nat → Block, ∀ i z, zoneAt b i p = 0#16 →
      b z.toNat = zeroBlock →
      zoneAt b (attach i z) = update (zoneAt b i) p z) :
    Reached s (s.tryAlloc n now (s.zone n p) attach).1 n p
      (s.tryAlloc n now (s.zone n p) attach).2 := by
  unfold tryAlloc
  by_cases hhole : s.zone n p = 0#16
  · rw [if_pos hhole]
    split
    next s₁ z halloc =>
      have hfresh := allocZone_fresh hs halloc
      rw [if_pos hfresh.nonzero]
      have hzone := hfresh.zone_eq hs hn
      have hhung : Hung s s₁ (s₁.setInode n (InodeInner.touchChange
          { s₁.inode n with diskInode := attach (s₁.inode n).diskInode z }
          now)) n p z 0#16 := by
        constructor
        case fresh => exact hfresh
        case table => exact .inl rfl
        case blocks => exact fun _ _ => rfl
        case bitmap => rfl
        case inode => exact fun m hm => update_of_ne hm _ _
        case mode =>
          rw [disk_tryAlloc, hmode, hfresh.inode]
          rfl
        case size =>
          rw [disk_tryAlloc, hsize, hfresh.inode]
          rfl
        case hole => exact hhole
        case attach =>
          rw [← hzone] at hhole ⊢
          unfold FileStore.zone at hhole ⊢
          rw [disk_tryAlloc]
          exact hattach _ _ _ hhole hfresh.zeroed
      exact ⟨hhung.kept hs hn, fun _ => hhung.zone_here⟩
    next => exact ⟨.refl hs, fun h => absurd rfl h⟩
  · rw [if_neg hhole]
    exact ⟨.refl hs, fun _ => rfl⟩

def entryPath : PointerPath → Fin 512 → Option PointerPath
  | .single, k => some (.singleEntry k)
  | .double, k => some (.outer k)
  | .outer o, k => some (.inner o k)
  | _, _ => none

theorem zone_entryPath {q p : PointerPath} {k : Fin 512}
    (h : entryPath q k = some p) (s : FileStore) (n : InodeNumber) :
    s.zone n p = entryOf s.blocks (s.zone n q) k := by
  cases q with
  | direct i => cases h
  | single =>
    cases h
    rfl
  | singleEntry i => cases h
  | double =>
    cases h
    rfl
  | outer o =>
    cases h
    rfl
  | inner o i => cases h

theorem tableOf_putBytes (b : Block) (k : Fin 512) (z : Zone) :
    tableOf (putBytes b (2 * k.val) (leBytes16 z))
      = update (tableOf b) k z := by
  have hlen : (leBytes16 z).length = 2 := rfl
  funext j
  by_cases hj : j = k
  · subst hj
    rw [update_self]
    refine u16At_eq ?_ ?_
    · exact putBytes_at (k := 0) (by rw [hlen]; omega)
    · exact putBytes_at (k := 1) (by rw [hlen]; omega)
  · have hne : j.val ≠ k.val := fun h => hj (Fin.ext h)
    rw [update_of_ne hj]
    unfold tableOf u16At
    rw [putBytes_apart (by rw [hlen]; omega),
      putBytes_apart (by rw [hlen]; omega)]

theorem setEntry_written (s : FileStore) (t : Zone) (k : Fin 512) (z : Zone) :
    EntryWritten s.blocks (s.setEntry t k.val z).blocks Set.univ t k z := by
  constructor
  · unfold setEntry
    dsimp only
    rw [update_self]
    exact tableOf_putBytes _ _ _
  · intro y _ hy
    exact update_of_ne (fun h => hy (BitVec.eq_of_toNat_eq h)) _ _

/-- A fresh zone is entered in an indirect block. -/
theorem attach_entry (hs : s.Laid) (hn : s.IsFile n) (h : Fresh s s₁ z)
    {q p : PointerPath} {k : Fin 512} (hpath : entryPath q k = some p)
    (ht : s.zone n q ≠ 0#16) (hhole : s.zone n p = 0#16) :
    (s₁.setEntry (s.zone n q) k.val z).zone n = update (s.zone n) p z := by
  have hzone := h.zone_eq hs hn
  have hunique : Unique (zoneAt s₁.blocks (s₁.disk n)) := by
    show Unique (s₁.zone n)
    rw [hzone]
    exact hs.unique hn
  have hfresh : z ≠ s.zone n q := fun heq =>
    h.free (heq ▸ hs.taken n hn q ht)
  have hwritten := setEntry_written s₁ (s.zone n q) k z
  rw [← hzone] at ht hhole hfresh hwritten ⊢
  cases q with
  | direct i => cases hpath
  | single =>
    cases hpath
    exact Miniximg.attach_singleEntry hunique (Set.subset_univ _) ht hwritten
  | singleEntry i => cases hpath
  | double =>
    cases hpath
    exact Miniximg.attach_outer hunique (Set.subset_univ _) ht hhole hfresh
      trivial h.zeroed hwritten
  | outer o =>
    cases hpath
    exact Miniximg.attach_inner hunique (Set.subset_univ _) ht hwritten
  | inner o i => cases hpath

theorem isData_of_entryPath {q p : PointerPath} {k : Fin 512}
    (h : entryPath q k = some p) : ¬ q.isData := by
  cases q with
  | direct i => cases h
  | single => exact id
  | singleEntry i => cases h
  | double => exact id
  | outer o => exact id
  | inner o i => cases h

/-- An entry of an indirect block is there behind `resolve`, allocated if it
was a hole. -/
theorem resolve_reached (hs : s.Laid) (hn : s.IsFile n) {q p : PointerPath}
    {k : Fin 512} (hpath : entryPath q k = some p) {t : Zone}
    (ht : t ≠ 0#16 → s.zone n q = t) :
    Reached s (s.resolveIndirectEntry t k.val).1 n p
      (s.resolveIndirectEntry t k.val).2 := by
  unfold resolveIndirectEntry
  by_cases hzero : t = 0#16
  · rw [if_pos hzero]
    exact ⟨.refl hs, fun h => absurd rfl h⟩
  · rw [if_neg hzero]
    obtain rfl := ht hzero
    have hentry : u16At (s.blocks (s.zone n q).toNat) (2 * k.val)
        = s.zone n p := by
      rw [zone_entryPath hpath]
      unfold entryOf
      rw [if_neg hzero]
      rfl
    rw [hentry]
    by_cases hhole : s.zone n p = 0#16
    · rw [if_pos hhole]
      split
      next s₁ z halloc =>
        have hfresh := allocZone_fresh hs halloc
        have hhung : Hung s s₁ (s₁.setEntry (s.zone n q) k.val z) n p z
            (s.zone n q) := by
          constructor
          case fresh => exact hfresh
          case table => exact .inr ⟨q, isData_of_entryPath hpath, rfl⟩
          case blocks =>
            intro b hb
            exact update_of_ne (hb.resolve_right hzero) _ _
          case bitmap => rfl
          case inode => exact fun _ _ => rfl
          case mode =>
            show (s₁.inode n).diskInode.mode = _
            rw [hfresh.inode]
            rfl
          case size =>
            show (s₁.inode n).diskInode.size = _
            rw [hfresh.inode]
            rfl
          case hole => exact hhole
          case attach => exact attach_entry hs hn hfresh hpath hzero hhole
        exact ⟨hhung.kept hs hn, fun _ => hhung.zone_here⟩
      next => exact ⟨.refl hs, fun h => absurd rfl h⟩
    · rw [if_neg hhole]
      exact ⟨.refl hs, fun _ => rfl⟩

theorem Reached.entry {q p : PointerPath} {t : Zone} (hn : s.IsFile n)
    (h : Reached s s₁ n q t) {k : Fin 512} (hpath : entryPath q k = some p) :
    Reached s (s₁.resolveIndirectEntry t k.val).1 n p
      (s₁.resolveIndirectEntry t k.val).2 := by
  have hnext := resolve_reached h.kept.laid (h.kept.isFile.mpr hn) hpath h.zone
  exact ⟨h.kept.trans hnext.kept, hnext.zone⟩

/-- Behind `map_block_id` the block has a zone, unless the device is full. -/
theorem mapBlockId_reached (hs : s.Laid) (hn : s.IsFile n)
    (now : BitVec 32) {k : Nat} {slot : Slot} (hslot : slotOf k = some slot) :
    ∃ z, (s.mapBlockId n now k).2 = .ok z
      ∧ Reached s (s.mapBlockId n now k).1 n slot.path z := by
  unfold slotOf at hslot
  split at hslot
  next => cases hslot
  next hmax =>
    unfold mapBlockId
    rw [if_neg hmax]
    split at hslot
    next hdirect =>
      cases hslot
      have hd : k < directZoneCount := hdirect
      rw [dif_pos hd]
      refine ⟨_, rfl, ?_⟩
      exact tryAlloc_reached hs hn now (.direct ⟨k, hdirect⟩)
        (attachDirect ⟨k, hdirect⟩) (fun _ _ => rfl) (fun _ _ => rfl)
        fun b i z _ _ => Miniximg.attach_direct b i _ z
    next hdirect =>
      have hd : ¬ k < directZoneCount := hdirect
      rw [dif_neg hd]
      split at hslot
      next hsingle =>
        cases hslot
        have hlt : k < Volume.indirectZoneIndex
            + Volume.indirectEntriesPerBlock := by
          show k < 7 + 512
          omega
        rw [if_pos hlt]
        refine ⟨_, rfl, ?_⟩
        have hroot := tryAlloc_reached hs hn now .single attachSingle
          (fun _ _ => rfl) (fun _ _ => rfl)
          fun b i z hhole hzero => Miniximg.attach_single hhole hzero
        exact hroot.entry hn (k := ⟨k - 7, hsingle⟩) rfl
      next hsingle =>
        cases hslot
        have hlt : ¬ k < Volume.indirectZoneIndex
            + Volume.indirectEntriesPerBlock := by
          show ¬ k < 7 + 512
          omega
        have hblock : k - (Volume.doubleIndirectZoneIndex
            + Volume.indirectEntriesPerBlock - 1) = k - 7 - 512 := by
          show k - (8 + 512 - 1) = k - 7 - 512
          omega
        rw [if_neg hlt]
        refine ⟨_, rfl, ?_⟩
        have hroot := tryAlloc_reached hs hn now .double attachDouble
          (fun _ _ => rfl) (fun _ _ => rfl)
          fun b i z hhole hzero => Miniximg.attach_double hhole hzero
        dsimp only
        rw [hblock]
        have houter := hroot.entry hn
          (k := ⟨(k - 7 - 512) / 512, by unfold maxLogicalBlocks at hmax; omega⟩)
          rfl
        exact houter.entry hn (k := ⟨(k - 7 - 512) % 512, by omega⟩) rfl

end Mapping

end FileStore

end LinuxRs.Minix
