/-
`write_at` on a volume that is laid out well: the loop puts a part of the
buffer over the bytes of the file and leaves every other file alone
(`writeFrom_wrote`); then the size is raised to the position the loop has
come to, and the file stands for the old sequence with that part written
(`writeAt_file`).

# The size after a failure

The position the loop has come to is the offset when nothing was written.
So a failing write behind the end of a file raises the size, up to sizes
that no pointer can reach: `write_at_failure_iff` says when a failure
leaves the file alone, `write_at_refines_iff` when a success can be read
back everywhere.
-/
import LinuxRs.Minix.FileBytes

namespace LinuxRs.Minix

open Function (update update_self update_of_ne)

open LinuxRs.Lib
open LinuxRs.Miniximg (PointerPath Slot slotOf zoneAt tableOf entryOf)

namespace FileStore

-- ======== one data block

section Modify

variable {s : FileStore} {n : InodeNumber} {p : PointerPath} {z : Zone}

theorem modifyBlock_zone (hs : s.Laid) (hn : s.IsFile n) (hp : p.isData)
    (hzone : s.zone n p = z) (offset : Nat)
    (source : List Byte) {m : InodeNumber} (hm : s.IsFile m) :
    (s.modifyBlock z offset source).zone m = s.zone m := by
  refine Miniximg.zoneAt_congr_tables fun q hq hq0 => ?_
  refine update_of_ne ?_ _ _
  intro heq
  have hqz : s.zone m q = s.zone n p := by
    rw [hzone]
    exact BitVec.eq_of_toNat_eq heq
  have := (hs.apart m n hm hn q p hq0 hqz).2
  exact hq (this ▸ hp)

theorem modifyBlock_readBit (hs : s.Laid) (hn : s.IsFile n) (hz : z ≠ 0#16)
    (hzone : s.zone n p = z) (offset : Nat) (source : List Byte)
    {bit : Nat} (hbit : bit < s.zoneBitmap.buffers.length * bitsPerBlock) :
    (s.modifyBlock z offset source).readBit bit = s.readBit bit := by
  have htaken : s.Taken z := by
    have := hs.taken n hn p
    rw [hzone] at this
    exact this hz
  refine readBit_congr rfl hbit fun b hb => update_of_ne ?_ _ _
  intro heq
  exact htaken.not_mem hs (heq ▸ hb)

theorem modifyBlock_laid (hs : s.Laid) (hn : s.IsFile n) (hp : p.isData)
    (hz : z ≠ 0#16) (hzone : s.zone n p = z) (offset : Nat)
    (source : List Byte) : (s.modifyBlock z offset source).Laid := by
  have hcapacity := hs.capacity
  have hsame : ∀ m, s.IsFile m →
      (s.modifyBlock z offset source).zone m = s.zone m :=
    fun m hm => modifyBlock_zone hs hn hp hzone offset source hm
  have hcount : 0 < s.zoneBitmap.bitCount := by
    have htaken := hs.taken n hn p (by rw [hzone]; exact hz)
    obtain ⟨bit, -, hlt, -⟩ := htaken
    omega
  constructor
  case capacity => exact hs.capacity
  case nodup => exact hs.nodup
  case below => exact hs.below
  case range => exact hs.range
  case reserved =>
    rw [modifyBlock_readBit hs hn hz hzone _ _ (by omega)]
    exact hs.reserved
  case taken =>
    intro m hm q hq
    have hm : s.IsFile m := hm
    rw [hsame m hm] at hq ⊢
    obtain ⟨bit, hpos, hlt, hy, hset⟩ := hs.taken m hm q hq
    refine ⟨bit, hpos, hlt, hy, ?_⟩
    rw [modifyBlock_readBit hs hn hz hzone _ _ (by omega)]
    exact hset
  case apart =>
    intro m m' hm hm' q q' hq heq
    have hm : s.IsFile m := hm
    have hm' : s.IsFile m' := hm'
    rw [hsame m hm] at hq heq
    rw [hsame m' hm'] at heq
    exact hs.apart m m' hm hm' q q' hq heq

/-- Writing a block of one file changes no other file. -/
theorem modifyBlock_content (hs : s.Laid) (hn : s.IsFile n) (hp : p.isData)
    (hz : z ≠ 0#16) (hzone : s.zone n p = z)
    (offset : Nat) (source : List Byte) {m : InodeNumber} (hm : s.IsFile m)
    (q : PointerPath) : (s.modifyBlock z offset source).content m q
      = if m = n ∧ q = p then putBytes (s.content n p) offset source
        else s.content m q := by
  unfold content
  rw [modifyBlock_zone hs hn hp hzone offset source hm, hzone, if_neg hz]
  by_cases hq0 : s.zone m q = 0#16
  · have hother : ¬ (m = n ∧ q = p) := by
      intro h
      rw [h.1, h.2, hzone] at hq0
      exact hz hq0
    rw [if_pos hq0, if_neg hother, if_pos hq0]
  · rw [if_neg hq0]
    by_cases hsame : m = n ∧ q = p
    · rw [if_pos hsame, hsame.1, hsame.2, hzone]
      exact update_self _ _ _
    · rw [if_neg hsame, if_neg hq0]
      refine update_of_ne ?_ _ _
      intro heq
      refine hsame (hs.apart m n hm hn q p hq0 ?_)
      rw [hzone]
      exact BitVec.eq_of_toNat_eq heq

/-- A piece written into one block is where it belongs in the file. -/
theorem fileByte_put {view view' : Nat → Block} {pos : Nat}
    {source : List Byte} (hfit : source.length ≤ blockSize - pos % blockSize)
    (hhere : view' (pos / blockSize)
      = putBytes (view (pos / blockSize)) (pos % blockSize) source)
    (hothers : ∀ k, k ≠ pos / blockSize → view' k = view k) :
    Volume.fileByte view' = overlay (Volume.fileByte view) pos source := by
  funext i
  unfold Volume.fileByte
  by_cases hk : i / blockSize = pos / blockSize
  · rw [hk, hhere]
    unfold overlay
    dsimp only
    by_cases hle : pos ≤ i
    · have hi : i % blockSize = pos % blockSize + (i - pos) := by
        unfold blockSize at *
        omega
      rw [if_pos hle, hk, hi]
      by_cases hlt : i - pos < source.length
      · rw [putBytes_at hlt, List.getD_eq_getElem _ _ hlt,
          List.getD_eq_getElem _ _ hlt]
      · rw [putBytes_apart (by omega), List.getD_eq_default _ _ (by omega)]
    · rw [if_neg hle, hk, putBytes_apart (.inl (by unfold blockSize at *; omega))]
  · rw [hothers _ hk]
    rcases Nat.lt_or_ge i pos with hlt | hge
    · rw [overlay_of_lt hlt]
    · rw [overlay_of_le]
      unfold blockSize at *
      omega

end Modify

-- ======== the loop

/-- A part of a buffer put over the bytes of a file; of the records only
pointers may differ. -/
structure Wrote (s s' : FileStore) (n : InodeNumber) (pos : Nat)
    (data : List Byte) : Prop where
  laid : s'.Laid
  mode : ∀ m, (s'.disk m).mode = (s.disk m).mode
  size : ∀ m, (s'.disk m).size = (s.disk m).size
  here : s'.byte n = overlay (s.byte n) pos data
  others : ∀ m, s.IsFile m → m ≠ n → s'.byte m = s.byte m

namespace Wrote

variable {s s' s'' : FileStore} {n : InodeNumber} {pos : Nat}
  {data : List Byte}

theorem isFile (h : Wrote s s' n pos data) {m : InodeNumber} :
    s'.IsFile m ↔ s.IsFile m := by
  unfold IsFile
  rw [h.mode m]

theorem of_kept (h : Kept s s') (hn : s.IsFile n) : Wrote s s' n pos [] where
  laid := h.laid
  mode := h.mode
  size := h.size
  here := (h.byte hn).trans (overlay_nil _ _).symm
  others _ hm _ := h.byte hm

theorem trans {a b : List Byte} (h : Wrote s s' n pos a)
    (h' : Wrote s' s'' n (pos + a.length) b) : Wrote s s'' n pos (a ++ b) where
  laid := h'.laid
  mode m := (h'.mode m).trans (h.mode m)
  size m := (h'.size m).trans (h.size m)
  here := by rw [h'.here, h.here, overlay_append]
  others m hm hne :=
    (h'.others m (h.isFile.mpr hm) hne).trans (h.others m hm hne)

end Wrote

/-- The bytes written are the ones read back. -/
theorem modifyBlock_wrote {s : FileStore} {n : InodeNumber} {pos : Nat}
    {source : List Byte} {slot : Slot} {z : Zone} (hs : s.Laid)
    (hn : s.IsFile n) (hslot : slotOf (pos / blockSize) = some slot)
    (hz : z ≠ 0#16) (hzone : s.zone n slot.path = z)
    (hfit : source.length ≤ blockSize - pos % blockSize) :
    Wrote s (s.modifyBlock z (pos % blockSize) source) n pos source := by
  have hp := slot.isData_path
  have hcontent : ∀ m, s.IsFile m → ∀ q,
      (s.modifyBlock z (pos % blockSize) source).content m q
        = if m = n ∧ q = slot.path then
            putBytes (s.content n slot.path) (pos % blockSize) source
          else s.content m q := by
    intro m hm q
    exact modifyBlock_content hs hn hp hz hzone _ _ hm q
  constructor
  case laid => exact modifyBlock_laid hs hn hp hz hzone _ _
  case mode => exact fun _ => rfl
  case size => exact fun _ => rfl
  case here =>
    refine fileByte_put hfit ?_ ?_
    · rw [view_of_slot hslot, view_of_slot hslot, hcontent n hn,
        if_pos ⟨rfl, rfl⟩]
    · intro k hk
      unfold view
      cases hslot' : slotOf k with
      | none => rfl
      | some slot' =>
        show content _ n slot'.path = content _ n slot'.path
        rw [hcontent n hn, if_neg]
        intro h
        obtain rfl := Miniximg.Slot.path_inj h.2
        exact hk (Miniximg.slotOf_inj hslot' hslot)
  case others =>
    intro m hm hne
    unfold byte
    congr 1
    funext k
    unfold view
    cases slotOf k with
    | none => rfl
    | some slot' =>
      show content _ m slot'.path = content _ m slot'.path
      rw [hcontent m hm, if_neg fun h => hne h.1]

/-- What the loop comes to: it has written the first `j` bytes, and it has
an error unless these are all. -/
structure Looped (s : FileStore) (n : InodeNumber) (pos written : Nat)
    (rest : List Byte) (r : FileStore × Nat × Nat × Option WriteErrno)
    (j : Nat) : Prop where
  le : j ≤ rest.length
  stop : r.2.1 = pos + j
  count : r.2.2.1 = written + j
  wrote : Wrote s r.1 n pos (rest.take j)
  reach : 0 < j → pos + j ≤ maxBytes
  stopped : j < rest.length → r.2.2.2.isSome

theorem Looped.nothing {s s' : FileStore} {n : InodeNumber} {pos written : Nat}
    {rest : List Byte} {e : Option WriteErrno} (hn : s.IsFile n)
    (h : Kept s s') (he : rest ≠ [] → e.isSome) :
    Looped s n pos written rest (s', pos, written, e) 0 where
  le := Nat.zero_le _
  stop := rfl
  count := rfl
  wrote := .of_kept h hn
  reach h := absurd h (Nat.lt_irrefl 0)
  stopped h := he (List.length_pos_iff.mp h)

/-- The loop writes a front part of the bytes, all of them unless the device
is full. By induction on what is left. -/
theorem writeFrom_looped {n : InodeNumber} (now : BitVec 32) :
    ∀ (len : Nat) {rest : List Byte} {s : FileStore} (pos written : Nat),
      rest.length = len → s.Laid → s.IsFile n → ∃ j,
        Looped s n pos written rest (s.writeFrom n now pos written rest) j := by
  intro len
  induction len using Nat.strongRecOn with
  | ind len ih =>
    intro rest s pos written hlen hs hn
    by_cases hrest : rest = []
    · rw [writeFrom, dif_pos hrest]
      exact ⟨0, .nothing hn (.refl hs) fun h => absurd hrest h⟩
    rw [writeFrom, dif_neg hrest]
    dsimp only
    cases hslot : slotOf (pos / blockSize) with
    | none =>
      have hmap : s.mapBlockId n now (pos / blockSize)
          = (s, .error .fbig) := by
        unfold mapBlockId
        rw [if_pos]
        by_contra hlt
        obtain ⟨slot, hsome⟩ := Miniximg.slotOf_isSome (Nat.lt_of_not_le hlt)
        rw [hslot] at hsome
        cases hsome
      rw [hmap]
      exact ⟨0, .nothing hn (.refl hs) fun _ => rfl⟩
    | some slot =>
      obtain ⟨z, hz, hreached⟩ := mapBlockId_reached hs hn now hslot
      generalize s.mapBlockId n now (pos / blockSize) = r at hz hreached
      rw [hz]
      dsimp only
      by_cases hzero : z = 0#16
      · rw [if_pos hzero]
        exact ⟨0, .nothing hn hreached.kept fun _ => rfl⟩
      rw [if_neg hzero]
      have hfile := hreached.kept.isFile.mpr hn
      have hmin : Nat.min rest.length (blockSize - pos % blockSize)
          = min rest.length (blockSize - pos % blockSize) := rfl
      have hpos := List.length_pos_iff.mpr hrest
      have hchunk : Nat.min rest.length (blockSize - pos % blockSize)
            ≤ rest.length
          ∧ 0 < Nat.min rest.length (blockSize - pos % blockSize)
          ∧ Nat.min rest.length (blockSize - pos % blockSize)
            ≤ blockSize - pos % blockSize := by
        rw [hmin]
        unfold blockSize
        omega
      obtain ⟨hle, hgt, hfit⟩ := hchunk
      generalize Nat.min rest.length (blockSize - pos % blockSize) = chunk
        at *
      have htake : (rest.take chunk).length = chunk := by
        rw [List.length_take]
        omega
      have hround : Wrote r.1 (r.1.modifyBlock z (pos % blockSize)
          (rest.take chunk)) n pos (rest.take chunk) :=
        modifyBlock_wrote hreached.kept.laid hfile hslot hzero
          (hreached.zone hzero) (by omega)
      have hone := (Wrote.of_kept hreached.kept hn).trans hround
      have hrest' : (rest.drop chunk).length = rest.length - chunk :=
        List.length_drop
      obtain ⟨j, hj⟩ := ih (rest.length - chunk) (by omega) (pos + chunk)
        (written + chunk) hrest' hone.laid (hone.isFile.mpr hn)
      have hk : pos / blockSize < maxLogicalBlocks := by
        by_contra hlt
        rw [show slotOf (pos / blockSize) = none from
          dif_pos (Nat.le_of_not_lt hlt)] at hslot
        cases hslot
      have hjle := hj.le
      refine ⟨chunk + j, ?_, ?_, ?_, ?_, ?_, ?_⟩
      · omega
      · rw [hj.stop]
        omega
      · rw [hj.count]
        omega
      · rw [List.take_add]
        refine hone.trans ?_
        rw [List.nil_append, htake]
        exact hj.wrote
      · intro _
        rcases Nat.eq_zero_or_pos j with rfl | hjpos
        · unfold maxBytes
          unfold blockSize maxLogicalBlocks at *
          omega
        · have := hj.reach hjpos
          omega
      · intro hlt
        exact hj.stopped (by omega)

-- ======== the end

section Finish

variable (s : FileStore) (n : InodeNumber) (now : BitVec 32) (pos : Nat)

theorem finishWrite_disk_of_ne {m : InodeNumber} (h : m ≠ n) :
    (s.finishWrite n now pos).disk m = s.disk m := by
  unfold disk finishWrite setInode
  dsimp only
  rw [update_of_ne h]

theorem finishWrite_disk : ∃ size mtime, (s.finishWrite n now pos).disk n
        = { s.disk n with size := size, modificationTime := mtime }
      ∧ (pos < 4294967296 → size.toNat = max (s.disk n).size.toNat pos) := by
  unfold disk finishWrite setInode InodeInner.touchModified
  dsimp only
  rw [update_self]
  split
  next hgt =>
    refine ⟨BitVec.ofNat 32 pos, now, rfl, fun hlt => ?_⟩
    rw [BitVec.toNat_ofNat, Nat.mod_eq_of_lt hlt]
    omega
  next hle =>
    refine ⟨_, now, rfl, fun _ => ?_⟩
    omega

theorem finishWrite_zone (m : InodeNumber) :
    (s.finishWrite n now pos).zone m = s.zone m := by
  unfold zone
  by_cases hm : m = n
  · obtain ⟨size, mtime, hdisk, -⟩ := finishWrite_disk s n now pos
    rw [hm, hdisk]
    funext p
    cases p with
    | direct k => rfl
    | single => rfl
    | singleEntry k => rfl
    | double => rfl
    | outer k => rfl
    | inner k l => rfl
  · rw [finishWrite_disk_of_ne s n now pos hm]
    rfl

theorem finishWrite_mode (m : InodeNumber) :
    ((s.finishWrite n now pos).disk m).mode = (s.disk m).mode := by
  by_cases hm : m = n
  · obtain ⟨size, mtime, hdisk, -⟩ := finishWrite_disk s n now pos
    rw [hm, hdisk]
  · rw [finishWrite_disk_of_ne s n now pos hm]

theorem finishWrite_byte (m : InodeNumber) :
    (s.finishWrite n now pos).byte m = s.byte m := by
  have hcontent : (s.finishWrite n now pos).content m = s.content m := by
    unfold content
    rw [finishWrite_zone]
    rfl
  unfold byte view
  rw [hcontent]

variable {s}

theorem finishWrite_laid (hs : s.Laid) : (s.finishWrite n now pos).Laid := by
  have hfile : ∀ m, (s.finishWrite n now pos).IsFile m ↔ s.IsFile m := by
    intro m
    unfold IsFile
    rw [finishWrite_mode]
  constructor
  case capacity => exact hs.capacity
  case nodup => exact hs.nodup
  case below => exact hs.below
  case range => exact hs.range
  case reserved => exact hs.reserved
  case taken =>
    intro m hm q hq
    rw [finishWrite_zone] at hq ⊢
    exact hs.taken m ((hfile m).mp hm) q hq
  case apart =>
    intro m m' hm hm' q q' hq heq
    rw [finishWrite_zone] at hq heq
    rw [finishWrite_zone] at heq
    exact hs.apart m m' ((hfile m).mp hm) ((hfile m').mp hm') q q' hq heq

end Finish

-- ======== one write

/-- What `write_at` does when it has written `j` bytes. -/
structure WroteAt (s s' : FileStore) (n : InodeNumber) (offset : Nat)
    (buf : List Byte) (j : Nat) : Prop where
  le : j ≤ buf.length
  reach : 0 < j → offset + j ≤ maxBytes
  laid : s'.Laid
  mode : ∀ m, (s'.disk m).mode = (s.disk m).mode
  size : (s'.disk n).size.toNat = max (s.disk n).size.toNat (offset + j)
  others : ∀ m, m ≠ n → (s'.disk m).size = (s.disk m).size
  here : s'.byte n = overlay (s.byte n) offset (buf.take j)
  bytes : ∀ m, s.IsFile m → m ≠ n → s'.byte m = s.byte m

/-- A write leaves what it wrote in the file, and the rest as it was. -/
theorem writeAt_wroteAt {s : FileStore} {n : InodeNumber} (hs : s.Laid)
    (hn : s.IsFile n) (now offset : BitVec 32) {buf : List Byte}
    (hbuf : buf ≠ []) :
    ∃ j, WroteAt s (s.writeAt n now offset buf).1 n offset.toNat buf j
      ∧ ((j = 0 ∧ ∃ e, (s.writeAt n now offset buf).2 = .error e)
        ∨ 0 < j ∧ (s.writeAt n now offset buf).2 = .ok j) := by
  obtain ⟨j, hj⟩ := writeFrom_looped now buf.length offset.toNat 0 rfl hs hn
  have hlt := offset.isLt
  have hstate : (s.writeAt n now offset buf).1
      = (s.writeFrom n now offset.toNat 0 buf).1.finishWrite n now
          (offset.toNat + j) := by
    unfold writeAt
    rw [if_neg hbuf]
    dsimp only
    rw [hj.stop]
    split
    next => rfl
    next => rfl
  have hwrote := hj.wrote
  refine ⟨j, ?_, ?_⟩
  · rw [hstate]
    obtain ⟨size, mtime, hdisk, hsize⟩ := finishWrite_disk
      (s.writeFrom n now offset.toNat 0 buf).1 n now (offset.toNat + j)
    have hsmall : offset.toNat + j < 4294967296 := by
      rcases Nat.eq_zero_or_pos j with rfl | hpos
      · exact hlt
      · have := hj.reach hpos
        unfold maxBytes maxLogicalBlocks blockSize at this
        omega
    constructor
    case le => exact hj.le
    case reach => exact hj.reach
    case laid => exact finishWrite_laid n now _ hwrote.laid
    case mode =>
      intro m
      rw [finishWrite_mode, hwrote.mode]
    case size =>
      rw [hdisk, hsize hsmall, hwrote.size]
    case others =>
      intro m hm
      rw [finishWrite_disk_of_ne _ _ _ _ hm, hwrote.size]
    case here => rw [finishWrite_byte, hwrote.here]
    case bytes =>
      intro m hm hne
      rw [finishWrite_byte, hwrote.others m hm hne]
  · have hcount := hj.count
    rw [Nat.zero_add] at hcount
    unfold writeAt
    rw [if_neg hbuf]
    dsimp only
    rw [hcount]
    cases j with
    | zero =>
      obtain ⟨e, he⟩ := Option.isSome_iff_exists.mp
        (hj.stopped (List.length_pos_iff.mpr hbuf))
      rw [he]
      exact .inl ⟨rfl, e, rfl⟩
    | succ j => exact .inr ⟨Nat.succ_pos j, rfl⟩

-- ======== refining

/-- A volume that is laid out well, and whose files show zeros behind their
ends. -/
structure Sound (s : FileStore) : Prop where
  laid : s.Laid
  tail : ∀ m, s.IsFile m → ∀ pos, (s.disk m).size.toNat ≤ pos →
    s.byte m pos = 0#8

theorem Sound.file_get {s : FileStore} (hs : s.Sound) {m : InodeNumber}
    (hm : s.IsFile m) : (s.file m).get = s.byte m := by
  funext pos
  show (if pos < (s.disk m).size.toNat then s.byte m pos else 0#8) = _
  split
  next => rfl
  next h => exact (hs.tail m hm pos (Nat.le_of_not_lt h)).symm

section Refining

variable {s s' : FileStore} {n : InodeNumber} {offset j : Nat}
  {buf : List Byte}

theorem WroteAt.isFile (h : WroteAt s s' n offset buf j) {m : InodeNumber} :
    s'.IsFile m ↔ s.IsFile m := by
  unfold IsFile
  rw [h.mode m]

theorem WroteAt.sound (h : WroteAt s s' n offset buf j) (hs : s.Sound)
    (hn : s.IsFile n) : s'.Sound := by
  refine ⟨h.laid, ?_⟩
  intro m hm pos hpos
  have hm := h.isFile.mp hm
  by_cases hmn : m = n
  · subst hmn
    have hle := h.le
    have hlen : (buf.take j).length = j := by
      rw [List.length_take]
      omega
    rw [h.size] at hpos
    rw [h.here, overlay_of_le (by omega)]
    exact hs.tail m hm pos (by omega)
  · rw [h.others m hmn] at hpos
    rw [h.bytes m hm hmn]
    exact hs.tail m hm pos hpos

theorem WroteAt.file (h : WroteAt s s' n offset buf j) (hs : s.Sound)
    (hn : s.IsFile n) (hj : 0 < j) :
    s'.file n = (s.file n).write offset (buf.take j) := by
  have hle := h.le
  have hlen : (buf.take j).length = j := by
    rw [List.length_take]
    omega
  have hne : buf.take j ≠ [] := by
    intro hnil
    rw [hnil] at hlen
    simp at hlen
    omega
  apply Sparse.ext
  · show (s'.disk n).size.toNat = if buf.take j = [] then _ else max _ _
    rw [if_neg hne, hlen]
    exact h.size
  · rw [(h.sound hs hn).file_get (h.isFile.mpr hn), h.here]
    show _ = overlay (s.file n).get offset (buf.take j)
    rw [hs.file_get hn]

theorem WroteAt.readAt_others (h : WroteAt s s' n offset buf j)
    {m : InodeNumber} (hm : s.IsFile m) (hne : m ≠ n) (pos len : Nat) :
    s'.readAt m pos len = s.readAt m pos len :=
  readAt_congr (h.others m hne) (h.bytes m hm hne) pos len

end Refining

-- ======== a small volume

/-- An empty file, inode 2, on a volume of 15 zones with one block of
bitmap. -/
def seed : FileStore where
  blocks b := if b = 3 then update zeroBlock 0 1#8 else zeroBlock
  zoneBitmap := ⟨[3], 9, 16⟩
  inode m :=
    if m = 2#16 then
      ⟨{ DiskInode.zeroed with mode := 0x81a4#16 }, false, 0#32, 0#32⟩
    else ⟨DiskInode.zeroed, false, 0#32, 0#32⟩

theorem seed_isFile {m : InodeNumber} (h : seed.IsFile m) : m = 2#16 := by
  by_contra hm
  unfold IsFile disk seed at h
  dsimp only at h
  rw [if_neg hm] at h
  rcases h with h | h
  · cases h
  · cases h

theorem seed_zone {m : InodeNumber} (hm : seed.IsFile m) (p : PointerPath) :
    seed.zone m p = 0#16 := by
  obtain rfl := seed_isFile hm
  cases p with
  | direct k => rfl
  | single => rfl
  | singleEntry k => rfl
  | double => rfl
  | outer k => rfl
  | inner k l => rfl

theorem seed_sound : seed.Sound := by
  refine ⟨?_, ?_⟩
  · constructor
    case capacity => decide
    case nodup => decide
    case below => decide
    case range => decide
    case reserved => decide
    case taken => exact fun m hm p hp => absurd (seed_zone hm p) hp
    case apart => exact fun m m' hm _ p p' hp => absurd (seed_zone hm p) hp
  · intro m hm pos _
    unfold byte Volume.fileByte view
    cases slotOf (pos / blockSize) with
    | none => rfl
    | some slot =>
      show content seed m slot.path _ = 0#8
      unfold content
      rw [seed_zone hm, if_pos rfl]
      rfl

theorem writeAt_one {s : FileStore} {n : InodeNumber} {now offset : BitVec 32}
    {z : Zone} (b : Byte)
    (hmap : (s.mapBlockId n now (offset.toNat / blockSize)).2 = .ok z)
    (hz : z ≠ 0#16) : (s.writeAt n now offset [b]).2 = .ok 1 := by
  have hchunk : Nat.min [b].length (blockSize - offset.toNat % blockSize)
      = 1 := by
    show min 1 (blockSize - offset.toNat % blockSize) = 1
    unfold blockSize
    omega
  unfold writeAt
  rw [if_neg (List.cons_ne_nil b []), writeFrom,
    dif_neg (List.cons_ne_nil b [])]
  dsimp only
  rw [hmap]
  dsimp only
  rw [if_neg hz, hchunk, writeFrom,
    dif_pos (show List.drop 1 [b] = [] from rfl)]
  rfl

theorem writeAt_fbig {s : FileStore} {n : InodeNumber} {now offset : BitVec 32}
    (b : Byte) (hmax : offset.toNat / blockSize ≥ maxLogicalBlocks) :
    s.writeAt n now offset [b]
      = (s.finishWrite n now offset.toNat, .error .fbig) := by
  have hmap : s.mapBlockId n now (offset.toNat / blockSize)
      = (s, .error .fbig) := if_pos hmax
  unfold writeAt
  rw [if_neg (List.cons_ne_nil b []), writeFrom,
    dif_neg (List.cons_ne_nil b [])]
  rw [hmap]
  rfl

-- ======== the laws

/-- After a successful write, reading gives what the written sequence has,
the size is the larger of the old one and the end of the write, and other
files read as before, exactly when the old size was one that pointers can
reach. -/
theorem write_at_refines_iff {s s' : FileStore} (hs : s.Sound)
    {n : InodeNumber} (hn : s.IsFile n) {now offset : BitVec 32}
    {buf : List Byte} {k : Nat} (h : s.writeAt n now offset buf = (s', .ok k))
    (hk : 0 < k) : ((∀ pos len, s'.readAt n pos len
          = .ok (((s.file n).write offset.toNat (buf.take k)).read pos len))
        ∧ (s'.disk n).size.toNat = max (s.disk n).size.toNat (offset.toNat + k)
        ∧ ∀ m, s.IsFile m → m ≠ n → ∀ pos len,
          s'.readAt m pos len = s.readAt m pos len)
      ↔ (s.disk n).size.toNat ≤ maxBytes := by
  have hbuf : buf ≠ [] := by
    intro hnil
    unfold writeAt at h
    rw [if_pos hnil] at h
    obtain rfl := Except.ok.inj (Prod.mk.inj h).2
    exact absurd hk (Nat.lt_irrefl 0)
  obtain ⟨j, hwrote, hres⟩ := writeAt_wroteAt hs.laid hn now offset hbuf
  rw [h] at hwrote hres
  obtain rfl : k = j := by
    rcases hres with ⟨-, e, he⟩ | ⟨-, hok⟩
    · cases he
    · exact Except.ok.inj hok
  have hfile := hwrote.file hs hn hk
  constructor
  · intro hall
    by_contra hbig
    have hbad := hall.1 maxBytes 1
    rw [readAt_eq, hwrote.size, if_pos (by omega)] at hbad
    cases hbad
  · intro hsmall
    refine ⟨?_, hwrote.size, fun m hm hne => hwrote.readAt_others hm hne⟩
    intro pos len
    have hreach := hwrote.reach hk
    rw [readAt_eq, hwrote.size, if_neg (by omega), hfile]

/-- The first byte of the empty file. -/
theorem write_at_refines_iff_seed :
    (seed.writeAt 2#16 0#32 0#32 [0x61#8]).2 = .ok 1
      ∧ (((∀ pos len, (seed.writeAt 2#16 0#32 0#32 [0x61#8]).1.readAt 2#16
              pos len
            = .ok (((seed.file 2#16).write 0 [0x61#8]).read pos len))
          ∧ ((seed.writeAt 2#16 0#32 0#32 [0x61#8]).1.disk 2#16).size.toNat
            = max (seed.disk 2#16).size.toNat 1
          ∧ ∀ m, seed.IsFile m → m ≠ 2#16 → ∀ pos len,
            (seed.writeAt 2#16 0#32 0#32 [0x61#8]).1.readAt m pos len
              = seed.readAt m pos len)
        ↔ (seed.disk 2#16).size.toNat ≤ maxBytes) := by
  have hok : (seed.writeAt 2#16 0#32 0#32 [0x61#8]).2 = .ok 1 :=
    writeAt_one _ (show (seed.mapBlockId 2#16 0#32 0).2 = .ok 10#16 from rfl)
      (by decide)
  exact ⟨hok, write_at_refines_iff seed_sound (.inl rfl) (Prod.ext rfl hok)
    (by decide)⟩

/-- A write far behind the end fails, and so raises the size past what
pointers reach; then a write at the start succeeds, and a read of a hole
fails. -/
theorem write_then_read_fails :
    ∃ s s', seed.writeAt 2#16 0#32 268966913#32 [0x61#8] = (s, .error .fbig)
      ∧ s.writeAt 2#16 0#32 0#32 [0x61#8] = (s', .ok 1)
      ∧ s'.readAt 2#16 268966912 1 = .error .fbig
      ∧ ((s.file 2#16).write 0 [0x61#8]).read 268966912 1 = [0#8] := by
  have hfirst : seed.writeAt 2#16 0#32 268966913#32 [0x61#8]
      = (seed.finishWrite 2#16 0#32 268966913, .error .fbig) :=
    writeAt_fbig _ (by decide)
  have hok : ((seed.finishWrite 2#16 0#32 268966913).writeAt 2#16 0#32 0#32
      [0x61#8]).2 = .ok 1 :=
    writeAt_one _ (show ((seed.finishWrite 2#16 0#32 268966913).mapBlockId
      2#16 0#32 0).2 = .ok 10#16 from rfl) (by decide)
  have hlaid := finishWrite_laid 2#16 0#32 268966913 seed_sound.laid
  obtain ⟨j, hwrote, -⟩ := writeAt_wroteAt hlaid (n := 2#16) (.inl rfl) 0#32
    0#32 (List.cons_ne_nil 0x61#8 [])
  have hsize : ((seed.finishWrite 2#16 0#32 268966913).disk 2#16).size.toNat
      = 268966913 := rfl
  have hbig := hwrote.size ▸ Nat.le_max_left _ _
  rw [hsize] at hbig
  have hsecond : (seed.finishWrite 2#16 0#32 268966913).writeAt 2#16 0#32
      0#32 [0x61#8] = (((seed.finishWrite 2#16 0#32 268966913).writeAt 2#16
        0#32 0#32 [0x61#8]).1, .ok 1) := Prod.ext rfl hok
  refine ⟨_, _, hfirst, hsecond, ?_, ?_⟩
  · rw [readAt_eq, if_pos]
    unfold maxBytes maxLogicalBlocks blockSize
    omega
  · have hzero : ((seed.finishWrite 2#16 0#32 268966913).file 2#16).get
        268966912 = 0#8 := by
      unfold file
      dsimp only
      split
      next =>
        rw [finishWrite_byte]
        exact seed_sound.tail 2#16 (.inl rfl) _ (Nat.zero_le _)
      next => rfl
    show [overlay ((seed.finishWrite 2#16 0#32 268966913).file 2#16).get 0
      [0x61#8] 268966912] = [0#8]
    rw [overlay_of_le (by decide), hzero]

/-- A failing write leaves the size and what is read as they were exactly
when it does not start behind the end of the file. -/
theorem write_at_failure_iff {s s' : FileStore} (hs : s.Laid) {n : InodeNumber}
    (hn : s.IsFile n) {now offset : BitVec 32} {buf : List Byte}
    {e : WriteErrno} (h : s.writeAt n now offset buf = (s', .error e)) :
    ((s'.disk n).size = (s.disk n).size
        ∧ ∀ pos len, s'.readAt n pos len = s.readAt n pos len)
      ↔ offset.toNat ≤ (s.disk n).size.toNat := by
  have hbuf : buf ≠ [] := by
    intro hnil
    unfold writeAt at h
    rw [if_pos hnil] at h
    cases (Prod.mk.inj h).2
  obtain ⟨j, hwrote, hres⟩ := writeAt_wroteAt hs hn now offset hbuf
  rw [h] at hwrote hres
  obtain rfl : j = 0 := by
    rcases hres with ⟨hj, -⟩ | ⟨-, hok⟩
    · exact hj
    · cases hok
  have hsize := hwrote.size
  rw [Nat.add_zero] at hsize
  constructor
  · intro hsame
    rw [hsame.1] at hsize
    exact hsize ▸ Nat.le_max_right _ _
  · intro hle
    have hsame : (s'.disk n).size = (s.disk n).size := by
      apply BitVec.eq_of_toNat_eq
      rw [hsize, Nat.max_eq_left hle]
    have hbyte : s'.byte n = s.byte n := by
      rw [hwrote.here, List.take_zero, overlay_nil]
    exact ⟨hsame, readAt_congr hsame hbyte⟩

/-- A write behind the end of the empty file, and too far. -/
theorem write_at_failure_iff_far :
    (seed.writeAt 2#16 0#32 268966913#32 [0x61#8]).2 = .error .fbig
      ∧ ((((seed.writeAt 2#16 0#32 268966913#32 [0x61#8]).1.disk 2#16).size
            = (seed.disk 2#16).size
          ∧ ∀ pos len, (seed.writeAt 2#16 0#32 268966913#32
              [0x61#8]).1.readAt 2#16 pos len = seed.readAt 2#16 pos len)
        ↔ (268966913#32).toNat ≤ (seed.disk 2#16).size.toNat) := by
  have hres : (seed.writeAt 2#16 0#32 268966913#32 [0x61#8]).2
      = .error .fbig := by
    rw [writeAt_fbig _ (by decide)]
  exact ⟨hres, write_at_failure_iff seed_sound.laid (.inl rfl)
    (Prod.ext rfl hres)⟩

/-- The write fails, and the empty file has grown. -/
theorem failed_write_grows : ∃ s', seed.writeAt 2#16 0#32 268966913#32 [0x61#8]
        = (s', .error .fbig)
      ∧ (seed.disk 2#16).size = 0#32
      ∧ (s'.disk 2#16).size = 268966913#32 := by
  refine ⟨_, writeAt_fbig _ (by decide), rfl, rfl⟩

end FileStore

end LinuxRs.Minix
