/-
A file that miniximg writes is read back by the kernel: `write_inode_contents`
of miniximg/miniximg-core/src/fs.rs against `read_inode` and `read_at` of
kernel/src/fs/minix.rs.

# The loop

`Holds` is what the loop keeps: every zone of the file has been taken since
the call began and is at one place only, the blocks written so far are in
theirs, and no zone that was taken before has another content. A zone is
taken before it has a place (`Loose`), and a table may be taken in between.
-/
import LinuxRs.Miniximg.Devices
import LinuxRs.Miniximg.Zones
import LinuxRs.Minix.FileBytes

namespace LinuxRs.Miniximg

open Function (update update_self update_of_ne)

open LinuxRs.Lib
open LinuxRs.Minix

variable {fs₀ fs fs' : MinixFileSystem} {i i' : DiskInode} {data : List Byte}
  {k : Nat} {y z : Zone} {p : PointerPath}

-- ======== images

/-- A zone for data that is taken in the bitmap. -/
def Used (fs : MinixFileSystem) (z : Zone) : Prop :=
  ∃ bit, 0 < bit ∧ bit < fs.zoneBitmap.bitCount ∧
    z.toNat = fs.zoneBitmap.startIndex + bit ∧ fs.zoneBitmap.bits bit = true

/-- The metadata lie in front of the zones, the zones lie in the image, and
the reserved bit is taken. -/
structure Ready (fs : MinixFileSystem) : Prop where
  roomy : fs.zoneBitmap.Roomy
  reserved : fs.zoneBitmap.bits 0 = true
  bitmap : 2 + fs.superBlock.inodeBitmapBlockCount.toNat
    + fs.zoneBitmap.blockCount ≤ fs.zoneBitmap.startIndex + 1
  table : ∀ n, ValidInode fs n →
    (inodeBlockPosition fs.superBlock n).1 ≤ fs.zoneBitmap.startIndex
  range : fs.zoneBitmap.startIndex + fs.zoneBitmap.bitCount ≤ 65536
  stored : fs.zoneBitmap.startIndex + fs.zoneBitmap.bitCount ≤ fs.storage.count

theorem Used.bounds (h : Ready fs) (hz : Used fs z) :
    fs.zoneBitmap.startIndex < z.toNat ∧ z.toNat < fs.storage.count := by
  obtain ⟨bit, hpos, hlt, heq, -⟩ := hz
  have hstored := h.stored
  omega

theorem Used.ne_zero (hz : Used fs z) : z ≠ 0#16 := by
  obtain ⟨bit, hpos, -, heq, -⟩ := hz
  rintro rfl
  have hzero : (0#16 : Zone).toNat = 0 := rfl
  omega

/-- A step that may take `t` and writes no other zone. -/
structure Writes (fs fs' : MinixFileSystem) (t : Zone) : Prop where
  ready : Ready fs'
  superBlock : fs'.superBlock = fs.superBlock
  used : ∀ y, Used fs' y ↔ y = t ∨ Used fs y
  same : ∀ y, Used fs y → y ≠ t →
    fs'.storage.blocks y.toNat = fs.storage.blocks y.toNat

/-- An allocated zone was unused and is filled with zeros. -/
theorem allocateZone_writes (h : Ready fs)
    (hrun : allocateZone fs = .ok z fs') : Writes fs fs' z ∧ ¬ Used fs z ∧
      fs'.storage.blocks z.toNat = zeroBlock := by
  unfold allocateZone at hrun
  rw [bind_of_ok (rfl : (get : Io _) fs = .ok fs fs)] at hrun
  rcases Bitmap.alloc_cases h.roomy with ⟨hnone, -⟩ | ⟨bit, hlt, hfree, hsome⟩
  · rw [hnone] at hrun
    cases hrun
  obtain ⟨s, hsync, hcount, hsame⟩ := writeBitmapBlocks_ok
    (2 + fs.superBlock.inodeBitmapBlockCount.toNat)
    (fs.zoneBitmap.marked bit true) fs.zoneBitmap.blockCount 0
    { fs with zoneBitmap := fs.zoneBitmap.marked bit true }
  have hsync : syncZoneBitmap
      { fs with zoneBitmap := fs.zoneBitmap.marked bit true }
        = .ok () { fs with
          zoneBitmap := fs.zoneBitmap.marked bit true
          storage := s } := hsync
  rw [hsome] at hrun
  have hrun : (do
      set { fs with zoneBitmap := fs.zoneBitmap.marked bit true }
      syncZoneBitmap
      writeZeroBlock (BitVec.ofNat 16 (fs.zoneBitmap.startIndex + bit)).toNat
      return BitVec.ofNat 16 (fs.zoneBitmap.startIndex + bit) : Io _) fs
        = .ok z fs' := hrun
  rw [bind_of_ok (rfl : (set _ : Io _) fs = .ok _ _), bind_of_ok hsync]
    at hrun
  obtain ⟨rfl, rfl⟩ := EStateM.Result.ok.inj hrun
  have hrange := h.range
  have hstored := h.stored
  have hbitmap := h.bitmap
  have hpos : 0 < bit := by
    refine Nat.pos_of_ne_zero ?_
    rintro rfl
    rw [h.reserved] at hfree
    cases hfree
  have hz : (BitVec.ofNat 16 (fs.zoneBitmap.startIndex + bit)).toNat
      = fs.zoneBitmap.startIndex + bit := by
    rw [BitVec.toNat_ofNat, Nat.mod_eq_of_lt (by omega)]
  have hused : ∀ y, Used fs y →
      y ≠ BitVec.ofNat 16 (fs.zoneBitmap.startIndex + bit) := by
    rintro y ⟨c, -, -, hy, hc⟩ rfl
    obtain rfl : c = bit := by omega
    rw [hfree] at hc
    cases hc
  have hwrite := Storage.count_le_write s
    (BitVec.ofNat 16 (fs.zoneBitmap.startIndex + bit)).toNat zeroBlock
  refine ⟨⟨⟨h.roomy, ?_, hbitmap, h.table, hrange, ?_⟩, rfl, fun y => ?_,
    fun y hy hne => ?_⟩, fun hz => hused _ hz rfl, if_pos rfl⟩
  · exact (update_of_ne (β := fun _ => Bool) (Nat.ne_of_lt hpos)
      _ _).trans h.reserved
  · exact Nat.le_trans hstored (Nat.le_trans hcount hwrite)
  · constructor
    · rintro ⟨c, hc, hclt, hy, hbits⟩
      by_cases hcb : c = bit
      · refine .inl (BitVec.eq_of_toNat_eq ?_)
        rw [hz, hy, hcb]
        rfl
      · refine .inr ⟨c, hc, hclt, hy, ?_⟩
        exact (update_of_ne (β := fun _ => Bool) hcb _ _).symm.trans hbits
    · rintro (rfl | ⟨c, hc, hclt, hy, hbits⟩)
      · exact ⟨bit, hpos, hlt, hz, update_self (β := fun _ => Bool) bit _ _⟩
      · refine ⟨c, hc, hclt, hy, ?_⟩
        by_cases hcb : c = bit
        · rw [hcb]
          exact update_self (β := fun _ => Bool) bit _ _
        · exact (update_of_ne (β := fun _ => Bool) hcb _ _).trans hbits
  · have hbounds := hy.bounds h
    have hcount : fs.storage.count ≤ s.count := hcount
    refine (Storage.write_apart _ (fun heq =>
      hne (BitVec.eq_of_toNat_eq heq))
      (Nat.lt_of_lt_of_le hbounds.2 hcount)).trans ?_
    have hout : 2 + fs.superBlock.inodeBitmapBlockCount.toNat + 0
        + fs.zoneBitmap.blockCount ≤ y.toNat := by omega
    exact hsame _ hbounds.2 (.inr hout)

theorem writeBlock_writes (h : Ready fs) (hz : Used fs z) (b : Block) :
    Writes fs { fs with storage := fs.storage.write z.toNat b } z where
  ready := ⟨h.roomy, h.reserved, h.bitmap, h.table, h.range,
    Nat.le_trans h.stored (Storage.count_le_write ..)⟩
  superBlock := rfl
  used y := ⟨.inr, fun hy => hy.elim (· ▸ hz) id⟩
  same y hy hne := Storage.write_apart b
    (fun heq => hne (BitVec.eq_of_toNat_eq heq)) (hy.bounds h).2

theorem tableOf_blockOf (table : ZoneTable) :
    tableOf (blockOf table) = table := by
  funext j
  have hlt := j.isLt
  refine u16At_eq ?_ ?_
  · unfold blockOf
    rw [dif_pos (show 2 * j.val / 2 < 512 by omega)]
    have hj : (⟨2 * j.val / 2, by omega⟩ : Fin 512) = j := Fin.ext (by
      show 2 * j.val / 2 = j.val
      omega)
    rw [hj, Nat.mul_mod_right]
    rfl
  · unfold blockOf
    rw [dif_pos (show (2 * j.val + 1) / 2 < 512 by omega)]
    have hj : (⟨(2 * j.val + 1) / 2, by omega⟩ : Fin 512) = j := Fin.ext (by
      show (2 * j.val + 1) / 2 = j.val
      omega)
    rw [hj, Nat.mul_add_mod]
    rfl

theorem writeEntry_writes {t : Zone} {l : Fin 512} (h : Ready fs)
    (ht : Used fs t) (hrun : writeIndirectBlock t (update
      (tableOf (fs.storage.blocks t.toNat)) l z) fs = .ok () fs') :
    Writes fs fs' t ∧ EntryWritten fs.storage.blocks fs'.storage.blocks
      {y | Used fs y} t l z := by
  obtain ⟨-, rfl⟩ := EStateM.Result.ok.inj hrun
  have hwrites := writeBlock_writes h ht (blockOf (update
    (tableOf (fs.storage.blocks t.toNat)) l z))
  refine ⟨hwrites, ?_, hwrites.same⟩
  refine Eq.trans (congrArg tableOf ?_) (tableOf_blockOf _)
  exact if_pos rfl

theorem readIndirectBlock_used {t : Zone} (h : Ready fs) (ht : Used fs t) :
    readIndirectBlock t fs = .ok (tableOf (fs.storage.blocks t.toNat)) fs := by
  unfold readIndirectBlock
  rw [bind_of_ok (readBlock_of_lt (ht.bounds h).2)]
  rfl

theorem lift_ok {A : Type} {x : Io A} {st st' : MinixFileSystem × DiskInode}
    {a : A} (h : InodeIo.lift x st = .ok a st') :
    ∃ fs', x st.1 = .ok a fs' ∧ st' = (fs', st.2) := by
  unfold InodeIo.lift at h
  cases hx : x st.1 with
  | error e fs' =>
    rw [hx] at h
    cases h
  | ok b fs' =>
    rw [hx] at h
    obtain ⟨rfl, rfl⟩ := EStateM.Result.ok.inj h
    exact ⟨fs', rfl, rfl⟩

-- ======== what the loop keeps

/-- Where the loop is on a file, `fs₀` being the file system before it. -/
structure Holds (fs₀ fs : MinixFileSystem) (i : DiskInode)
    (data : List Byte) (k : Nat) : Prop where
  ready : Ready fs
  superBlock : fs.superBlock = fs₀.superBlock
  used : ∀ y, Used fs₀ y → Used fs y
  kept : ∀ y, Used fs₀ y →
    fs.storage.blocks y.toNat = fs₀.storage.blocks y.toNat
  unique : Unique (zoneAt fs.storage.blocks i)
  owned : ∀ p, zoneAt fs.storage.blocks i p ≠ 0#16 →
    Used fs (zoneAt fs.storage.blocks i p) ∧
      ¬ Used fs₀ (zoneAt fs.storage.blocks i p)
  done : ∀ j < k, ∀ slot, slotOf j = some slot →
    zoneAt fs.storage.blocks i slot.path ≠ 0#16 ∧
      fs.storage.blocks (zoneAt fs.storage.blocks i slot.path).toNat
        = chunk data j

/-- A zone that was taken for the file and has no place in it yet. -/
structure Loose (fs₀ fs : MinixFileSystem) (i : DiskInode) (z : Zone) :
    Prop where
  used : Used fs z
  fresh : ¬ Used fs₀ z
  apart : ∀ p, zoneAt fs.storage.blocks i p ≠ z

/-- The file is held as before when a zone is allocated, which is loose. -/
theorem Holds.take (h : Holds fs₀ fs i data k)
    (hrun : allocateZone fs = .ok z fs') :
    Holds fs₀ fs' i data k ∧ Loose fs₀ fs' i z ∧
      fs'.storage.blocks z.toNat = zeroBlock ∧
      ∀ w, Loose fs₀ fs i w → Loose fs₀ fs' i w ∧ w ≠ z := by
  obtain ⟨hw, hfree, hzero⟩ := allocateZone_writes h.ready hrun
  have hne : ∀ y, Used fs y → y ≠ z := fun y hy heq => hfree (heq ▸ hy)
  have hsame : ∀ y, Used fs y →
      fs'.storage.blocks y.toNat = fs.storage.blocks y.toNat :=
    fun y hy => hw.same y hy (hne y hy)
  have hzone : zoneAt fs'.storage.blocks i = zoneAt fs.storage.blocks i :=
    zoneAt_congr fun y hy => by
      obtain ⟨hy0, p, rfl⟩ := hy
      exact hsame _ (h.owned p hy0).1
  refine ⟨⟨hw.ready, hw.superBlock.trans h.superBlock,
    fun y hy => (hw.used y).mpr (.inr (h.used y hy)),
    fun y hy => (hsame y (h.used y hy)).trans (h.kept y hy), ?_, ?_, ?_⟩,
    ⟨(hw.used z).mpr (.inl rfl), fun hz => hfree (h.used z hz), ?_⟩, hzero,
    fun w hloose => ⟨⟨(hw.used w).mpr (.inr hloose.used), hloose.fresh, ?_⟩,
      hne w hloose.used⟩⟩
  · rw [hzone]
    exact h.unique
  · rw [hzone]
    exact fun p hp => ⟨(hw.used _).mpr (.inr (h.owned p hp).1),
      (h.owned p hp).2⟩
  · rw [hzone]
    intro j hj slot hslot
    obtain ⟨hp, hdone⟩ := h.done j hj slot hslot
    exact ⟨hp, (hsame _ (h.owned _ hp).1).trans hdone⟩
  · rw [hzone]
    intro p heq
    have hz0 := ((hw.used z).mpr (.inl rfl)).ne_zero
    exact hfree (heq ▸ (h.owned p (heq ▸ hz0)).1)
  · rw [hzone]
    exact hloose.apart

/-- A loose zone becomes the next one of the file. -/
theorem Holds.attach (h : Holds fs₀ fs i data k) (hz : Loose fs₀ fs i z)
    (hzone : zoneAt fs'.storage.blocks i'
      = update (zoneAt fs.storage.blocks i) p z)
    (hready : Ready fs') (hsb : fs'.superBlock = fs.superBlock)
    (hused : ∀ y, Used fs' y ↔ Used fs y)
    (hsame : ∀ y, Used fs y →
      (∀ q, ¬ q.isData → zoneAt fs.storage.blocks i q ≠ y) →
      fs'.storage.blocks y.toNat = fs.storage.blocks y.toNat)
    (hp : ∀ j < k, ∀ slot, slotOf j = some slot → slot.path ≠ p) :
    Holds fs₀ fs' i' data k := by
  refine ⟨hready, hsb.trans h.superBlock,
    fun y hy => (hused y).mpr (h.used y hy), fun y hy => ?_, ?_, ?_, ?_⟩
  · refine (hsame y (h.used y hy) fun q _ heq => ?_).trans (h.kept y hy)
    subst heq
    exact (h.owned q (h.used _ hy).ne_zero).2 hy
  · rw [hzone]
    intro q q' hq heq
    by_cases hqp : q = p
    · by_cases hqp' : q' = p
      · rw [hqp, hqp']
      · rw [hqp, update_self, update_of_ne hqp'] at heq
        exact absurd heq.symm (hz.apart q')
    · rw [update_of_ne hqp] at hq heq
      by_cases hqp' : q' = p
      · rw [hqp', update_self] at heq
        exact absurd heq (hz.apart q)
      · rw [update_of_ne hqp'] at heq
        exact h.unique q q' hq heq
  · rw [hzone]
    intro q hq
    by_cases hqp : q = p
    · rw [hqp, update_self]
      exact ⟨(hused z).mpr hz.used, hz.fresh⟩
    · rw [update_of_ne hqp] at hq ⊢
      exact ⟨(hused _).mpr (h.owned q hq).1, (h.owned q hq).2⟩
  · rw [hzone]
    intro j hj slot hslot
    obtain ⟨hq, hdone⟩ := h.done j hj slot hslot
    rw [update_of_ne (hp j hj slot hslot)]
    refine ⟨hq, (hsame _ (h.owned _ hq).1 fun q hnot heq => ?_).trans hdone⟩
    exact hnot (h.unique slot.path q hq heq.symm ▸ slot.isData_path)

theorem Loose.attach {w : Zone} (hw : Loose fs₀ fs i w) (hne : w ≠ z)
    (hzone : zoneAt fs'.storage.blocks i'
      = update (zoneAt fs.storage.blocks i) p z)
    (hused : ∀ y, Used fs' y ↔ Used fs y) : Loose fs₀ fs' i' w := by
  refine ⟨(hused w).mpr hw.used, hw.fresh, fun q => ?_⟩
  rw [hzone]
  by_cases hqp : q = p
  · rw [hqp, update_self]
    exact Ne.symm hne
  · rw [update_of_ne hqp]
    exact hw.apart q

theorem Holds.enter {q : PointerPath} {t : Zone} {l : Fin 512}
    (h : Holds fs₀ fs i data k) (hz : Loose fs₀ fs i z)
    (hq : zoneAt fs.storage.blocks i q = t) (htable : ¬ q.isData)
    (ht : t ≠ 0#16) (hrun : writeIndirectBlock t (update
      (tableOf (fs.storage.blocks t.toNat)) l z) fs = .ok () fs')
    (hattach : EntryWritten fs.storage.blocks fs'.storage.blocks
        {y | Used fs y} t l z →
      zoneAt fs'.storage.blocks i = update (zoneAt fs.storage.blocks i) p z)
    (hp : ∀ j < k, ∀ slot, slotOf j = some slot → slot.path ≠ p) :
    Holds fs₀ fs' i data k ∧ zoneAt fs'.storage.blocks i p = z ∧
      ∀ w, Loose fs₀ fs i w → w ≠ z → Loose fs₀ fs' i w := by
  have hused : Used fs t := hq ▸ (h.owned q (hq ▸ ht)).1
  obtain ⟨hw, hentry⟩ := writeEntry_writes h.ready hused hrun
  have hiff : ∀ y, Used fs' y ↔ Used fs y := fun y =>
    (hw.used y).trans ⟨fun hy => hy.elim (· ▸ hused) id, .inr⟩
  have hzone := hattach hentry
  refine ⟨h.attach hz hzone hw.ready hw.superBlock hiff
    (fun y hy hno => hw.same y hy fun heq => hno q htable (hq.trans heq.symm))
    hp, ?_, fun w hloose hne => hloose.attach hne hzone hiff⟩
  rw [hzone, update_self]

-- ======== places

theorem Holds.inside (h : Holds fs₀ fs i data k) :
    owns fs.storage.blocks i ⊆ {y | Used fs y} := by
  rintro y ⟨hy, p, rfl⟩
  exact (h.owned p hy).1

theorem table_apart (hp : ¬ p.isData) : ∀ j < k, ∀ slot,
    slotOf j = some slot → slot.path ≠ p := by
  rintro j - slot - rfl
  exact hp slot.isData_path

theorem Holds.hang {u : Zone} (h : Holds fs₀ fs i data k)
    (hz : Loose fs₀ fs i z) (halloc : allocateZone fs = .ok u fs')
    (hattach : fs'.storage.blocks u.toNat = zeroBlock →
      zoneAt fs'.storage.blocks i' = update (zoneAt fs'.storage.blocks i) p u)
    (htable : ¬ p.isData) :
    Holds fs₀ fs' i' data k ∧ Loose fs₀ fs' i' z ∧ u ≠ 0#16 := by
  obtain ⟨h₁, hu, hzero, hothers⟩ := h.take halloc
  obtain ⟨hz₁, hzu⟩ := hothers z hz
  have hzone := hattach hzero
  exact ⟨h₁.attach hu hzone h₁.ready rfl (fun _ => Iff.rfl)
    (fun _ _ _ => rfl) (table_apart htable),
    hz₁.attach hzu hzone fun _ => Iff.rfl, hu.used.ne_zero⟩

theorem ensureSingle_holds {t : Zone} (h : Holds fs₀ fs i data k)
    (hz : Loose fs₀ fs i z) (hrun : ensureSingle (fs, i) = .ok t (fs', i')) :
    Holds fs₀ fs' i' data k ∧ Loose fs₀ fs' i' z ∧
      i'.singleIndirectZone = t ∧ t ≠ 0#16 := by
  unfold ensureSingle at hrun
  rw [bind_of_ok (inode_eq (fs, i))] at hrun
  rcases ite_ok hrun with ⟨hhole, hrun⟩ | ⟨hne, hrun⟩
  · obtain ⟨u, st, hlift, hrun⟩ := bind_ok hrun
    obtain ⟨fs₁, halloc, rfl⟩ := lift_ok hlift
    obtain ⟨rfl, heq⟩ := EStateM.Result.ok.inj hrun
    cases heq
    obtain ⟨h₁, hz₁, hu⟩ := h.hang hz halloc (attach_single hhole) id
    exact ⟨h₁, hz₁, rfl, hu⟩
  · obtain ⟨rfl, heq⟩ := EStateM.Result.ok.inj hrun
    cases heq
    exact ⟨h, hz, rfl, hne⟩

theorem ensureDouble_holds {t : Zone} (h : Holds fs₀ fs i data k)
    (hz : Loose fs₀ fs i z) (hrun : ensureDouble (fs, i) = .ok t (fs', i')) :
    Holds fs₀ fs' i' data k ∧ Loose fs₀ fs' i' z ∧
      i'.doubleIndirectZone = t ∧ t ≠ 0#16 := by
  unfold ensureDouble at hrun
  rw [bind_of_ok (inode_eq (fs, i))] at hrun
  rcases ite_ok hrun with ⟨hhole, hrun⟩ | ⟨hne, hrun⟩
  · obtain ⟨u, st, hlift, hrun⟩ := bind_ok hrun
    obtain ⟨fs₁, halloc, rfl⟩ := lift_ok hlift
    obtain ⟨rfl, heq⟩ := EStateM.Result.ok.inj hrun
    cases heq
    obtain ⟨h₁, hz₁, hu⟩ := h.hang hz halloc (attach_double hhole) id
    exact ⟨h₁, hz₁, rfl, hu⟩
  · obtain ⟨rfl, heq⟩ := EStateM.Result.ok.inj hrun
    cases heq
    exact ⟨h, hz, rfl, hne⟩

/-- A new pointer block keeps what is written so far. -/
theorem ensureOuter_holds {t u : Zone} {o : Fin 512}
    (h : Holds fs₀ fs i data k) (hz : Loose fs₀ fs i z)
    (hd : i.doubleIndirectZone = t) (ht : t ≠ 0#16)
    (hrun : ensureOuter t o fs = .ok u fs') :
    Holds fs₀ fs' i data k ∧ Loose fs₀ fs' i z ∧
      zoneAt fs'.storage.blocks i (.outer o) = u ∧ u ≠ 0#16 := by
  have hused : Used fs t := by
    rw [← hd]
    exact (h.owned .double fun h0 => ht (hd.symm.trans h0)).1
  have hentry : zoneAt fs.storage.blocks i (.outer o)
      = tableOf (fs.storage.blocks t.toNat) o := by
    show entryOf _ _ _ = _
    unfold entryOf
    rw [hd, if_neg ht]
  unfold ensureOuter at hrun
  rw [bind_of_ok (readIndirectBlock_used h.ready hused)] at hrun
  rcases ite_ok hrun with ⟨hhole, hrun⟩ | ⟨hne, hrun⟩
  · obtain ⟨v, fs₁, halloc, hrun⟩ := bind_ok hrun
    obtain ⟨_, fs₂, hwrite, hrun⟩ := bind_ok hrun
    obtain ⟨rfl, rfl⟩ := pure_ok hrun
    obtain ⟨h₁, hv, hzero, hothers⟩ := h.take halloc
    obtain ⟨hw, hfree, -⟩ := allocateZone_writes h.ready halloc
    obtain ⟨hz₁, hzv⟩ := hothers z hz
    have hvt : t ≠ v := fun heq => hfree (heq ▸ hused)
    have htable := hw.same t hused hvt
    have hhole₁ : entryOf fs₁.storage.blocks i.doubleIndirectZone o
        = 0#16 := by
      unfold entryOf
      rw [hd, if_neg ht, htable, hhole]
    rw [← htable] at hwrite
    obtain ⟨h₂, hhere, hrest⟩ := h₁.enter (q := .double) (p := .outer o) hv hd
      id ht hwrite (fun he => attach_outer h₁.unique h₁.inside (hd.symm ▸ ht)
        hhole₁ (hd.symm ▸ Ne.symm hvt) hv.used hzero (hd.symm ▸ he))
      (table_apart id)
    exact ⟨h₂, hrest z hz₁ hzv, hhere, hv.used.ne_zero⟩
  · obtain ⟨rfl, rfl⟩ := pure_ok hrun
    exact ⟨h, hz, hentry, hne⟩

/-- The next block of the file gets its zone, through new indirect blocks
where these are missing. -/
theorem setDataZone_holds (h : Holds fs₀ fs i data k) (hz : Loose fs₀ fs i z)
    (hrun : setDataZone k z (fs, i) = .ok () (fs', i')) :
    ∃ slot, slotOf k = some slot ∧ Holds fs₀ fs' i' data k ∧
      zoneAt fs'.storage.blocks i' slot.path = z := by
  have hpath : ∀ slot, slotOf k = some slot → ∀ j < k, ∀ slot',
      slotOf j = some slot' → slot'.path ≠ slot.path := by
    intro slot hslot j hj slot' hslot' heq
    rw [← Slot.path_inj heq] at hslot
    exact Nat.ne_of_lt hj (slotOf_inj hslot' hslot)
  unfold setDataZone at hrun
  cases hslot : slotOf k with
  | none =>
    rw [hslot] at hrun
    cases hrun
  | some slot =>
  rw [hslot] at hrun
  refine ⟨slot, rfl, ?_⟩
  cases slot with
  | direct l =>
    obtain ⟨-, heq⟩ := EStateM.Result.ok.inj hrun
    cases heq
    have hzone := attach_direct fs.storage.blocks i l z
    refine ⟨h.attach hz hzone h.ready rfl (fun _ => Iff.rfl)
      (fun _ _ _ => rfl) (hpath _ hslot), ?_⟩
    exact (congrFun hzone _).trans (update_self ..)
  | single l =>
    obtain ⟨t, ⟨fs₁, i₁⟩, hensure, hrun⟩ := bind_ok hrun
    obtain ⟨h₁, hz₁, hd, ht⟩ := ensureSingle_holds h hz hensure
    obtain ⟨fs₂, hset, heq⟩ := lift_ok hrun
    cases heq
    have hused : Used fs₁ t := by
      rw [← hd]
      exact (h₁.owned .single fun h0 => ht (hd.symm.trans h0)).1
    unfold setTableEntry at hset
    rw [bind_of_ok (readIndirectBlock_used h₁.ready hused)] at hset
    obtain ⟨h₂, hhere, -⟩ := h₁.enter (q := .single) (p := .singleEntry l) hz₁
      hd id ht hset (fun he => attach_singleEntry h₁.unique h₁.inside
        (hd.symm ▸ ht) (hd.symm ▸ he)) (hpath _ hslot)
    exact ⟨h₂, hhere⟩
  | double o l =>
    obtain ⟨t, ⟨fs₁, i₁⟩, hensure, hrun⟩ := bind_ok hrun
    obtain ⟨h₁, hz₁, hd, ht⟩ := ensureDouble_holds h hz hensure
    obtain ⟨u, st, hlift, hrun⟩ := bind_ok hrun
    obtain ⟨fs₂, houter, rfl⟩ := lift_ok hlift
    obtain ⟨h₂, hz₂, hu, hu0⟩ := ensureOuter_holds h₁ hz₁ hd ht houter
    obtain ⟨fs₃, hset, heq⟩ := lift_ok hrun
    cases heq
    have hused : Used fs₂ u := by
      rw [← hu]
      exact (h₂.owned (.outer o) (hu.symm ▸ hu0)).1
    unfold setTableEntry at hset
    rw [bind_of_ok (readIndirectBlock_used h₂.ready hused)] at hset
    obtain ⟨h₃, hhere, -⟩ := h₂.enter (q := .outer o) (p := .inner o l) hz₂ hu
      id hu0 hset (fun he => attach_inner h₂.unique h₂.inside
        (fun h0 => hu0 (hu.symm.trans h0))
        (by rwa [show entryOf _ _ o = u from hu])) (hpath _ hslot)
    exact ⟨h₃, hhere⟩

-- ======== the loop

/-- The bytes of the block are written into its zone. -/
theorem Holds.fill {slot : Slot} (h : Holds fs₀ fs i data k)
    (hslot : slotOf k = some slot)
    (hz : zoneAt fs.storage.blocks i slot.path = z) (hne : z ≠ 0#16) :
    Holds fs₀ { fs with storage := fs.storage.write z.toNat (chunk data k) }
      i data (k + 1) := by
  subst hz
  obtain ⟨hused, hfresh⟩ := h.owned slot.path hne
  have hw := writeBlock_writes h.ready hused (chunk data k)
  have hiff := fun y => (hw.used y).trans
    ⟨fun hy => hy.elim (· ▸ hused) id, .inr⟩
  have hzone := zoneAt_congr_tables (i := i) fun q hq hq0 =>
    hw.same _ (h.owned q hq0).1 fun heq =>
      hq (h.unique q slot.path hq0 heq ▸ slot.isData_path)
  refine ⟨hw.ready, h.superBlock, fun y hy => (hiff y).mpr (h.used y hy),
    fun y hy => ?_, ?_, ?_, ?_⟩
  · exact (hw.same y (h.used y hy) fun heq => hfresh (heq ▸ hy)).trans
      (h.kept y hy)
  · rw [hzone]
    exact h.unique
  · rw [hzone]
    exact fun q hq => ⟨(hiff _).mpr (h.owned q hq).1, (h.owned q hq).2⟩
  · rw [hzone]
    intro j hj slot' hslot'
    rcases Nat.lt_succ_iff_lt_or_eq.mp hj with hlt | rfl
    · obtain ⟨hq, hdone⟩ := h.done j hlt slot' hslot'
      refine ⟨hq, (hw.same _ (h.owned _ hq).1 fun heq => ?_).trans hdone⟩
      obtain rfl := Slot.path_inj (h.unique _ _ hq heq)
      exact Nat.ne_of_lt hlt (slotOf_inj hslot' hslot)
    · obtain rfl := Option.some.inj (hslot.symm.trans hslot')
      exact ⟨hne, if_pos rfl⟩

/-- Block by block the file comes to hold its bytes. By induction on the
blocks left. -/
theorem writeContentsFrom_holds :
    ∀ left {k : Nat} {fs : MinixFileSystem} {i : DiskInode},
      Holds fs₀ fs i data k → writeContentsFrom data k left (fs, i) = .ok ()
      (fs', i') → Holds fs₀ fs' i' data (k + left) ∧
        (left ≠ 0 → k + left ≤ maxLogicalBlocks) := by
  intro left
  induction left with
  | zero =>
    intro k fs i h hrun
    obtain ⟨-, heq⟩ := EStateM.Result.ok.inj hrun
    cases heq
    exact ⟨h, fun hne => absurd rfl hne⟩
  | succ left ih =>
    intro k fs i h hrun
    obtain ⟨z, st, hlift, hrun⟩ := bind_ok hrun
    obtain ⟨fs₁, halloc, rfl⟩ := lift_ok hlift
    obtain ⟨h₁, hz, -, -⟩ := h.take halloc
    obtain ⟨_, ⟨fs₂, i₂⟩, hset, hrun⟩ := bind_ok hrun
    obtain ⟨slot, hslot, h₂, hhere⟩ := setDataZone_holds h₁ hz hset
    obtain ⟨_, st, hlift', hrun⟩ := bind_ok hrun
    obtain ⟨fs₃, hwrite, rfl⟩ := lift_ok hlift'
    obtain ⟨-, rfl⟩ := EStateM.Result.ok.inj hwrite
    obtain ⟨h₄, hmax⟩ :=
      ih (h₂.fill hslot hhere hz.used.ne_zero) hrun
    rw [Nat.add_right_comm] at h₄ hmax
    refine ⟨h₄, fun _ => ?_⟩
    by_cases hleft : left = 0
    · have hlt : k < maxLogicalBlocks := by
        by_contra hge
        rw [show slotOf k = none from dif_pos (Nat.not_lt.mp hge)] at hslot
        cases hslot
      omega
    · exact hmax hleft

theorem Holds.start (h : Ready fs) (hbare : bareInode i = i) :
    Holds fs fs i data 0 := by
  have hzone : ∀ p, zoneAt fs.storage.blocks i p = 0#16 := by
    intro p
    rw [← hbare]
    cases p with
    | direct l => rfl
    | single => rfl
    | singleEntry l => exact entryOf_zero _ _
    | double => rfl
    | outer l => exact entryOf_zero _ _
    | inner o l =>
      show entryOf _ (entryOf _ 0#16 o) l = 0#16
      rw [entryOf_zero, entryOf_zero]
  exact ⟨h, rfl, fun _ => id, fun _ _ => rfl,
    fun p q hp => absurd (hzone p) hp, fun p hp => absurd (hzone p) hp,
    fun j hj => absurd hj (Nat.not_lt_zero j)⟩

-- ======== the kernel on the image

/-- The image on a disk; what follows it there is not read. -/
def Storage.onDisk (s : Storage) : Volume.Device := fun n => some (s.blocks n)

/-- The volume of an image with one file, as the kernel's model has it. -/
def kernelStore (fs : MinixFileSystem) (i : DiskInode) : FileStore where
  blocks := fs.storage.blocks
  zoneBitmap := { buffers := [], baseId := 0, bitCount := 0 }
  inode := fun _ =>
    { diskInode := i
      isDirty := false
      accessTime := 0#32
      changeTime := 0#32 }

theorem Holds.byte {n pos : Nat} (h : Holds fs₀ fs i data n)
    (hpos : pos < n * blockSize) (hmax : n ≤ maxLogicalBlocks) :
    (kernelStore fs i).byte 0#16 pos = data.getD pos 0#8 := by
  unfold blockSize at hpos
  have hlt : pos / blockSize < n := by
    unfold blockSize
    omega
  obtain ⟨slot, hslot⟩ := slotOf_isSome (Nat.lt_of_lt_of_le hlt hmax)
  obtain ⟨hne, hdone⟩ := h.done _ hlt slot hslot
  unfold FileStore.byte Volume.fileByte
  rw [FileStore.view_of_slot hslot]
  unfold FileStore.content
  have hzone : (kernelStore fs i).zone 0#16 slot.path
      = zoneAt fs.storage.blocks i slot.path := rfl
  rw [hzone, if_neg hne]
  refine (congrFun hdone _).trans ((if_pos ?_).trans ?_)
  · exact Nat.mod_lt _ (by decide)
  · congr 1
    unfold blockSize
    omega

/-- Other files read as before. -/
theorem Holds.others {j : DiskInode} (h : Holds fs₀ fs i data k)
    (hj : ∀ p, zoneAt fs₀.storage.blocks j p ≠ 0#16 →
      Used fs₀ (zoneAt fs₀.storage.blocks j p)) (pos len : Nat) :
    Volume.readAt fs.storage.onDisk j pos len
      = Volume.readAt fs₀.storage.onDisk j pos len := by
  have hzone : zoneAt fs.storage.blocks j = zoneAt fs₀.storage.blocks j :=
    zoneAt_congr fun y hy => by
      obtain ⟨hy0, p, rfl⟩ := hy
      exact h.kept _ (hj p hy0)
  have hbyte :
      (kernelStore fs j).byte 0#16 = (kernelStore fs₀ j).byte 0#16 := by
    unfold FileStore.byte
    congr 1
    funext b
    cases hslot : slotOf b with
    | none =>
      unfold FileStore.view
      rw [hslot]
      rfl
    | some slot =>
      rw [FileStore.view_of_slot hslot, FileStore.view_of_slot hslot]
      unfold FileStore.content
      have hz : (kernelStore fs j).zone 0#16 slot.path
          = (kernelStore fs₀ j).zone 0#16 slot.path := congrFun hzone _
      rw [hz]
      split
      next => rfl
      next hne => exact h.kept _ (hj _ hne)
  exact @FileStore.readAt_congr (kernelStore fs₀ j) (kernelStore fs j) 0#16
    rfl hbyte pos len

theorem writeInode_run {n : BitVec 16}
    (hrun : writeInode n i fs = .ok () fs') : fs' = { fs with
      storage := fs.storage.write (inodeBlockPosition fs.superBlock n).1
        (putBytes (fs.storage.blocks (inodeBlockPosition fs.superBlock n).1)
          ((inodeBlockPosition fs.superBlock n).2 * diskInodeSize)
          i.encode) } := by
  unfold writeInode at hrun
  rw [bind_of_ok (rfl : (get : Io _) fs = .ok fs fs)] at hrun
  rcases ite_ok hrun with ⟨-, hrun⟩ | ⟨-, hrun⟩
  · cases hrun
  · obtain ⟨b, fs₁, hread, hrun⟩ := bind_ok hrun
    obtain rfl := readOnly_readBlock _ _ _ _ hread
    obtain ⟨-, rfl⟩ := EStateM.Result.ok.inj hrun
    unfold readBlock Storage.read at hread
    split at hread
    next =>
      obtain ⟨rfl, -⟩ := EStateM.Result.ok.inj hread
      rfl
    next => cases hread

theorem Holds.store {n : BitVec 16} (h : Holds fs₀ fs i data k)
    (hn : ValidInode fs₀ n) (hsame : ∀ b, zoneAt b i' = zoneAt b i)
    (hrun : writeInode n i' fs = .ok () fs') : Holds fs₀ fs' i' data k ∧
      Volume.readInode fs'.storage.onDisk fs'.superBlock n = .ok i' := by
  obtain rfl := writeInode_run hrun
  have htable := h.ready.table n (by
    unfold ValidInode
    rw [h.superBlock]
    exact hn)
  have hblocks : ∀ y, Used fs y → (fs.storage.write
      (inodeBlockPosition fs.superBlock n).1 (putBytes
        (fs.storage.blocks (inodeBlockPosition fs.superBlock n).1)
        ((inodeBlockPosition fs.superBlock n).2 * diskInodeSize)
        i'.encode)).blocks y.toNat = fs.storage.blocks y.toNat := by
    intro y hy
    obtain ⟨hlow, hhigh⟩ := hy.bounds h.ready
    exact Storage.write_apart _
      (Nat.ne_of_gt (Nat.lt_of_le_of_lt htable hlow)) hhigh
  have hzone := (hsame _).trans (zoneAt_congr (i := i) fun y hy =>
    hblocks y (h.inside hy))
  refine ⟨⟨⟨h.ready.roomy, h.ready.reserved, h.ready.bitmap, h.ready.table,
    h.ready.range, Nat.le_trans h.ready.stored (Storage.count_le_write ..)⟩,
    h.superBlock, h.used,
    fun y hy => (hblocks y (h.used y hy)).trans (h.kept y hy), ?_, ?_, ?_⟩, ?_⟩
  · rw [hzone]
    exact h.unique
  · rw [hzone]
    exact h.owned
  · rw [hzone]
    intro j hj slot hslot
    obtain ⟨hq, hdone⟩ := h.done j hj slot hslot
    exact ⟨hq, (hblocks _ (h.owned _ hq).1).trans hdone⟩
  · refine congrArg Except.ok (Eq.trans ?_ (DiskInode.decode_encode
      (fs.storage.blocks (inodeBlockPosition fs.superBlock n).1)
      ((inodeBlockPosition fs.superBlock n).2 * diskInodeSize) i'))
    exact congrArg (DiskInode.decode · _) (if_pos rfl)

theorem freeInodeData_bare (fs : MinixFileSystem) (hbare : bareInode i = i) :
    freeInodeData (fs, i) = .ok () (fs, i) := by
  have hdirect : i.directZones = fun _ => 0#16 :=
    hbare ▸ (rfl : (bareInode i).directZones = _)
  have hsingle : i.singleIndirectZone = 0#16 :=
    hbare ▸ (rfl : (bareInode i).singleIndirectZone = _)
  have hdouble : i.doubleIndirectZone = 0#16 :=
    hbare ▸ (rfl : (bareInode i).doubleIndirectZone = _)
  unfold freeInodeData
  rw [bind_of_ok (freeDirects_holes fun _ _ => congrFun hdirect _)]
  refine (freeInodeData_holes hdirect hsingle hdouble).trans ?_
  rw [hbare]

/-- The kernel reads the bytes that the file holds. -/
theorem Holds.read {n : Nat} (h : Holds fs₀ fs i data n)
    (hsize : i.size.toNat = data.length) (hlen : data.length ≤ n * blockSize)
    (hmax : n ≤ maxLogicalBlocks) (pos len : Nat) :
    Volume.readAt fs.storage.onDisk i pos len
      = .ok ((data.drop pos).take len) := by
  have hread := FileStore.readAt_eq (kernelStore fs i) 0#16 pos len
  have hdisk : ((kernelStore fs i).disk 0#16).size.toNat = data.length := hsize
  rw [hdisk, if_neg (by
    unfold FileStore.maxBytes
    unfold blockSize maxLogicalBlocks at *
    omega)] at hread
  refine hread.trans (congrArg Except.ok ?_)
  have hsz : ((kernelStore fs i).file 0#16).size = data.length := hsize
  unfold Sparse.read
  rw [hsz]
  refine List.ext_getElem ?_ fun j hj hj' => ?_
  · rw [List.length_map, List.length_range, List.length_take, List.length_drop]
  · rw [List.length_map, List.length_range] at hj
    rw [List.getElem_map, List.getElem_range, List.getElem_take,
      List.getElem_drop]
    have hlt : pos + j < data.length := by omega
    refine (if_pos (hdisk.symm ▸ hlt)).trans ?_
    rw [h.byte (Nat.lt_of_lt_of_le hlt hlen) hmax,
      List.getD_eq_getElem _ _ hlt]

/-- A new file of the tool, as the kernel finds it in the image: its record
is in the inode table, every read of it gives what was written, and files
whose zones were taken before read as they did. More files can follow. -/
theorem kernel_reads_file {n : BitVec 16} {mtime : BitVec 32}
    (h : Ready fs) (hn : ValidInode fs n) (hbare : bareInode i = i)
    (hrun : writeInodeContents n data mtime (fs, i) = .ok () (fs', i')) :
    Ready fs' ∧ Volume.readInode fs'.storage.onDisk fs'.superBlock n = .ok i' ∧
      (∀ pos len, Volume.readAt fs'.storage.onDisk i' pos len
        = .ok ((data.drop pos).take len)) ∧
      ∀ j, (∀ p, zoneAt fs.storage.blocks j p ≠ 0#16 →
          Used fs (zoneAt fs.storage.blocks j p)) →
        ∀ pos len, Volume.readAt fs'.storage.onDisk j pos len
          = Volume.readAt fs.storage.onDisk j pos len := by
  have hrun := (bind_of_ok (freeInodeData_bare fs hbare)).symm.trans hrun
  split at hrun
  next st hloop =>
    obtain ⟨fs₁, i₁⟩ := st
    obtain ⟨h₁, hmax⟩ :=
      writeContentsFrom_holds _ (Holds.start h hbare) hloop
    unfold finishInode at hrun
    rw [bind_of_ok (rfl : InodeIo.change _ (fs₁, i₁) = .ok () _),
      bind_of_ok (inode_eq _)] at hrun
    obtain ⟨fs₂, hwrite, heq⟩ := lift_ok hrun
    cases heq
    obtain ⟨h₂, hrecord⟩ := h₁.store hn
      (fun b => funext fun p => by cases p <;> rfl) hwrite
    have hblocks : 0 + blocksFor data.length ≤ maxLogicalBlocks := by
      by_cases hzero : blocksFor data.length = 0
      · rw [hzero]
        exact Nat.zero_le _
      · exact hmax hzero
    have hlen : data.length ≤ (0 + blocksFor data.length) * blockSize := by
      unfold blocksFor blockSize
      omega
    have hsize : (BitVec.ofNat 32 data.length).toNat = data.length := by
      unfold blockSize maxLogicalBlocks at *
      rw [BitVec.toNat_ofNat, Nat.mod_eq_of_lt (by omega)]
    exact ⟨h₂.ready, hrecord, h₂.read hsize hlen hblocks,
      fun j hj => h₂.others hj⟩
  next e st hloop =>
    obtain ⟨_, st', -, hrun⟩ := bind_ok hrun
    cases hrun
  next st hloop => cases hrun

/-- An image of eight blocks with room for one inode and three zones. -/
def smallImage : MinixFileSystem where
  storage := { blocks := fun _ => zeroBlock, count := 8 }
  superBlock :=
    { inodeCount := 1#16
      zoneCount := 8#16
      inodeBitmapBlockCount := 1#16
      zoneBitmapBlockCount := 1#16
      firstDataZone := 5#16
      logZoneSize := 0#16
      maxFileSize := maxFileSize
      magic := minixSuperMagic }
  inodeBitmap := .empty 0 2
  zoneBitmap :=
    { startIndex := 4, bitCount := 4, blockCount := 1, bits := (· == 0) }

theorem smallImage_ready : Ready smallImage where
  roomy := by
    show 4 ≤ 1 * bitsPerBlock
    decide
  reserved := rfl
  bitmap := by decide
  table := by
    rintro n ⟨-, hn⟩
    have hn : n.toNat ≤ 1 := hn
    show 2 + 1 + 1 + (n.toNat - 1) / 32 ≤ 4
    omega
  range := by decide
  stored := by decide

theorem kernel_reads_file_small : ∃ fs' i',
    writeInodeContents 1#16 [0x61#8] 0#32 (smallImage, .zeroed)
      = .ok () (fs', i') ∧
    Volume.readAt fs'.storage.onDisk i' 0 1 = .ok [0x61#8] := by
  obtain ⟨fs', i', hrun⟩ : ∃ fs' i', writeInodeContents 1#16 [0x61#8] 0#32
      (smallImage, .zeroed) = .ok () (fs', i') := ⟨_, _, rfl⟩
  exact ⟨fs', i', hrun, (kernel_reads_file smallImage_ready
    ⟨by decide, by decide⟩ rfl hrun).2.2.1 0 1⟩

end LinuxRs.Miniximg
