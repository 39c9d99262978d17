/-
The layout of a new image (`create` of miniximg/miniximg-core/src/fs.rs, up
to its super block): the checks of the options, the loop that sizes the zone
bitmap, the check behind it.

# The loop

One more block of bitmap leaves one zone less to be covered. With `spread`
blocks for the bitmap and the data zones together, a bitmap of `z` blocks
has to cover `spread - z + 1` bits, so `z` asks for itself exactly if
`8193 (z - 1) < spread < 8193 z`. For every other `spread` there is such a
`z`, and the loop finds it in its fourth round at the latest
(`sizeZoneBitmap_stops`). At a multiple `8193 k` there is none: `k` asks
for `k + 1` and `k + 1` for `k`, without end (`sizeZoneBitmap_turns`).
-/
import LinuxRs.Miniximg.Ops

namespace LinuxRs.Miniximg

open LinuxRs.Lib
open LinuxRs.Minix

-- ======== the layout

/-- The blocks of metadata besides the zone bitmap: the boot block, the
super block, the inode bitmap and the inode table. -/
def metadataBlocks (options : CreateImageOptions) : Nat :=
  2 + divCeil (options.inodeCount.toNat + 1) bitsPerBlock
    + divCeil options.inodeCount.toNat inodesPerBlock

/-- `create` up to its super block, with a bound on the rounds of the
loop. -/
def layout (fuel : Nat) (options : CreateImageOptions) :
    Option (Except MinixError DiskSuperBlock) :=
  match checkOptions options with
  | .error e => some (.error e)
  | .ok () =>
    match sizeZoneBitmap (options.imageSize / blockSize)
        (metadataBlocks options) fuel 1 with
    | none => none
    | some (.error e) => some (.error e)
    | some (.ok zoneBitmapBlockCount) =>
      let sb := newSuperBlock options zoneBitmapBlockCount
      if sb.firstDataZone.toNat ≥ options.imageSize / blockSize then
        some (.error (.invalidArgument
          (text "image layout leaves no room for data zones")))
      else some (.ok sb)

/-- What a layout has to be: the parts follow each other, each bitmap has a
bit for all it stands for and the reserved one, the table has a slot for
each inode, and there is a zone for data. -/
structure Covers (sb : DiskSuperBlock) : Prop where
  inodes : sb.inodeCount.toNat + 1
    ≤ sb.inodeBitmapBlockCount.toNat * bitsPerBlock
  zones : sb.zoneCount.toNat - sb.firstDataZone.toNat + 1
    ≤ sb.zoneBitmapBlockCount.toNat * bitsPerBlock
  table : 2 + sb.inodeBitmapBlockCount.toNat + sb.zoneBitmapBlockCount.toNat
      + divCeil sb.inodeCount.toNat inodesPerBlock
    = sb.firstDataZone.toNat
  data : sb.firstDataZone.toNat < sb.zoneCount.toNat

-- ======== one round

theorem required_eq {spread z : Nat} (hz : z < spread) :
    divCeil (spread - z + 1) bitsPerBlock = (spread - z) / 8192 + 1 := by
  unfold divCeil bitsPerBlock
  omega

theorem sizeZoneBitmap_round {zoneCount metadata fuel z : Nat}
    (hz : metadata + z < zoneCount) :
    sizeZoneBitmap zoneCount metadata (fuel + 1) z
      = if (zoneCount - metadata - z) / 8192 + 1 = z then some (.ok z)
        else sizeZoneBitmap zoneCount metadata fuel
          ((zoneCount - metadata - z) / 8192 + 1) := by
  have hreq : divCeil (zoneCount - (metadata + z) + 1) bitsPerBlock
      = (zoneCount - metadata - z) / 8192 + 1 := by
    rw [← required_eq (show z < zoneCount - metadata by omega)]
    congr 2
    omega
  have hmax : Nat.max ((zoneCount - metadata - z) / 8192 + 1) 1
      = (zoneCount - metadata - z) / 8192 + 1 :=
    Nat.max_eq_left (Nat.succ_le_succ (Nat.zero_le _))
  show (if zoneCount ≤ metadata + z then _ else _) = _
  rw [if_neg (by omega), hreq, hmax]

-- ======== the loop

/-- Where the loop stops, the bitmap has a bit for every data zone. -/
theorem sizeZoneBitmap_covers {zoneCount metadata : Nat} :
    ∀ {fuel z result : Nat},
      sizeZoneBitmap zoneCount metadata fuel z = some (.ok result) →
      metadata + result < zoneCount
        ∧ zoneCount - (metadata + result) + 1 ≤ result * 8192
        ∧ zoneCount - (metadata + result) + 1 > (result - 1) * 8192 := by
  intro fuel
  induction fuel with
  | zero =>
    intro z result h
    cases h
  | succ fuel ih =>
    intro z result h
    rcases Nat.lt_or_ge (metadata + z) zoneCount with hlt | hge
    · rw [sizeZoneBitmap_round hlt] at h
      split at h
      next hfix =>
        injection h with h
        injection h with h
        rw [← h]
        omega
      next => exact ih h
    · have hfull : sizeZoneBitmap zoneCount metadata (fuel + 1) z
          = some (.error (.invalidArgument (text
            "image is too small to hold the requested metadata layout"))) :=
        if_pos hge
      rw [hfull] at h
      cases h

/-- The loop stops, except for the sizes between which it goes to and fro. -/
theorem sizeZoneBitmap_stops {zoneCount metadata : Nat}
    (hcount : zoneCount ≤ 65535)
    (hspread : ∀ k, 0 < k → zoneCount ≠ metadata + 8193 * k) :
    sizeZoneBitmap zoneCount metadata 4 1 ≠ none := by
  rcases Nat.lt_or_ge (metadata + 1) zoneCount with hlt | hge
  · have hmod : (zoneCount - metadata) % 8193 ≠ 0 := by
      intro h
      exact hspread ((zoneCount - metadata) / 8193) (by omega) (by omega)
    obtain ⟨q, r, hr, hq⟩ : ∃ q r, 0 < r ∧ r ≤ 8192 ∧ q ≤ 7
        ∧ zoneCount - metadata = 8193 * q + r :=
      ⟨(zoneCount - metadata) / 8193, (zoneCount - metadata) % 8193,
        by omega, by omega, by omega, by omega⟩
    obtain ⟨hr', hq, hsum⟩ := hq
    rw [sizeZoneBitmap_round hlt]
    split
    · exact Option.some_ne_none _
    next hfirst =>
      -- The first guess asks for the right size, or for one block more.
      have hz : (zoneCount - metadata - 1) / 8192 + 1 = q + 1
          ∨ ((zoneCount - metadata - 1) / 8192 + 1 = q + 2 ∧ 2 ≤ r
            ∧ 1 ≤ q) := by omega
      have hfix : (zoneCount - metadata - (q + 1)) / 8192 + 1 = q + 1 := by
        omega
      have hstop : ∀ fuel, sizeZoneBitmap zoneCount metadata (fuel + 1)
          (q + 1) ≠ none := by
        intro fuel
        rw [sizeZoneBitmap_round (by omega), if_pos hfix]
        exact Option.some_ne_none _
      rcases hz with hz | ⟨hz, htwo, hone⟩
      · rw [hz]
        exact hstop 2
      · have hnext : (zoneCount - metadata - (q + 2)) / 8192 + 1 = q + 1 := by
          omega
        rw [hz, sizeZoneBitmap_round (by omega), hnext, if_neg (by omega)]
        exact hstop 1
  · have hfull : sizeZoneBitmap zoneCount metadata 4 1
        = some (.error (.invalidArgument (text
          "image is too small to hold the requested metadata layout"))) :=
      if_pos hge
    rw [hfull]
    exact Option.some_ne_none _

theorem sizeZoneBitmap_turns {metadata k : Nat} (hk : 0 < k)
    (hcount : metadata + 8193 * k ≤ 65535) :
    ∀ fuel z, z = 1 ∨ z = k ∨ z = k + 1 →
      sizeZoneBitmap (metadata + 8193 * k) metadata fuel z = none := by
  intro fuel
  induction fuel with
  | zero => exact fun _ _ => rfl
  | succ fuel ih =>
    intro z hz
    rw [sizeZoneBitmap_round (by omega)]
    rw [if_neg (by omega)]
    exact ih _ (by omega)

-- ======== create

/-- The options at which the loop turns for ever: the zones that are left
for the zone bitmap and the data are a multiple of 8193. -/
def Turns (options : CreateImageOptions) : Prop :=
  checkOptions options = .ok () ∧ ∃ k, 0 < k ∧ options.imageSize / blockSize
      = metadataBlocks options + (bitsPerBlock + 1) * k

theorem checkOptions_zones {options : CreateImageOptions}
    (h : checkOptions options = .ok ()) :
    options.imageSize / blockSize ≤ 65535 := by
  unfold checkOptions at h
  split at h
  · cases h
  · split at h
    · cases h
    next hzones => omega

/-- The sizes that were found go into the super block. -/
theorem newSuperBlock_covers {options : CreateImageOptions} {z : Nat}
    (hcheck : checkOptions options = .ok ())
    (hfit : metadataBlocks options + z < options.imageSize / blockSize)
    (hcover : options.imageSize / blockSize - (metadataBlocks options + z) + 1
      ≤ z * 8192) :
    Covers (newSuperBlock options z) := by
  have hzones := checkOptions_zones hcheck
  have hinodes := options.inodeCount.isLt
  have hib : divCeil (options.inodeCount.toNat + 1) bitsPerBlock < 65536 := by
    unfold divCeil bitsPerBlock
    omega
  have hfirst : (newSuperBlock options z).firstDataZone.toNat
      = metadataBlocks options + z := by
    show (BitVec.ofNat 16 _).toNat = _
    unfold metadataBlocks at hfit ⊢
    rw [BitVec.toNat_ofNat, Nat.mod_eq_of_lt (by omega)]
    omega
  have hcount : (newSuperBlock options z).zoneCount.toNat
      = options.imageSize / blockSize := by
    show (BitVec.ofNat 16 _).toNat = _
    rw [BitVec.toNat_ofNat, Nat.mod_eq_of_lt (by omega)]
  have hinodeBlocks : (newSuperBlock options z).inodeBitmapBlockCount.toNat
      = divCeil (options.inodeCount.toNat + 1) bitsPerBlock := by
    show (BitVec.ofNat 16 _).toNat = _
    rw [BitVec.toNat_ofNat, Nat.mod_eq_of_lt (by omega)]
  have hzoneBlocks : (newSuperBlock options z).zoneBitmapBlockCount.toNat
      = z := by
    show (BitVec.ofNat 16 _).toNat = _
    rw [BitVec.toNat_ofNat, Nat.mod_eq_of_lt (by omega)]
  constructor
  case inodes =>
    rw [hinodeBlocks]
    show options.inodeCount.toNat + 1 ≤ _
    unfold divCeil bitsPerBlock
    omega
  case zones =>
    rw [hfirst, hcount, hzoneBlocks]
    exact hcover
  case table =>
    rw [hinodeBlocks, hzoneBlocks, hfirst]
    show _ + divCeil options.inodeCount.toNat inodesPerBlock = _
    unfold metadataBlocks
    omega
  case data =>
    rw [hfirst, hcount]
    exact hfit

/-- The layout has room for every bit of its bitmaps. -/
theorem layout_covers {fuel : Nat} {options : CreateImageOptions}
    {sb : DiskSuperBlock} (h : layout fuel options = some (.ok sb)) :
    Covers sb := by
  unfold layout at h
  cases hcheck : checkOptions options with
  | error e =>
    rw [hcheck] at h
    cases h
  | ok u =>
    rw [hcheck] at h
    cases hsize : sizeZoneBitmap (options.imageSize / blockSize)
        (metadataBlocks options) fuel 1 with
    | none =>
      rw [hsize] at h
      cases h
    | some r =>
      rw [hsize] at h
      cases r with
      | error e => cases h
      | ok z =>
        obtain ⟨hfit, hcover, -⟩ := sizeZoneBitmap_covers hsize
        by_cases hroom : (newSuperBlock options z).firstDataZone.toNat
            ≥ options.imageSize / blockSize
        · simp only [if_pos hroom] at h
          cases h
        · simp only [if_neg hroom] at h
          cases h
          exact newSuperBlock_covers hcheck hfit hcover

theorem create_isSome (fuel : Nat) (storage : Storage)
    (options : CreateImageOptions) :
    (create fuel storage options).isSome = (layout fuel options).isSome := by
  unfold create layout metadataBlocks
  cases checkOptions options with
  | error e => rfl
  | ok u =>
    dsimp only
    generalize sizeZoneBitmap _ _ fuel 1 = r
    cases r with
    | none => rfl
    | some r =>
      cases r with
      | error e => rfl
      | ok z =>
        dsimp only
        split
        · rfl
        · cases blankImage storage options z with
          | error e => rfl
          | ok fs =>
            dsimp only
            cases createRoot options fs with
            | ok u fs' => rfl
            | error e fs' => rfl

theorem layout_of_size {fuel : Nat} {options : CreateImageOptions}
    (h : checkOptions options = .ok () →
      sizeZoneBitmap (options.imageSize / blockSize)
        (metadataBlocks options) fuel 1 ≠ none) :
    ∃ r, layout fuel options = some r := by
  unfold layout
  cases hcheck : checkOptions options with
  | error e => exact ⟨_, rfl⟩
  | ok u =>
    cases hsize : sizeZoneBitmap (options.imageSize / blockSize)
        (metadataBlocks options) fuel 1 with
    | none => exact absurd hsize (h hcheck)
    | some r =>
      cases r with
      | error e => exact ⟨_, rfl⟩
      | ok z =>
        dsimp only
        split
        · exact ⟨_, rfl⟩
        · exact ⟨_, rfl⟩

theorem layout_turns {options : CreateImageOptions} (h : Turns options)
    (fuel : Nat) : layout fuel options = none := by
  obtain ⟨hcheck, k, hk, hspread⟩ := h
  have hzones := checkOptions_zones hcheck
  have hspread : options.imageSize / blockSize
      = metadataBlocks options + 8193 * k := hspread
  unfold layout
  rw [hcheck]
  rw [hspread, sizeZoneBitmap_turns hk (by omega) fuel 1 (.inl rfl)]

/-- `create` stops with an error or with a layout that covers everything,
exactly if the zones left for the zone bitmap and the data are no multiple
of 8193. -/
theorem create_layout_iff (storage : Storage) (options : CreateImageOptions) :
    (∃ fuel r, layout fuel options = some r
      ∧ (create fuel storage options).isSome = true
      ∧ ∀ sb, r = .ok sb → Covers sb) ↔ ¬ Turns options := by
  constructor
  · intro h hturns
    obtain ⟨fuel, r, hlayout, -⟩ := h
    rw [layout_turns hturns fuel] at hlayout
    cases hlayout
  · intro h
    have hsizes : checkOptions options = .ok () →
        sizeZoneBitmap (options.imageSize / blockSize)
          (metadataBlocks options) 4 1 ≠ none := by
      intro hcheck
      refine sizeZoneBitmap_stops (checkOptions_zones hcheck) ?_
      intro k hk hspread
      exact h ⟨hcheck, k, hk, hspread⟩
    obtain ⟨r, hr⟩ := layout_of_size hsizes
    refine ⟨4, r, hr, ?_, ?_⟩
    · rw [create_isSome, hr]
      rfl
    · intro sb hsb
      rw [hsb] at hr
      exact layout_covers hr

/-- An image of 8197 blocks with one block of inodes: the loop turns
between one and two blocks of zone bitmap. -/
theorem create_turns :
    checkOptions ⟨8393728, 32#16, 0o755#16, 0#16, 0#8, 0#32⟩ = .ok ()
      ∧ ∀ fuel storage, create fuel storage
        ⟨8393728, 32#16, 0o755#16, 0#16, 0#8, 0#32⟩ = none := by
  have hturns : Turns ⟨8393728, 32#16, 0o755#16, 0#16, 0#8, 0#32⟩ :=
    ⟨rfl, 1, Nat.one_pos, rfl⟩
  refine ⟨rfl, ?_⟩
  intro fuel storage
  have hnone := create_isSome fuel storage
    ⟨8393728, 32#16, 0o755#16, 0#16, 0#8, 0#32⟩
  rw [layout_turns hturns fuel] at hnone
  apply Option.not_isSome_iff_eq_none.mp
  rw [hnone]
  exact Bool.false_ne_true

end LinuxRs.Miniximg
