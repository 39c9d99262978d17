/-
The zones of an inode, one for each pointer path.

A zone is reached from an inode along a path: a direct pointer, one of the two
table pointers, an entry of a table, an entry of a table of tables. `zoneAt`
is the zone at the end of a path, 0 where there is a hole on the way. An inode
is sound when no zone is at the end of two paths (`Unique`).

# Attaching a zone

Whatever `set_data_zone` does on the way (a table allocated, a table entry
written) changes `zoneAt` at one path only, from a hole to a fresh zone; the
`attach` lemmas say so for each kind of path.
-/
import LinuxRs.Miniximg.Geometry

namespace LinuxRs.Miniximg

open Function (update update_self update_of_ne)

open LinuxRs.Lib
open LinuxRs.Minix

-- ======== paths

/-- Where an inode keeps a zone: in itself or in a pointer block. -/
inductive PointerPath
  | direct (index : Fin 7)
  | single
  | singleEntry (index : Fin 512)
  | double
  | outer (index : Fin 512)
  | inner (outer inner : Fin 512)
  deriving DecidableEq

def entryOf (b : Nat → Block) (zone : Zone) (index : Fin 512) : Zone :=
  if zone = 0#16 then 0#16 else tableOf (b zone.toNat) index

def zoneAt (b : Nat → Block) (i : DiskInode) : PointerPath → Zone
  | .direct index => i.directZones index
  | .single => i.singleIndirectZone
  | .singleEntry index => entryOf b i.singleIndirectZone index
  | .double => i.doubleIndirectZone
  | .outer index => entryOf b i.doubleIndirectZone index
  | .inner outer inner => entryOf b (entryOf b i.doubleIndirectZone outer) inner

def owns (b : Nat → Block) (i : DiskInode) : Set Zone :=
  {z | z ≠ 0#16 ∧ ∃ p, zoneAt b i p = z}

/-- No zone is reached by two paths. -/
def Unique (f : PointerPath → Zone) : Prop :=
  ∀ p q, f p ≠ 0#16 → f p = f q → p = q

def Slot.path : Slot → PointerPath
  | .direct index => .direct index
  | .single index => .singleEntry index
  | .double outer inner => .inner outer inner

def PointerPath.isData : PointerPath → Prop
  | .direct _ => True
  | .single => False
  | .singleEntry _ => True
  | .double => False
  | .outer _ => False
  | .inner _ _ => True

theorem Slot.isData_path (s : Slot) : s.path.isData := by
  cases s <;> trivial

theorem Slot.path_inj {s s' : Slot} (h : s.path = s'.path) : s = s' := by
  cases s <;> cases s' <;> simp_all [Slot.path]

def Slot.block : Slot → Nat
  | .direct index => index.val
  | .single index => 7 + index.val
  | .double outer inner => 7 + 512 + outer.val * 512 + inner.val

theorem slotOf_block {k : Nat} {s : Slot} (h : slotOf k = some s) : s.block = k := by
  unfold slotOf at h
  split at h
  next => cases h
  next =>
    split at h
    next =>
      cases h
      rfl
    next =>
      split at h
      next =>
        cases h
        show 7 + (k - 7) = k
        omega
      next =>
        cases h
        show 7 + 512 + (k - 7 - 512) / 512 * 512 + (k - 7 - 512) % 512 = k
        omega

theorem slotOf_inj {k k' : Nat} {s : Slot} (h : slotOf k = some s)
    (h' : slotOf k' = some s) : k = k' := by
  rw [← slotOf_block h, ← slotOf_block h']

theorem slotOf_isSome {k : Nat} (h : k < maxLogicalBlocks) :
    ∃ s, slotOf k = some s := by
  unfold slotOf
  rw [dif_neg (by omega)]
  split
  · exact ⟨_, rfl⟩
  · split
    · exact ⟨_, rfl⟩
    · exact ⟨_, rfl⟩

theorem tableOf_zeroBlock (k : Fin 512) : tableOf zeroBlock k = 0#16 := by
  show (0#8 ++ 0#8 : BitVec 16) = 0#16
  decide

-- ======== agreement

theorem entryOf_zero (b : Nat → Block) (k : Fin 512) : entryOf b 0#16 k = 0#16 :=
  if_pos rfl

theorem entryOf_congr {b b' : Nat → Block} {zone : Zone}
    (h : zone ≠ 0#16 → b' zone.toNat = b zone.toNat) :
    entryOf b' zone = entryOf b zone := by
  funext k
  unfold entryOf
  split
  · rfl
  next hz => rw [h hz]

theorem zoneAt_congr_tables {b b' : Nat → Block} {i : DiskInode}
    (h : ∀ p, ¬ p.isData → zoneAt b i p ≠ 0#16 →
      b' (zoneAt b i p).toNat = b (zoneAt b i p).toNat) :
    zoneAt b' i = zoneAt b i := by
  have hsingle : entryOf b' i.singleIndirectZone = entryOf b i.singleIndirectZone :=
    entryOf_congr fun hz => h .single id hz
  have hdouble : entryOf b' i.doubleIndirectZone = entryOf b i.doubleIndirectZone :=
    entryOf_congr fun hz => h .double id hz
  funext p
  cases p with
  | direct k => rfl
  | single => rfl
  | singleEntry k => exact congrFun hsingle k
  | double => rfl
  | outer k => exact congrFun hdouble k
  | inner k l =>
    show entryOf b' (entryOf b' i.doubleIndirectZone k) l
      = entryOf b (entryOf b i.doubleIndirectZone k) l
    rw [hdouble]
    exact congrFun (entryOf_congr fun hz => h (.outer k) id hz) l

theorem zoneAt_congr {b b' : Nat → Block} {i : DiskInode}
    (h : ∀ z ∈ owns b i, b' z.toNat = b z.toNat) : zoneAt b' i = zoneAt b i :=
  zoneAt_congr_tables fun p _ hz => h _ ⟨hz, p, rfl⟩

-- ======== attach

theorem attach_direct (b : Nat → Block) (i : DiskInode) (k : Fin 7) (z : Zone) :
    zoneAt b { i with directZones := update i.directZones k z }
      = update (zoneAt b i) (.direct k) z := by
  funext p
  cases p with
  | direct k' =>
    by_cases h : k' = k
    · subst h
      rw [update_self]
      exact update_self _ _ _
    · rw [update_of_ne (by simpa using h)]
      exact update_of_ne h _ _
  | single => rfl
  | singleEntry k => rfl
  | double => rfl
  | outer k => rfl
  | inner k l => rfl

theorem attach_single {b : Nat → Block} {i : DiskInode} {z : Zone}
    (hhole : i.singleIndirectZone = 0#16) (hzero : b z.toNat = zeroBlock) :
    zoneAt b { i with singleIndirectZone := z }
      = update (zoneAt b i) .single z := by
  funext p
  cases p with
  | direct k => rfl
  | single => rfl
  | singleEntry k =>
    show entryOf b z k = entryOf b i.singleIndirectZone k
    rw [hhole, entryOf_zero]
    unfold entryOf
    rw [hzero, tableOf_zeroBlock, ite_self]
  | double => rfl
  | outer k => rfl
  | inner k l => rfl

theorem attach_double {b : Nat → Block} {i : DiskInode} {z : Zone}
    (hhole : i.doubleIndirectZone = 0#16) (hzero : b z.toNat = zeroBlock) :
    zoneAt b { i with doubleIndirectZone := z }
      = update (zoneAt b i) .double z := by
  have hentry : ∀ k, entryOf b z k = 0#16 := by
    intro k
    unfold entryOf
    rw [hzero, tableOf_zeroBlock, ite_self]
  funext p
  cases p with
  | direct k => rfl
  | single => rfl
  | singleEntry k => rfl
  | double => rfl
  | outer k =>
    show entryOf b z k = entryOf b i.doubleIndirectZone k
    rw [hhole, entryOf_zero, hentry]
  | inner k l =>
    show entryOf b (entryOf b z k) l = entryOf b (entryOf b i.doubleIndirectZone k) l
    rw [hhole, entryOf_zero, hentry]

/-- One entry of one indirect block is written. -/
structure EntryWritten (b b' : Nat → Block) (kept : Set Zone) (t : Zone)
    (k : Fin 512) (z : Zone) : Prop where
  table : tableOf (b' t.toNat) = update (tableOf (b t.toNat)) k z
  others : ∀ y ∈ kept, y ≠ t → b' y.toNat = b y.toNat

namespace EntryWritten

variable {b b' : Nat → Block} {kept : Set Zone} {t z : Zone} {k : Fin 512}

theorem here (h : EntryWritten b b' kept t k z) (ht : t ≠ 0#16) :
    entryOf b' t = update (entryOf b t) k z := by
  funext l
  by_cases hl : l = k
  · subst hl
    rw [update_self]
    unfold entryOf
    rw [if_neg ht, h.table, update_self]
  · rw [update_of_ne hl]
    unfold entryOf
    rw [if_neg ht, if_neg ht, h.table, update_of_ne hl]

theorem apart (h : EntryWritten b b' kept t k z) {y : Zone} (hy : y ≠ t)
    (hkept : y ≠ 0#16 → y ∈ kept) : entryOf b' y = entryOf b y :=
  entryOf_congr fun hne => h.others y (hkept hne) hy

theorem apart_path (h : EntryWritten b b' kept t k z) {i : DiskInode}
    (hin : owns b i ⊆ kept) (q : PointerPath) (hq : zoneAt b i q ≠ t) :
    entryOf b' (zoneAt b i q) = entryOf b (zoneAt b i q) :=
  h.apart hq fun hne => hin ⟨hne, q, rfl⟩

end EntryWritten

theorem Unique.ne {f : PointerPath → Zone} (hf : Unique f) {p q : PointerPath}
    (hp : f p ≠ 0#16) (hne : p ≠ q) : f q ≠ f p :=
  fun h => hne (hf p q hp h.symm)

section Attach

variable {b b' : Nat → Block} {kept : Set Zone} {i : DiskInode} {k l : Fin 512}
  {z : Zone}

/-- A written entry of the single indirect block is a zone of the file. -/
theorem attach_singleEntry (hu : Unique (zoneAt b i)) (hin : owns b i ⊆ kept)
    (ht : i.singleIndirectZone ≠ 0#16)
    (h : EntryWritten b b' kept i.singleIndirectZone k z) :
    zoneAt b' i = update (zoneAt b i) (.singleEntry k) z := by
  have hdouble : entryOf b' i.doubleIndirectZone = entryOf b i.doubleIndirectZone :=
    h.apart_path hin .double (hu.ne (p := .single) ht (by simp))
  funext p
  cases p with
  | direct k' => rfl
  | single => rfl
  | singleEntry k' =>
    show entryOf b' i.singleIndirectZone k' = _
    rw [h.here ht]
    by_cases hk : k' = k
    · subst hk
      rw [update_self, update_self]
    · rw [update_of_ne hk, update_of_ne (by simpa using hk)]
      rfl
  | double => rfl
  | outer k' => exact congrFun hdouble k'
  | inner k' l =>
    show entryOf b' (entryOf b' i.doubleIndirectZone k') l
      = entryOf b (entryOf b i.doubleIndirectZone k') l
    rw [hdouble]
    exact congrFun (h.apart_path hin (.outer k')
      (hu.ne (p := .single) ht (by simp))) l

/-- A fresh pointer block in a hole keeps the paths apart. -/
theorem attach_outer (hu : Unique (zoneAt b i)) (hin : owns b i ⊆ kept)
    (ht : i.doubleIndirectZone ≠ 0#16)
    (hhole : entryOf b i.doubleIndirectZone k = 0#16)
    (hfresh : z ≠ i.doubleIndirectZone) (hkept : z ∈ kept)
    (hzero : b z.toNat = zeroBlock)
    (h : EntryWritten b b' kept i.doubleIndirectZone k z) :
    zoneAt b' i = update (zoneAt b i) (.outer k) z := by
  funext p
  cases p with
  | direct k' => rfl
  | single => rfl
  | singleEntry k' =>
    exact congrFun (h.apart_path hin .single
      (hu.ne (p := .double) ht (by simp))) k'
  | double => rfl
  | outer k' =>
    show entryOf b' i.doubleIndirectZone k' = _
    rw [h.here ht]
    by_cases hk : k' = k
    · subst hk
      rw [update_self, update_self]
    · rw [update_of_ne hk, update_of_ne (by simpa using hk)]
      rfl
  | inner k' l =>
    show entryOf b' (entryOf b' i.doubleIndirectZone k') l
      = entryOf b (entryOf b i.doubleIndirectZone k') l
    rw [h.here ht]
    by_cases hk : k' = k
    · subst hk
      rw [update_self, hhole, entryOf_zero, h.apart hfresh fun _ => hkept]
      unfold entryOf
      rw [hzero, tableOf_zeroBlock, ite_self]
    · rw [update_of_ne hk]
      exact congrFun (h.apart_path hin (.outer k')
        (hu.ne (p := .double) ht (by simp))) l

/-- A written entry of an inner block is a zone of the file. -/
theorem attach_inner (hu : Unique (zoneAt b i)) (hin : owns b i ⊆ kept)
    (ht : entryOf b i.doubleIndirectZone k ≠ 0#16)
    (h : EntryWritten b b' kept (entryOf b i.doubleIndirectZone k) l z) :
    zoneAt b' i = update (zoneAt b i) (.inner k l) z := by
  have hdouble : entryOf b' i.doubleIndirectZone = entryOf b i.doubleIndirectZone :=
    h.apart_path hin .double (hu.ne (p := .outer k) ht (by simp))
  funext p
  cases p with
  | direct k' => rfl
  | single => rfl
  | singleEntry k' =>
    exact congrFun (h.apart_path hin .single
      (hu.ne (p := .outer k) ht (by simp))) k'
  | double => rfl
  | outer k' => exact congrFun hdouble k'
  | inner k' l' =>
    show entryOf b' (entryOf b' i.doubleIndirectZone k') l' = _
    rw [hdouble]
    by_cases hk : k' = k
    · subst hk
      rw [h.here ht]
      by_cases hl : l' = l
      · subst hl
        rw [update_self, update_self]
      · rw [update_of_ne hl, update_of_ne (by simpa using hl)]
        rfl
    · rw [update_of_ne (by simp [hk])]
      exact congrFun (h.apart_path hin (.outer k')
        (hu.ne (p := .outer k) ht (by simpa using Ne.symm hk))) l'

end Attach

end LinuxRs.Miniximg
