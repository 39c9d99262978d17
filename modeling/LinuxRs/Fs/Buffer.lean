/-
The buffer cache's bookkeeping (kernel/src/fs/buffer.rs): the metadata
of the slots, the replacement list and the key index, with the
operations of `BufferManager` on them.

Slots are an arbitrary type `S`; an `Arc<BufferSlot>` is the slot it
points to. Only the busy bit of the I/O lock is kept here, who waits for
it is modelled by the systems on top.

`Bound` is the invariant of the index: it and the slots' own keys say
the same. `Bound.rebind` is the one place it is not a frame argument.
-/
import LinuxRs.Lib.Count
import LinuxRs.Driver.Block

namespace LinuxRs.Fs

open Function (update update_self update_of_ne)

open LinuxRs.Lib
open LinuxRs.Driver (BufferKey BlockRequestType)

universe u

variable {S : Type u}

-- ======== the data

structure BufferMeta where
  key : Option BufferKey
  refCount : BitVec 16
  dirty : Bool
  upToDate : Bool

def BufferMeta.empty : BufferMeta where
  key := none
  refCount := 0#16
  dirty := false
  upToDate := false

/-- `BufferManager` and the slots it manages. -/
structure BufferManager (S : Type u) where
  buffers : List S
  bufferIndex : BufferKey → Option S
  slot : S → BufferMeta
  ioLocked : S → Bool

/-- `BufferManager::init`: the given slots, all unbound. -/
def BufferManager.init (buffers : List S) : BufferManager S where
  buffers := buffers
  bufferIndex := fun _ => none
  slot := fun _ => .empty
  ioLocked := fun _ => false

-- ======== one slot

section
variable [DecidableEq S]

def BufferManager.onSlot (m : BufferManager S) (s : S)
    (f : BufferMeta → BufferMeta) : BufferManager S :=
  { m with slot := update m.slot s (f (m.slot s)) }

def BufferManager.setKey (m : BufferManager S) (s : S)
    (key : Option BufferKey) : BufferManager S :=
  m.onSlot s fun b => { b with key := key }

/-- `BufferSlot::inc_ref`; the count wraps. -/
def BufferManager.incRef (m : BufferManager S) (s : S) : BufferManager S :=
  m.onSlot s fun b => { b with refCount := b.refCount + 1#16 }

/-- `BufferSlot::dec_ref`; `none` is its panic. -/
def BufferManager.decRef (m : BufferManager S) (s : S) :
    Option (BufferManager S) :=
  if (m.slot s).refCount = 0#16 then none
  else some (m.onSlot s fun b => { b with refCount := b.refCount - 1#16 })

def BufferManager.setDirty (m : BufferManager S) (s : S) (dirty : Bool) :
    BufferManager S :=
  m.onSlot s fun b => { b with dirty := dirty }

def BufferManager.setUpToDate (m : BufferManager S) (s : S)
    (upToDate : Bool) : BufferManager S :=
  m.onSlot s fun b => { b with upToDate := upToDate }

def BufferManager.resetAfterRebind (m : BufferManager S) (s : S) :
    BufferManager S :=
  m.onSlot s fun b =>
    { b with refCount := 1#16, dirty := false, upToDate := false }

/-- `BufferSlot::acquire_io` and `release_io`, the busy bit. -/
def BufferManager.setIoLocked (m : BufferManager S) (s : S)
    (locked : Bool) : BufferManager S :=
  { m with ioLocked := update m.ioLocked s locked }

def BufferManager.keyMatches (m : BufferManager S) (s : S)
    (key : BufferKey) : Bool :=
  (m.slot s).key = some key

def BufferManager.reclaimPenalty (m : BufferManager S) (s : S) : Nat :=
  (if (m.slot s).dirty then 2 else 0) + if m.ioLocked s then 1 else 0

-- ======== the manager

/-- `best.as_ref().is_none_or(|(_, best)| penalty < *best)`. -/
def isBetter (penalty : Nat) : Option (S × Nat) → Bool
  | none => true
  | some (_, best) => penalty < best

/-- The scan of `find_reclaim_candidate` from one list position on, with
the best slot found so far. -/
def BufferManager.scanReclaim (m : BufferManager S) :
    List S → Option (S × Nat) → Option S
  | [], best => best.map Prod.fst
  | s :: rest, best =>
    let penalty := m.reclaimPenalty s
    if (m.slot s).refCount = 0#16 ∧ isBetter penalty best then
      if penalty = 0 then some s else m.scanReclaim rest (some (s, penalty))
    else m.scanReclaim rest best

def BufferManager.findReclaimCandidate (m : BufferManager S) : Option S :=
  m.scanReclaim m.buffers none

def BufferManager.moveToBack (m : BufferManager S) (s : S) : BufferManager S :=
  { m with buffers := m.buffers.erase s ++ [s] }

def BufferManager.pinBuffer (m : BufferManager S) (key : BufferKey) :
    Option (S × BufferManager S) :=
  (m.bufferIndex key).map fun s => (s, m.incRef s)

def BufferManager.indexRemove (m : BufferManager S) (key : BufferKey) :
    BufferManager S :=
  let removed := m.bufferIndex key
  let m := { m with bufferIndex := update m.bufferIndex key none }
  match removed with
  | some s => if m.keyMatches s key then m.setKey s none else m
  | none => m

def BufferManager.indexInsert (m : BufferManager S) (key : BufferKey)
    (s : S) : BufferManager S :=
  let m := m.setKey s (some key)
  let replaced := m.bufferIndex key
  let m := { m with bufferIndex := update m.bufferIndex key (some s) }
  match replaced with
  | some old => if m.keyMatches old key then m.setKey old none else m
  | none => m

/-- `BufferManager::try_rebind_buffer`; `none` is the answer `false`. -/
def BufferManager.tryRebindBuffer (m : BufferManager S) (key : BufferKey)
    (s : S) : Option (BufferManager S) :=
  if (m.bufferIndex key).isSome then none
  else
    let m := match (m.slot s).key with
      | some oldKey => m.indexRemove oldKey
      | none => m
    let m := m.resetAfterRebind s
    let m := m.indexInsert key s
    some (m.moveToBack s)

end

-- ======== the index

/-- The index names a slot exactly if the slot holds that key. -/
def BufferManager.Bound (m : BufferManager S) : Prop :=
  ∀ key s, m.bufferIndex key = some s ↔ (m.slot s).key = some key

theorem BufferManager.Bound.init (buffers : List S) :
    (BufferManager.init buffers).Bound := by
  intro key s
  simp [BufferManager.init, BufferMeta.empty]

theorem BufferManager.Bound.congr {m m' : BufferManager S} (h : m.Bound)
    (hindex : m'.bufferIndex = m.bufferIndex)
    (hkey : ∀ s, (m'.slot s).key = (m.slot s).key) : m'.Bound := by
  intro key s
  rw [hindex, hkey]
  exact h key s

variable [DecidableEq S]

theorem BufferManager.onSlot_slot (m : BufferManager S) (s : S)
    (f : BufferMeta → BufferMeta) (s' : S) : (m.onSlot s f).slot s'
      = if s' = s then f (m.slot s) else m.slot s' := by
  unfold onSlot
  by_cases h : s' = s
  · subst h; simp
  · simp [h]

@[simp] theorem BufferManager.setKey_bufferIndex (m : BufferManager S)
    (s : S) (key : Option BufferKey) :
    (m.setKey s key).bufferIndex = m.bufferIndex := rfl

theorem BufferManager.indexRemove_of_bound {m : BufferManager S}
    (h : m.Bound) {old : BufferKey} {s : S} (hkey : (m.slot s).key = some old) :
    m.indexRemove old =
      { m with bufferIndex := update m.bufferIndex old none }.setKey
        s none := by
  have hindex : m.bufferIndex old = some s := (h old s).mpr hkey
  simp [indexRemove, hindex, keyMatches, hkey]

theorem BufferManager.indexInsert_of_free {m : BufferManager S}
    {key : BufferKey} (hfree : m.bufferIndex key = none) (s : S) :
    m.indexInsert key s = { m.setKey s (some key) with
        bufferIndex := update m.bufferIndex key (some s) } := by
  simp [indexInsert, hfree]

/-- A buffer is rebound only if nobody has put the key in the index
meanwhile. -/
theorem BufferManager.tryRebindBuffer_spec {m m' : BufferManager S}
    (h : m.Bound) {key : BufferKey} {s : S}
    (hre : m.tryRebindBuffer key s = some m') :
    m.bufferIndex key = none ∧ m'.Bound ∧
      m'.slot s = ⟨some key, 1#16, false, false⟩ ∧
      (∀ s', s' ≠ s → m'.slot s' = m.slot s') ∧
      m'.ioLocked = m.ioLocked ∧ m'.buffers = m.buffers.erase s ++ [s] := by
  unfold tryRebindBuffer at hre
  split at hre
  next => cases hre
  next hfree =>
    simp only [Option.not_isSome_iff_eq_none] at hfree
    injection hre with hre
    -- The index before the insertion, whether or not the slot was bound.
    obtain ⟨m₁, hm₁, hfree₁, hindex, hslot, hio, hbuf⟩ : ∃ m₁,
        m₁ = (match (m.slot s).key with
          | some oldKey => m.indexRemove oldKey
          | none => m) ∧ m₁.bufferIndex key = none ∧
        (∀ k s', m₁.bufferIndex k = some s' ↔
          m.bufferIndex k = some s' ∧ s' ≠ s) ∧
        (∀ s', s' ≠ s → m₁.slot s' = m.slot s') ∧
        m₁.ioLocked = m.ioLocked ∧ m₁.buffers = m.buffers := by
      refine ⟨_, rfl, ?_⟩
      cases hkey : (m.slot s).key with
      | none =>
        refine ⟨hfree, ?_, fun _ _ => rfl, rfl, rfl⟩
        intro k s'
        refine ⟨fun hk => ⟨hk, ?_⟩, And.left⟩
        rintro rfl
        rw [(h k s').mp hk] at hkey
        cases hkey
      | some old =>
        simp only
        rw [indexRemove_of_bound h hkey]
        have hold := (h old s).mpr hkey
        refine ⟨?_, ?_, ?_, rfl, rfl⟩
        · simp only [setKey_bufferIndex]
          by_cases hk : key = old
          · rw [hk, update_self]
          · rw [update_of_ne hk, hfree]
        · intro k s'
          simp only [setKey_bufferIndex]
          by_cases hk : k = old
          · subst hk
            rw [update_self, hold]
            simp only [reduceCtorEq, Option.some.injEq, false_iff, not_and,
              not_not]
            exact Eq.symm
          · rw [update_of_ne hk]
            refine ⟨fun hks => ⟨hks, ?_⟩, And.left⟩
            rintro rfl
            rw [(h k s').mp hks, Option.some.injEq] at hkey
            exact hk hkey
        · intro s' hs'
          simp [setKey, onSlot_slot, hs']
    rw [← hm₁, indexInsert_of_free (by exact hfree₁)] at hre
    subst hre
    have hself : ∀ s', s' ≠ s → ((((m₁.resetAfterRebind s).setKey s
        (some key)).slot s') = m.slot s') := by
      intro s' hs'
      simp only [setKey, resetAfterRebind, onSlot_slot, if_neg hs']
      exact hslot s' hs'
    refine ⟨hfree, ?_, ?_, hself, hio, ?_⟩
    · intro k s'
      simp only [moveToBack]
      change update m₁.bufferIndex key (some s) k = some s' ↔ _
      by_cases hs' : s' = s
      · subst hs'
        by_cases hk : k = key
        · subst hk
          simp [setKey, onSlot_slot]
        · rw [update_of_ne hk, hindex]
          simp [setKey, onSlot_slot, Ne.symm hk]
      · rw [hself s' hs']
        by_cases hk : k = key
        · subst hk
          rw [update_self, ← h k s', hfree]
          simp [Ne.symm hs']
        · rw [update_of_ne hk, hindex, h k s']
          simp [hs']
    · simp [moveToBack, setKey, resetAfterRebind, onSlot_slot]
    · simp only [moveToBack]
      rw [← hbuf]
      rfl

-- ======== the counts

/-- Only the reference counts differ. -/
structure Recount (m m' : BufferManager S) : Prop where
  index : m'.bufferIndex = m.bufferIndex
  buffers : m'.buffers = m.buffers
  key : ∀ x, (m'.slot x).key = (m.slot x).key
  dirty : ∀ x, (m'.slot x).dirty = (m.slot x).dirty
  upToDate : ∀ x, (m'.slot x).upToDate = (m.slot x).upToDate

theorem Recount.onSlot (m : BufferManager S) (s : S)
    (f : BitVec 16 → BitVec 16) :
    Recount m (m.onSlot s fun b => { b with refCount := f b.refCount }) := by
  refine ⟨rfl, rfl, fun x => ?_, fun x => ?_, fun x => ?_⟩ <;>
  · rw [BufferManager.onSlot_slot]
    split
    next hx => rw [hx]
    next => rfl

theorem BufferManager.decRef_spec {m : BufferManager S} {slot : S}
    (hne : (m.slot slot).refCount ≠ 0#16) :
    ∃ m', m.decRef slot = some m' ∧ Recount m m' ∧
      ∀ x, (m'.slot x).refCount.toNat + share (some slot) x
        = (m.slot x).refCount.toNat := by
  refine ⟨_, if_neg hne, Recount.onSlot m slot (· - 1#16), fun x => ?_⟩
  rw [onSlot_slot]
  split
  next hx =>
    subst hx
    have hlt := (m.slot x).refCount.isLt
    have hpos : (m.slot x).refCount.toNat ≠ 0 := fun h0 =>
      hne (BitVec.eq_of_toNat_eq (by simpa using h0))
    rw [share_self]
    simp only [BitVec.toNat_sub, BitVec.toNat_ofNat]
    omega
  next hx => rw [share_of_ne (Ne.symm hx), Nat.add_zero]

theorem BufferManager.incRef_spec (m : BufferManager S) (slot : S) :
    Recount m (m.incRef slot) ∧ ((m.slot slot).refCount ≠ 65535#16 → ∀ x,
        ((m.incRef slot).slot x).refCount.toNat
          = (m.slot x).refCount.toNat + share (some slot) x) := by
  refine ⟨Recount.onSlot m slot (· + 1#16), fun hne x => ?_⟩
  rw [incRef, onSlot_slot]
  split
  next hx =>
    subst hx
    have hlt := (m.slot x).refCount.isLt
    have htop : (m.slot x).refCount.toNat ≠ 65535 := fun h0 =>
      hne (BitVec.eq_of_toNat_eq (by simpa using h0))
    rw [share_self]
    simp only [BitVec.toNat_add, BitVec.toNat_ofNat]
    omega
  next hx => rw [share_of_ne (Ne.symm hx), Nat.add_zero]

/-- What the scan chooses is not pinned. -/
theorem BufferManager.scanReclaim_spec (m : BufferManager S) :
    ∀ (l : List S) (best : Option (S × Nat)),
      (∀ p, best = some p → (m.slot p.1).refCount = 0#16) →
      (∀ x, m.scanReclaim l best = some x → (m.slot x).refCount = 0#16) ∧
      (best.isSome ∨ (∃ x ∈ l, (m.slot x).refCount = 0#16) →
        (m.scanReclaim l best).isSome) := by
  intro l
  induction l with
  | nil =>
    intro best hbest
    refine ⟨fun x hx => ?_, fun h => ?_⟩
    · obtain ⟨p, hp, hpx⟩ := Option.map_eq_some_iff.mp hx
      exact hpx ▸ hbest p hp
    · rcases h with h | ⟨x, hx, -⟩
      · simpa [scanReclaim] using h
      · cases hx
  | cons y rest ih =>
    intro best hbest
    simp only [scanReclaim]
    by_cases htake : (m.slot y).refCount = 0#16 ∧
        isBetter (m.reclaimPenalty y) best
    · rw [if_pos htake]
      by_cases hpen : m.reclaimPenalty y = 0
      · rw [if_pos hpen]
        refine ⟨fun x hx => ?_, fun _ => rfl⟩
        injection hx with hx
        exact hx ▸ htake.1
      · rw [if_neg hpen]
        obtain ⟨hzero, hsome⟩ := ih (some (y, m.reclaimPenalty y)) (by
          intro p hp
          injection hp with hp
          exact hp ▸ htake.1)
        exact ⟨hzero, fun _ => hsome (.inl rfl)⟩
    · rw [if_neg htake]
      obtain ⟨hzero, hsome⟩ := ih best hbest
      refine ⟨hzero, fun h => hsome ?_⟩
      rcases h with h | ⟨x, hx, hx0⟩
      · exact .inl h
      · rcases List.mem_cons.mp hx with rfl | hx
        · cases best with
          | none => exact absurd ⟨hx0, rfl⟩ htake
          | some p => exact .inl rfl
        · exact .inr ⟨x, hx, hx0⟩

theorem BufferManager.findReclaimCandidate_spec (m : BufferManager S)
    {y : S} (hmem : y ∈ m.buffers) (hy : (m.slot y).refCount = 0#16) :
    ∃ x, m.findReclaimCandidate = some x ∧ (m.slot x).refCount = 0#16 := by
  obtain ⟨hzero, hsome⟩ := m.scanReclaim_spec m.buffers none (by simp)
  obtain ⟨x, hx⟩ := Option.isSome_iff_exists.mp (hsome (.inr ⟨y, hmem, hy⟩))
  exact ⟨x, hx, hzero x hx⟩

end LinuxRs.Fs
