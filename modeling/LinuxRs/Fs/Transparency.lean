/-
The buffer cache is transparent: the operations of one task return what
they return on flat arrays, and a sync brings the disk up to them.

# Structure

Bytes first: a chunk of `block_read` or `block_write` stays inside one
block, so it is a slice or an overlay of that block. Then `Coherent`
under each primitive, then `Sim` for the functions that return a pinned
slot (`acquireSlot_spec`, `read_spec`), and the operations on top.

The task may pin at most all buffers but one, or it would sleep for a
free one for ever; that is the guard of the final theorem.
-/
import Mathlib.Data.List.InsertIdx
import Mathlib.Data.List.Perm.Basic
import LinuxRs.Lib.Count
import LinuxRs.Fs.BlockIo

namespace LinuxRs.Fs

open Function (update update_self update_apply update_of_ne)

open LinuxRs.Lib
open LinuxRs.Driver (BufferKey BlockRequestType DevNum)

variable {S : Type}

-- ======== bytes

theorem sectorBase_eq {key : BufferKey} (h : OnDevice key) :
    sectorBase key = blockBase key := by
  unfold OnDevice at h
  unfold sectorBase blockBase blockSize
  rw [BitVec.toNat_mul]
  simp only [BitVec.toNat_ofNat]
  omega

theorem Bytes.block_setBlock_self (a : Bytes) (key : BufferKey) (b : Block) :
    (a.setBlock key b).block key = b := by
  funext i
  have hi := i.isLt
  simp only [Bytes.block, Bytes.blockAt, Bytes.setBlock, Bytes.setBlockAt]
  rw [dif_pos ⟨trivial, by omega, by omega⟩]
  congr
  omega

theorem Bytes.block_setBlock_of_ne (a : Bytes) {key key' : BufferKey}
    (hne : key' ≠ key) (b : Block) :
    (a.setBlock key b).block key' = a.block key' := by
  funext i
  simp only [Bytes.block, Bytes.blockAt, Bytes.setBlock, Bytes.setBlockAt]
  rw [dif_neg]
  intro h
  obtain ⟨hdev, hlo, hhi⟩ := h
  have hi := i.isLt
  have hnum : key'.blockNumber.toNat = key.blockNumber.toNat := by
    unfold blockBase blockSize at hlo hhi
    unfold blockSize at hi
    omega
  apply hne
  cases key
  cases key'
  simp only [BufferKey.mk.injEq]
  exact ⟨hdev, BitVec.eq_of_toNat_eq hnum⟩

theorem Bytes.setBlock_of_not_mem (a : Bytes) (key : BufferKey) (b : Block)
    {dev : DevNum} {addr : Nat}
    (h : ¬ (dev = key.dev ∧ blockBase key ≤ addr ∧
      addr < blockBase key + blockSize)) :
    a.setBlock key b dev addr = a dev addr := by
  simp only [Bytes.setBlock, Bytes.setBlockAt]
  rw [dif_neg h]

@[simp] theorem length_flatRead (a : Bytes) (dev : DevNum) :
    ∀ (len : Nat) (pos : BitVec 32), (flatRead a dev pos len).length = len := by
  intro len
  induction len with
  | zero => intro pos; rfl
  | succ len ih =>
    intro pos
    simp only [flatRead, List.length_cons, ih]

private theorem pos_add_succ (pos : BitVec 32) (n : Nat) :
    pos + 1#32 + BitVec.ofNat 32 n = pos + BitVec.ofNat 32 (n + 1) := by
  apply BitVec.eq_of_toNat_eq
  simp only [BitVec.toNat_add, BitVec.toNat_ofNat]
  omega

theorem getElem_flatRead (a : Bytes) (dev : DevNum) :
    ∀ (len : Nat) (pos : BitVec 32) (i : Nat)
      (h : i < (flatRead a dev pos len).length),
      (flatRead a dev pos len)[i]
        = a dev (pos + BitVec.ofNat 32 i).toNat := by
  intro len
  induction len with
  | zero =>
    intro pos i h
    simp [flatRead] at h
  | succ len ih =>
    intro pos i h
    cases i with
    | zero => simp [flatRead]
    | succ i =>
      simp only [flatRead, List.getElem_cons_succ]
      rw [ih, pos_add_succ]

theorem flatRead_add (a : Bytes) (dev : DevNum) (n : Nat) :
    ∀ (m : Nat) (pos : BitVec 32), flatRead a dev pos (m + n)
      = flatRead a dev pos m ++ flatRead a dev (pos + BitVec.ofNat 32 m) n := by
  intro m
  induction m with
  | zero =>
    intro pos
    simp [flatRead]
  | succ m ih =>
    intro pos
    rw [show m + 1 + n = m + n + 1 by omega]
    simp only [flatRead, List.cons_append]
    rw [ih, pos_add_succ]

theorem flatWrite_append (dev : DevNum) (ys : List UInt8) :
    ∀ (xs : List UInt8) (a : Bytes) (pos : BitVec 32),
      flatWrite a dev pos (xs ++ ys)
        = flatWrite (flatWrite a dev pos xs) dev
            (pos + BitVec.ofNat 32 xs.length) ys := by
  intro xs
  induction xs with
  | nil =>
    intro a pos
    simp [flatWrite]
  | cons x xs ih =>
    intro a pos
    simp only [List.cons_append, flatWrite, List.length_cons]
    rw [ih, pos_add_succ]

/-- A write to the array is seen at its addresses and nowhere else. -/
theorem flatWrite_apply (dev : DevNum) :
    ∀ (xs : List UInt8) (a : Bytes) (pos : BitVec 32) (dev' : DevNum)
      (addr : Nat), pos.toNat + xs.length ≤ 4294967296 →
      flatWrite a dev pos xs dev' addr
        = if dev' = dev then Ring.copyIn (a dev) pos.toNat xs addr
          else a dev' addr := by
  intro xs
  induction xs with
  | nil =>
    intro a pos dev' addr _
    simp only [flatWrite]
    split
    next h =>
      rw [h, Ring.copyIn_of_not_mem (by simp; omega)]
    next => rfl
  | cons x xs ih =>
    intro a pos dev' addr hle
    simp only [List.length_cons] at hle
    have hstep : xs = [] ∨ (pos + 1#32).toNat = pos.toNat + 1 := by
      by_cases hxs : xs = []
      · exact .inl hxs
      · have := List.length_pos_iff.mpr hxs
        refine .inr ?_
        rw [BitVec.toNat_add]
        simp only [BitVec.toNat_ofNat]
        omega
    have hhead : update a dev (update (a dev) pos.toNat x)
        dev' addr = if dev' = dev then
          (if addr = pos.toNat then x else a dev addr) else a dev' addr := by
      by_cases hd : dev' = dev
      · subst hd
        simp [update_apply]
      · simp [hd]
    simp only [flatWrite]
    rcases hstep with hnil | hpos
    · subst hnil
      simp only [flatWrite, hhead]
      by_cases hd : dev' = dev
      · simp only [hd, if_true]
        by_cases haddr : addr = pos.toNat
        · subst haddr
          simp [Ring.copyIn]
        · rw [if_neg haddr, Ring.copyIn_of_not_mem (by simp; omega)]
      · simp only [hd, if_false]
    · rw [ih _ _ _ _ (by omega), hpos]
      by_cases hd : dev' = dev
      · simp only [hd, if_true, update_self]
        unfold Ring.copyIn
        by_cases haddr : addr = pos.toNat
        · subst haddr
          simp
        · rw [update_of_ne haddr]
          by_cases hlt : pos.toNat + 1 ≤ addr
          · rw [if_pos hlt, if_pos (by omega),
              show addr - pos.toNat = addr - (pos.toNat + 1) + 1 by omega,
              List.getElem?_cons_succ]
          · rw [if_neg hlt, if_neg (by omega)]
      · simp only [hd, if_false]
        exact update_of_ne hd _ _ ▸ rfl

private theorem blockBase_pos (dev : DevNum) (pos : BitVec 32) :
    blockBase ⟨dev, pos / 1024#32⟩ + pos.toNat % blockSize = pos.toNat := by
  simp only [blockBase, BitVec.toNat_udiv, blockSize]
  rw [show (1024#32).toNat = 1024 from rfl]
  omega

theorem slice_block (a : Bytes) (dev : DevNum) (pos : BitVec 32) {len : Nat}
    (h : pos.toNat % blockSize + len ≤ blockSize) :
    (a.block ⟨dev, pos / 1024#32⟩).slice (pos.toNat % blockSize) len
      = flatRead a dev pos len := by
  have hbase := blockBase_pos dev pos
  have hpos := pos.isLt
  refine List.ext_getElem ?_ fun i hi hi' => ?_
  · simp only [Block.slice, List.length_take, List.length_drop,
      List.length_map, List.length_finRange, length_flatRead]
    omega
  · rw [length_flatRead] at hi'
    rw [getElem_flatRead]
    simp only [Block.slice, List.getElem_take, List.getElem_drop,
      List.getElem_map, List.getElem_finRange, Bytes.block, Bytes.blockAt,
      Fin.val_cast]
    rw [BitVec.toNat_add, BitVec.toNat_ofNat]
    congr 1
    unfold blockSize at *
    omega

theorem setBlock_overlay (a : Bytes) (dev : DevNum) (pos : BitVec 32)
    {xs : List UInt8} (h : pos.toNat % blockSize + xs.length ≤ blockSize) :
    a.setBlock ⟨dev, pos / 1024#32⟩
        ((a.block ⟨dev, pos / 1024#32⟩).overlay (pos.toNat % blockSize) xs)
      = flatWrite a dev pos xs := by
  have hbase := blockBase_pos dev pos
  have hpos := pos.isLt
  funext dev' addr
  rw [flatWrite_apply dev xs a pos dev' addr (by unfold blockSize at h; omega)]
  simp only [Bytes.setBlock, Bytes.setBlockAt]
  split
  next hin =>
    obtain ⟨hdev, hlo, hhi⟩ := hin
    subst hdev
    simp only [if_true, Block.overlay, Bytes.block, Bytes.blockAt, Ring.copyIn]
    have haddr : blockBase ⟨dev', pos / 1024#32⟩
        + (addr - blockBase ⟨dev', pos / 1024#32⟩) = addr := by omega
    by_cases hoff : pos.toNat % blockSize
        ≤ addr - blockBase ⟨dev', pos / 1024#32⟩
    · rw [if_pos hoff, if_pos (by omega), haddr,
        show addr - blockBase ⟨dev', pos / 1024#32⟩ - pos.toNat % blockSize
          = addr - pos.toNat by omega]
    · rw [if_neg hoff, if_neg (by omega), haddr]
  next hout =>
    split
    next hdev =>
      subst hdev
      rw [Ring.copyIn_of_not_mem]
      by_contra hcon
      apply hout
      refine ⟨rfl, ?_, ?_⟩ <;> omega
    next => rfl

-- ======== coherence

/-- Buffers and disk together are the array: a valid buffer has what the array
has, and the disk what no dirty buffer has. -/
structure CacheSys.Coherent (s : CacheSys S) (a : Bytes) : Prop where
  onDevice : ∀ x key, (s.manager.slot x).key = some key → OnDevice key
  cached : ∀ x key, (s.manager.slot x).key = some key →
    (s.manager.slot x).upToDate = true → s.data x = a.block key
  clean : ∀ x key, (s.manager.slot x).key = some key →
    (s.manager.slot x).dirty = false → s.disk.block key = a.block key
  dirty : ∀ x, (s.manager.slot x).dirty = true →
    (s.manager.slot x).upToDate = true ∧ ∃ key, (s.manager.slot x).key = some key
  absent : ∀ key, OnDevice key → s.manager.bufferIndex key = none →
    s.disk.block key = a.block key
  beyond : ∀ dev addr, 2147483648 * blockSize ≤ addr →
    s.disk dev addr = a dev addr

/-- Flags and data aside, the bookkeeping of two managers is the same. -/
structure SameRefs (m m' : BufferManager S) : Prop where
  index : m'.bufferIndex = m.bufferIndex
  buffers : m'.buffers = m.buffers
  key : ∀ x, (m'.slot x).key = (m.slot x).key
  refCount : ∀ x, (m'.slot x).refCount = (m.slot x).refCount

theorem SameRefs.refl (m : BufferManager S) : SameRefs m m :=
  ⟨rfl, rfl, fun _ => rfl, fun _ => rfl⟩

theorem SameRefs.trans {m m' m'' : BufferManager S} (h : SameRefs m m')
    (h' : SameRefs m' m'') : SameRefs m m'' :=
  ⟨h'.index.trans h.index, h'.buffers.trans h.buffers,
    fun x => (h'.key x).trans (h.key x),
    fun x => (h'.refCount x).trans (h.refCount x)⟩

variable [DecidableEq S]

theorem SameRefs.onSlot (m : BufferManager S) (x : S)
    {f : BufferMeta → BufferMeta} (hkey : ∀ b, (f b).key = b.key)
    (hcount : ∀ b, (f b).refCount = b.refCount) :
    SameRefs m (m.onSlot x f) := by
  refine ⟨rfl, rfl, fun y => ?_, fun y => ?_⟩
  · rw [BufferManager.onSlot_slot]
    split
    next h => rw [hkey, h]
    next => rfl
  · rw [BufferManager.onSlot_slot]
    split
    next h => rw [hcount, h]
    next => rfl

theorem transferred_slot (m : BufferManager S) (x y : S) :
    ((m.setDirty x false).setUpToDate x true).slot y
      = if y = x then { m.slot x with dirty := false, upToDate := true }
        else m.slot y := by
  simp only [BufferManager.setUpToDate, BufferManager.setDirty,
    BufferManager.onSlot_slot, if_true]
  split <;> rfl

theorem SameRefs.transferred (m : BufferManager S) (x : S) :
    SameRefs m ((m.setDirty x false).setUpToDate x true) := by
  have hdirty : SameRefs m (m.setDirty x false) :=
    SameRefs.onSlot m x (fun _ => rfl) fun _ => rfl
  have hup : SameRefs (m.setDirty x false)
      ((m.setDirty x false).setUpToDate x true) :=
    SameRefs.onSlot _ x (fun _ => rfl) fun _ => rfl
  exact hdirty.trans hup

/-- A buffer that is written back is as the disk. -/
theorem CacheSys.Coherent.flush {s : CacheSys S} {a : Bytes}
    (h : s.Coherent a) (hb : s.manager.Bound) (x : S) :
    (s.submitAndWait .write x).Coherent a ∧
      SameRefs s.manager (s.submitAndWait .write x).manager ∧
      (s.submitAndWait .write x).handles = s.handles ∧
      (∀ y, ((s.submitAndWait .write x).manager.slot y).dirty = true →
        y ≠ x ∧ (s.manager.slot y).dirty = true) ∧
      ∀ y, (s.manager.slot y).upToDate = true →
        ((s.submitAndWait .write x).manager.slot y).upToDate = true := by
  cases hkey : (s.manager.slot x).key with
  | none =>
    have hclean : (s.manager.slot x).dirty = false := by
      by_contra hd
      obtain ⟨-, key, hk⟩ := h.dirty x (by simpa using hd)
      rw [hk] at hkey
      cases hkey
    have heq : s.submitAndWait .write x = s := by
      simp only [CacheSys.submitAndWait, hkey]
    rw [heq]
    refine ⟨h, .refl _, rfl, fun y hy => ⟨?_, hy⟩, fun _ hy => hy⟩
    intro heq
    rw [heq, hclean] at hy
    cases hy
  | some key =>
    cases hdirty : (s.manager.slot x).dirty with
    | false =>
      have heq : s.submitAndWait .write x = s := by
        simp [CacheSys.submitAndWait, hkey, hdirty]
      rw [heq]
      refine ⟨h, .refl _, rfl, fun y hy => ⟨?_, hy⟩, fun _ hy => hy⟩
      intro heq
      rw [heq, hdirty] at hy
      cases hy
    | true =>
      have hon := h.onDevice x key hkey
      have hdata := h.cached x key hkey (h.dirty x hdirty).1
      have heq : s.submitAndWait .write x = { s with
          manager := (s.manager.setDirty x false).setUpToDate x true
          disk := s.disk.setBlock key (s.data x) } := by
        simp [CacheSys.submitAndWait, hkey, hdirty, Bytes.setBlock,
          sectorBase_eq hon]
      rw [heq]
      have hsame := SameRefs.transferred s.manager x
      refine ⟨?_, hsame, rfl, ?_, ?_⟩
      · constructor
        case onDevice =>
          intro y k hk
          exact h.onDevice y k ((hsame.key y).symm.trans hk)
        case cached =>
          intro y k hk hup
          dsimp only at hk hup ⊢
          rw [hsame.key] at hk
          rw [transferred_slot] at hup
          by_cases hy : y = x
          · subst hy
            rw [hkey, Option.some.injEq] at hk
            rw [← hk]
            exact hdata
          · rw [if_neg hy] at hup
            exact h.cached y k hk hup
        case clean =>
          intro y k hk hcl
          dsimp only at hk hcl ⊢
          rw [hsame.key] at hk
          rw [transferred_slot] at hcl
          by_cases hy : y = x
          · subst hy
            rw [hkey, Option.some.injEq] at hk
            subst hk
            rw [Bytes.block_setBlock_self]
            exact hdata
          · have hne : k ≠ key := by
              intro heq
              subst heq
              have h₁ := (hb k y).mpr hk
              have h₂ := (hb k x).mpr hkey
              rw [h₁, Option.some.injEq] at h₂
              exact hy h₂
            rw [if_neg hy] at hcl
            rw [Bytes.block_setBlock_of_ne _ hne]
            exact h.clean y k hk hcl
        case dirty =>
          intro y hd
          dsimp only at hd ⊢
          rw [transferred_slot] at hd ⊢
          by_cases hy : y = x
          · rw [if_pos hy] at hd
            cases hd
          · rw [if_neg hy] at hd ⊢
            exact h.dirty y hd
        case absent =>
          intro k hk hidx
          have hne : k ≠ key := by
            intro heq
            subst heq
            have h₂ := (hb k x).mpr hkey
            dsimp only at hidx
            rw [hsame.index, h₂] at hidx
            cases hidx
          dsimp only
          rw [Bytes.block_setBlock_of_ne _ hne]
          exact h.absent k hk (by rw [← hsame.index]; exact hidx)
        case beyond =>
          intro dev addr haddr
          dsimp only
          rw [Bytes.setBlock_of_not_mem]
          · exact h.beyond dev addr haddr
          · intro hin
            unfold OnDevice at hon
            unfold blockBase blockSize at hin
            unfold blockSize at haddr
            omega
      · intro y hy
        dsimp only at hy
        rw [transferred_slot] at hy
        by_cases hyx : y = x
        · rw [if_pos hyx] at hy
          cases hy
        · rw [if_neg hyx] at hy
          exact ⟨hyx, hy⟩
      · intro y hy
        dsimp only
        rw [transferred_slot]
        split
        next => rfl
        next => exact hy

omit [DecidableEq S] in
theorem BufferManager.Bound.unique {m : BufferManager S} (hb : m.Bound)
    {x y : S} {key : BufferKey} (hx : (m.slot x).key = some key)
    (hy : (m.slot y).key = some key) : y = x := by
  have h₁ := (hb key x).mpr hx
  have h₂ := (hb key y).mpr hy
  rw [h₁, Option.some.injEq] at h₂
  exact h₂.symm

/-- A block that is read in is as the array, if no buffer was dirty for it. -/
theorem CacheSys.Coherent.fetch {s : CacheSys S} {a : Bytes}
    (h : s.Coherent a) {x : S} {key : BufferKey}
    (hkey : (s.manager.slot x).key = some key) :
    (s.submitAndWait .read x).Coherent a ∧
      SameRefs s.manager (s.submitAndWait .read x).manager ∧
      (s.submitAndWait .read x).handles = s.handles ∧
      ((s.submitAndWait .read x).manager.slot x).upToDate = true ∧
      ∀ y, (s.manager.slot y).upToDate = true →
        ((s.submitAndWait .read x).manager.slot y).upToDate = true := by
  cases hup : (s.manager.slot x).upToDate with
  | true =>
    have heq : s.submitAndWait .read x = s := by
      simp [CacheSys.submitAndWait, hkey, hup]
    rw [heq]
    exact ⟨h, .refl _, rfl, hup, fun _ hy => hy⟩
  | false =>
    have hon := h.onDevice x key hkey
    have hclean : (s.manager.slot x).dirty = false := by
      by_contra hd
      have := (h.dirty x (by simpa using hd)).1
      rw [hup] at this
      cases this
    have heq : s.submitAndWait .read x = { s with
        manager := (s.manager.setDirty x false).setUpToDate x true
        data := update s.data x (s.disk.block key) } := by
      simp [CacheSys.submitAndWait, hkey, hup, Bytes.block,
        sectorBase_eq hon]
    rw [heq]
    have hsame := SameRefs.transferred s.manager x
    refine ⟨?_, hsame, rfl, ?_, ?_⟩
    · constructor
      case onDevice =>
        intro y k hk
        exact h.onDevice y k ((hsame.key y).symm.trans hk)
      case cached =>
        intro y k hk hupy
        dsimp only at hk hupy ⊢
        rw [hsame.key] at hk
        rw [transferred_slot] at hupy
        by_cases hy : y = x
        · subst hy
          rw [hkey, Option.some.injEq] at hk
          subst hk
          rw [update_self]
          exact h.clean y key hkey hclean
        · rw [if_neg hy] at hupy
          rw [update_of_ne hy]
          exact h.cached y k hk hupy
      case clean =>
        intro y k hk hcl
        dsimp only at hk hcl ⊢
        rw [hsame.key] at hk
        rw [transferred_slot] at hcl
        by_cases hy : y = x
        · subst hy
          exact h.clean y k hk hclean
        · rw [if_neg hy] at hcl
          exact h.clean y k hk hcl
      case dirty =>
        intro y hd
        dsimp only at hd ⊢
        rw [transferred_slot] at hd ⊢
        by_cases hy : y = x
        · rw [if_pos hy] at hd
          cases hd
        · rw [if_neg hy] at hd ⊢
          exact h.dirty y hd
      case absent =>
        intro k hk hidx
        exact h.absent k hk (by rw [← hsame.index]; exact hidx)
      case beyond => exact h.beyond
    · dsimp only
      rw [transferred_slot, if_pos rfl]
    · intro y hy
      dsimp only
      rw [transferred_slot]
      split
      next => rfl
      next => exact hy

/-- A clean buffer may be given to another block. -/
theorem CacheSys.Coherent.rebind {s : CacheSys S} {a : Bytes}
    (h : s.Coherent a) (hb : s.manager.Bound) {x : S} {key : BufferKey}
    (hon : OnDevice key) (hclean : (s.manager.slot x).dirty = false)
    {m : BufferManager S} (hm : s.manager.tryRebindBuffer key x = some m) :
    ({ s with manager := m } : CacheSys S).Coherent a := by
  obtain ⟨hfree, hb', hslot, hother, -, -⟩ :=
    BufferManager.tryRebindBuffer_spec hb hm
  constructor
  case onDevice =>
    intro y k hk
    dsimp only at hk
    by_cases hy : y = x
    · subst hy
      rw [hslot] at hk
      simp only [Option.some.injEq] at hk
      exact hk ▸ hon
    · rw [hother y hy] at hk
      exact h.onDevice y k hk
  case cached =>
    intro y k hk hup
    dsimp only at hk hup
    by_cases hy : y = x
    · subst hy
      rw [hslot] at hup
      cases hup
    · rw [hother y hy] at hk hup
      exact h.cached y k hk hup
  case clean =>
    intro y k hk hcl
    dsimp only at hk hcl
    by_cases hy : y = x
    · subst hy
      rw [hslot] at hk
      simp only [Option.some.injEq] at hk
      subst hk
      exact h.absent key hon hfree
    · rw [hother y hy] at hk hcl
      exact h.clean y k hk hcl
  case dirty =>
    intro y hd
    dsimp only at hd ⊢
    by_cases hy : y = x
    · subst hy
      rw [hslot] at hd
      cases hd
    · rw [hother y hy] at hd ⊢
      exact h.dirty y hd
  case absent =>
    intro k hk hidx
    -- The key was either absent before or the one that was given up.
    cases hold : s.manager.bufferIndex k with
    | none => exact h.absent k hk hold
    | some y =>
      have hkey := (hb k y).mp hold
      by_cases hy : y = x
      · subst hy
        exact h.clean y k hkey hclean
      · have hbound := (hb' k y).mpr (by rw [hother y hy]; exact hkey)
        dsimp only at hidx
        rw [hidx] at hbound
        cases hbound
  case beyond => exact h.beyond

/-- A store into a buffer is a store into the array. -/
theorem CacheSys.Coherent.store {s : CacheSys S} {a : Bytes}
    (h : s.Coherent a) (hb : s.manager.Bound) {x : S} {key : BufferKey}
    (hkey : (s.manager.slot x).key = some key) (b : Block)
    {m : BufferManager S} (hsame : SameRefs s.manager m)
    (hx : (m.slot x).dirty = true ∧ (m.slot x).upToDate = true)
    (hother : ∀ y, y ≠ x → m.slot y = s.manager.slot y) :
    ({ s with manager := m, data := update s.data x b } :
      CacheSys S).Coherent (a.setBlock key b) := by
  have hne : ∀ {y k}, y ≠ x → (s.manager.slot y).key = some k → k ≠ key := by
    intro y k hy hk heq
    subst heq
    exact hy (hb.unique hkey hk)
  constructor
  case onDevice =>
    intro y k hk
    exact h.onDevice y k ((hsame.key y).symm.trans hk)
  case cached =>
    intro y k hk hup
    dsimp only at hk hup ⊢
    rw [hsame.key] at hk
    by_cases hy : y = x
    · subst hy
      rw [hkey, Option.some.injEq] at hk
      subst hk
      rw [update_self, Bytes.block_setBlock_self]
    · rw [update_of_ne hy, Bytes.block_setBlock_of_ne _ (hne hy hk)]
      rw [hother y hy] at hup
      exact h.cached y k hk hup
  case clean =>
    intro y k hk hcl
    dsimp only at hk hcl ⊢
    rw [hsame.key] at hk
    by_cases hy : y = x
    · subst hy
      rw [hx.1] at hcl
      cases hcl
    · rw [Bytes.block_setBlock_of_ne _ (hne hy hk)]
      rw [hother y hy] at hcl
      exact h.clean y k hk hcl
  case dirty =>
    intro y hd
    dsimp only at hd ⊢
    by_cases hy : y = x
    · subst hy
      exact ⟨hx.2, key, (hsame.key y).trans hkey⟩
    · rw [hother y hy] at hd ⊢
      exact h.dirty y hd
  case absent =>
    intro k hk hidx
    have hkk : k ≠ key := by
      intro heq
      subst heq
      dsimp only at hidx
      rw [hsame.index, (hb k x).mpr hkey] at hidx
      cases hidx
    dsimp only at hidx ⊢
    rw [Bytes.block_setBlock_of_ne _ hkk]
    exact h.absent k hk (by rw [← hsame.index]; exact hidx)
  case beyond =>
    intro dev addr haddr
    have hon := h.onDevice x key hkey
    rw [Bytes.setBlock_of_not_mem]
    · exact h.beyond dev addr haddr
    · intro hin
      unfold OnDevice at hon
      unfold blockBase blockSize at hin
      unfold blockSize at haddr
      omega

-- ======== simulation

/-- The cache stands for the array: it is coherent, the task's handles
keep their slots, and each count is the handles plus the slot `pin` the
running operation holds. -/
structure CacheSys.Sim (n : Nat) (s : CacheSys S) (a : FlatSys)
    (pin : Option S) : Prop where
  coherent : s.Coherent a.array
  index : s.manager.Bound
  nodup : s.manager.buffers.Nodup
  all : ∀ x, x ∈ s.manager.buffers
  size : s.manager.buffers.length = n
  handles : s.handles.map Prod.snd = a.handles
  held : ∀ x key, (x, key) ∈ s.handles →
    (s.manager.slot x).key = some key ∧ (s.manager.slot x).upToDate = true
  count : ∀ x, (s.manager.slot x).refCount.toNat
    = (s.handles.map Prod.fst).count x + share pin x

theorem CacheSys.Sim.sameRefs {n : Nat} {s s' : CacheSys S}
    {a a' : FlatSys} {pin : Option S} (h : s.Sim n a pin)
    (hco : s'.Coherent a'.array) (hsame : SameRefs s.manager s'.manager)
    (hup : ∀ x, (s.manager.slot x).upToDate = true →
      (s'.manager.slot x).upToDate = true)
    (hh : s'.handles = s.handles) (ha : a'.handles = a.handles) :
    s'.Sim n a' pin := by
  constructor
  case coherent => exact hco
  case index => exact h.index.congr hsame.index hsame.key
  case nodup => rw [hsame.buffers]; exact h.nodup
  case all => rw [hsame.buffers]; exact h.all
  case size => rw [hsame.buffers]; exact h.size
  case handles => rw [hh, ha]; exact h.handles
  case held =>
    intro x key hmem
    rw [hh] at hmem
    obtain ⟨hk, hu⟩ := h.held x key hmem
    exact ⟨(hsame.key x).trans hk, hup x hu⟩
  case count =>
    intro x
    rw [hsame.refCount, hh]
    exact h.count x

theorem CacheSys.Sim.exists_free {n : Nat} {s : CacheSys S} {a : FlatSys}
    (h : s.Sim n a none) (hfew : a.handles.length < n) :
    ∃ x ∈ s.manager.buffers, (s.manager.slot x).refCount = 0#16 := by
  by_contra hcon
  push Not at hcon
  have hsub : s.manager.buffers ⊆ s.handles.map Prod.fst := by
    intro x hx
    have hne := hcon x hx
    have hcount := h.count x
    rw [share_none] at hcount
    apply List.count_pos_iff.mp
    have hpos : (s.manager.slot x).refCount.toNat ≠ 0 := fun h0 =>
      hne (BitVec.eq_of_toNat_eq (by simpa using h0))
    omega
  have hle := (h.nodup.subperm hsub).length_le
  have hlen := congrArg List.length h.handles
  rw [List.length_map] at hle hlen
  have := h.size
  omega

theorem BufferManager.tryRebindBuffer_isSome {m : BufferManager S}
    {key : BufferKey} (hfree : m.bufferIndex key = none) (x : S) :
    ∃ m', m.tryRebindBuffer key x = some m' := by
  simp [tryRebindBuffer, hfree]

theorem CacheSys.Sim.recount {n : Nat} {s : CacheSys S} {a : FlatSys}
    {pin pin' : Option S} (h : s.Sim n a pin) {m : BufferManager S}
    (hrec : Recount s.manager m)
    (hcount : ∀ x, (m.slot x).refCount.toNat
      = (s.handles.map Prod.fst).count x + share pin' x) :
    ({ s with manager := m } : CacheSys S).Sim n a pin' := by
  constructor
  case coherent =>
    obtain ⟨hon, hca, hcl, hdi, hab, hbe⟩ := h.coherent
    constructor
    case onDevice => exact fun y k hk => hon y k ((hrec.key y).symm.trans hk)
    case cached =>
      exact fun y k hk hu => hca y k ((hrec.key y).symm.trans hk)
        ((hrec.upToDate y).symm.trans hu)
    case clean =>
      exact fun y k hk hd => hcl y k ((hrec.key y).symm.trans hk)
        ((hrec.dirty y).symm.trans hd)
    case dirty =>
      intro y hd
      obtain ⟨hu, k, hk⟩ := hdi y ((hrec.dirty y).symm.trans hd)
      exact ⟨(hrec.upToDate y).trans hu, k, (hrec.key y).trans hk⟩
    case absent =>
      exact fun k hk hi => hab k hk (by rw [← hrec.index]; exact hi)
    case beyond => exact hbe
  case index => exact h.index.congr hrec.index hrec.key
  case nodup => exact hrec.buffers ▸ h.nodup
  case all => exact hrec.buffers ▸ h.all
  case size => exact hrec.buffers ▸ h.size
  case handles => exact h.handles
  case held =>
    intro y k hmem
    obtain ⟨hk, hu⟩ := h.held y k hmem
    exact ⟨(hrec.key y).trans hk, (hrec.upToDate y).trans hu⟩
  case count => exact hcount

theorem CacheSys.Sim.pin {n : Nat} {s : CacheSys S} {a : FlatSys}
    (h : s.Sim n a none) (hcap : n < 65536) (hfew : a.handles.length < n)
    (x : S) : ({ s with manager := s.manager.incRef x } : CacheSys S).Sim n a
      (some x) := by
  obtain ⟨hrec, hcount⟩ := s.manager.incRef_spec x
  have hne : (s.manager.slot x).refCount ≠ 65535#16 := by
    intro htop
    have hc := h.count x
    have hle := List.count_le_length (a := x) (l := s.handles.map Prod.fst)
    have hlen := congrArg List.length h.handles
    rw [htop, share_none] at hc
    rw [List.length_map] at hle hlen
    simp only [BitVec.toNat_ofNat] at hc
    omega
  apply h.recount hrec
  intro y
  rw [hcount hne y, h.count y, share_none, Nat.add_zero]

/-- A clean slot without handles may take another block. -/
theorem CacheSys.Sim.rebind {n : Nat} {s : CacheSys S} {a : FlatSys}
    (h : s.Sim n a none) {x : S} {key : BufferKey} (hon : OnDevice key)
    (hzero : (s.manager.slot x).refCount = 0#16)
    (hclean : (s.manager.slot x).dirty = false)
    {m : BufferManager S} (hm : s.manager.tryRebindBuffer key x = some m) :
    ({ s with manager := m } : CacheSys S).Sim n a (some x) := by
  obtain ⟨-, hbound, hslot, hother, -, hbuf⟩ :=
    BufferManager.tryRebindBuffer_spec h.index hm
  have hnone : (s.handles.map Prod.fst).count x = 0 := by
    have hc := h.count x
    rw [hzero, share_none] at hc
    simpa using hc.symm
  have hperm : m.buffers.Perm s.manager.buffers := by
    rw [hbuf]
    exact (List.perm_append_singleton x _).trans
      (List.perm_cons_erase (h.all x)).symm
  constructor
  case coherent => exact h.coherent.rebind h.index hon hclean hm
  case index => exact hbound
  case nodup => exact hperm.nodup_iff.mpr h.nodup
  case all => exact fun y => hperm.mem_iff.mpr (h.all y)
  case size => exact hperm.length_eq.trans h.size
  case handles => exact h.handles
  case held =>
    intro y k hmem
    have hy : y ≠ x := by
      intro heq
      subst heq
      exact List.count_eq_zero.mp hnone (List.mem_map_of_mem hmem)
    dsimp only
    rw [hother y hy]
    exact h.held y k hmem
  case count =>
    intro y
    dsimp only
    by_cases hy : y = x
    · subst hy
      rw [hslot, hnone, share_self]
      rfl
    · rw [hother y hy, h.count y, share_none, share_of_ne (Ne.symm hy)]

/-- With a buffer left unpinned, a slot is found and the array stays as it
is. -/
theorem CacheSys.Sim.acquireSlot {n : Nat} {s : CacheSys S} {a : FlatSys}
    (h : s.Sim n a none) (hcap : n < 65536) (hfew : a.handles.length < n)
    {key : BufferKey} (hon : OnDevice key) (fuel : Nat) :
    ∃ x s', s.acquireSlot (fuel + 1) key = some (x, s') ∧
      s'.Sim n a (some x) ∧ (s'.manager.slot x).key = some key := by
  cases hidx : s.manager.bufferIndex key with
  | some x =>
    have hkey := (h.index key x).mp hidx
    have hkey' : ((s.manager.incRef x).slot x).key = some key :=
      ((s.manager.incRef_spec x).1.key x).trans hkey
    refine ⟨x, _, ?_, h.pin hcap hfew x, hkey'⟩
    simp [CacheSys.acquireSlot, CacheSys.tryAcquireCached,
      BufferManager.pinBuffer, hidx, BufferManager.keyMatches, hkey']
  | none =>
    obtain ⟨y, hy, hy0⟩ := h.exists_free hfew
    obtain ⟨x, hx, hzero⟩ := s.manager.findReclaimCandidate_spec hy hy0
    obtain ⟨hco, hsame, hh, hdirty, hup⟩ := h.coherent.flush h.index x
    have hclean : ((s.submitAndWait .write x).manager.slot x).dirty
        = false := by
      by_contra hd
      exact (hdirty x (by simpa using hd)).1 rfl
    have hflush : (s.flushDirtyVictim x) = s.submitAndWait .write x := by
      unfold CacheSys.flushDirtyVictim
      split
      next => rfl
      next hd =>
        simp only [Bool.not_eq_true] at hd
        unfold CacheSys.submitAndWait
        cases (s.manager.slot x).key with
        | none => rfl
        | some k => simp [hd]
    have hsim : (s.submitAndWait .write x).Sim n a none :=
      h.sameRefs hco hsame hup hh rfl
    obtain ⟨m, hm⟩ := BufferManager.tryRebindBuffer_isSome
      (m := (s.submitAndWait .write x).manager)
      (by rw [hsame.index]; exact hidx) x
    have hsim' := hsim.rebind hon (by rw [hsame.refCount]; exact hzero)
      hclean hm
    obtain ⟨-, -, hslot, -, -, -⟩ :=
      BufferManager.tryRebindBuffer_spec hsim.index hm
    refine ⟨x, _, ?_, hsim', by simp only [hslot]⟩
    simp [CacheSys.acquireSlot, CacheSys.tryAcquireCached,
      BufferManager.pinBuffer, hidx, CacheSys.tryAcquireVictim, hx, hzero,
      hflush, hm]

theorem CacheSys.Sim.read {n : Nat} {s : CacheSys S} {a : FlatSys}
    (h : s.Sim n a none) (hcap : n < 65536) (hfew : a.handles.length < n)
    {key : BufferKey} (hon : OnDevice key) (fuel : Nat) :
    ∃ x s', s.read (fuel + 1) key = some (some x, s') ∧
      s'.Sim n a (some x) ∧ (s'.manager.slot x).key = some key ∧
      (s'.manager.slot x).upToDate = true := by
  obtain ⟨x, s₁, hacq, hsim, hkey⟩ := h.acquireSlot hcap hfew hon fuel
  cases hu : (s₁.manager.slot x).upToDate with
  | true =>
    refine ⟨x, s₁, ?_, hsim, hkey, hu⟩
    simp [CacheSys.read, hacq, hu]
  | false =>
    obtain ⟨hco, hsame, hh, hux, hup⟩ := hsim.coherent.fetch hkey
    refine ⟨x, s₁.submitAndWait .read x, ?_,
      hsim.sameRefs hco hsame hup hh rfl, (hsame.key x).trans hkey, hux⟩
    simp [CacheSys.read, hacq, hu, hux]

theorem CacheSys.Sim.releaseSlot {n : Nat} {s : CacheSys S} {a : FlatSys}
    {x : S} (h : s.Sim n a (some x)) :
    ∃ s', s.releaseSlot x = some s' ∧ s'.Sim n a none := by
  have hne : (s.manager.slot x).refCount ≠ 0#16 := by
    intro h0
    have hc := h.count x
    rw [h0, share_self] at hc
    simp only [BitVec.toNat_ofNat, Nat.zero_mod] at hc
    omega
  obtain ⟨m, hm, hrec, hcount⟩ := BufferManager.decRef_spec hne
  refine ⟨{ s with manager := m }, by simp [CacheSys.releaseSlot, hm], ?_⟩
  apply h.recount hrec
  intro y
  have hc := h.count y
  have hd := hcount y
  rw [share_none]
  omega

theorem CacheSys.Sim.store {n : Nat} {s : CacheSys S} {a : FlatSys}
    {pin : Option S} (h : s.Sim n a pin) {x : S} {key : BufferKey}
    (hkey : (s.manager.slot x).key = some key) (b : Block)
    {m : BufferManager S} (hsame : SameRefs s.manager m)
    (hx : (m.slot x).dirty = true ∧ (m.slot x).upToDate = true)
    (hother : ∀ y, y ≠ x → m.slot y = s.manager.slot y) :
    ({ s with manager := m, data := update s.data x b } :
      CacheSys S).Sim n { a with array := a.array.setBlock key b } pin := by
  refine h.sameRefs (h.coherent.store h.index hkey b hsame hx hother) hsame
    ?_ rfl rfl
  intro y hy
  by_cases hyx : y = x
  · subst hyx
    exact hx.2
  · exact (congrArg BufferMeta.upToDate (hother y hyx)).trans hy

theorem CacheSys.Sim.modify {n : Nat} {s : CacheSys S} {a : FlatSys}
    {pin : Option S} (h : s.Sim n a pin) {x : S} {key : BufferKey}
    (hkey : (s.manager.slot x).key = some key)
    (hup : (s.manager.slot x).upToDate = true) (writer : Block → Block) :
    (s.modify x writer).Sim n
      { a with array := a.array.setBlock key (writer (a.array.block key)) }
      pin := by
  rw [← h.coherent.cached x key hkey hup]
  refine h.store hkey _ (SameRefs.onSlot s.manager x (fun _ => rfl) fun _ => rfl)
    ⟨?_, ?_⟩ ?_
  · simp [BufferManager.setDirty, BufferManager.onSlot_slot]
  · simpa [BufferManager.setDirty, BufferManager.onSlot_slot] using hup
  · intro y hy
    simp [BufferManager.setDirty, BufferManager.onSlot_slot, hy]

theorem CacheSys.Sim.fillZero {n : Nat} {s : CacheSys S} {a : FlatSys}
    {pin : Option S} (h : s.Sim n a pin) {x : S} {key : BufferKey}
    (hkey : (s.manager.slot x).key = some key) :
    (s.fillZero x).Sim n
      { a with array := a.array.setBlock key fun _ => 0 } pin := by
  have hup : SameRefs s.manager (s.manager.setUpToDate x true) :=
    SameRefs.onSlot _ x (fun _ => rfl) fun _ => rfl
  have hdirty : SameRefs (s.manager.setUpToDate x true)
      ((s.manager.setUpToDate x true).setDirty x true) :=
    SameRefs.onSlot _ x (fun _ => rfl) fun _ => rfl
  refine h.store hkey _ (hup.trans hdirty) ⟨?_, ?_⟩ ?_
  · simp [BufferManager.setDirty, BufferManager.onSlot_slot]
  · simp [BufferManager.setDirty, BufferManager.setUpToDate,
      BufferManager.onSlot_slot]
  · intro y hy
    simp [BufferManager.setDirty, BufferManager.setUpToDate,
      BufferManager.onSlot_slot, hy]

theorem Block.overlay_full (b b' : Block) {src : List UInt8}
    (h : src.length = blockSize) : b.overlay 0 src = b'.overlay 0 src := by
  funext i
  have hi := i.isLt
  simp only [Block.overlay, Nat.zero_le, if_true, Nat.sub_zero]
  rw [List.getElem?_eq_getElem (by omega), Option.getD_some, Option.getD_some]

/-- Writing through a handle writes the flat disk. -/
theorem CacheSys.Sim.writeBytes {n : Nat} {s : CacheSys S} {a : FlatSys}
    {pin : Option S} (h : s.Sim n a pin) {x : S} {key : BufferKey}
    (hkey : (s.manager.slot x).key = some key) {off : Nat}
    {src : List UInt8} (hfit : off + src.length ≤ blockSize)
    (hup : (s.manager.slot x).upToDate = true ∨
      (off = 0 ∧ src.length = blockSize)) :
    ∃ s', s.writeBytes x off src = some s' ∧
      s'.Sim n ⟨a.array.setBlock key ((a.array.block key).overlay off src),
        a.handles⟩ pin := by
  unfold CacheSys.writeBytes
  rw [if_pos hfit]
  by_cases hfull : off = 0 ∧ src.length = blockSize
  · obtain ⟨hoff, hlen⟩ := hfull
    subst hoff
    rw [if_pos ⟨rfl, hlen⟩, Block.overlay_full _ (s.data x) hlen]
    refine ⟨_, rfl, ?_⟩
    have hdirty : SameRefs s.manager (s.manager.setDirty x true) :=
      SameRefs.onSlot _ x (fun _ => rfl) fun _ => rfl
    have hvalid : SameRefs (s.manager.setDirty x true)
        ((s.manager.setDirty x true).setUpToDate x true) :=
      SameRefs.onSlot _ x (fun _ => rfl) fun _ => rfl
    refine h.store hkey _ (hdirty.trans hvalid) ⟨?_, ?_⟩ ?_
    · simp [CacheSys.modify, BufferManager.setDirty,
        BufferManager.setUpToDate, BufferManager.onSlot_slot]
    · simp [BufferManager.setUpToDate, BufferManager.onSlot_slot]
    · intro y hy
      simp [CacheSys.modify, BufferManager.setDirty,
        BufferManager.setUpToDate, BufferManager.onSlot_slot, hy]
  · rw [if_neg hfull]
    exact ⟨_, rfl, h.modify hkey (hup.resolve_right hfull)
      fun b => b.overlay off src⟩

-- ======== block device files

theorem onDevice_pos (dev : DevNum) (pos : BitVec 32) :
    OnDevice ⟨dev, pos / 1024#32⟩ := by
  unfold OnDevice
  have := pos.isLt
  simp only [BitVec.toNat_udiv]
  rw [show (1024#32).toNat = 1024 from rfl]
  omega

theorem BlockChunk.new_bounds (pos : BitVec 32) {rest : Nat} (h : 0 < rest) :
    0 < (BlockChunk.new pos rest).len ∧ (BlockChunk.new pos rest).len ≤ rest ∧
      pos.toNat % blockSize + (BlockChunk.new pos rest).len ≤ blockSize := by
  unfold BlockChunk.new blockSize
  dsimp only
  omega

private theorem pos_add_add (pos : BitVec 32) {c rest : Nat} (h : c ≤ rest) :
    pos + BitVec.ofNat 32 c + BitVec.ofNat 32 (rest - c)
      = pos + BitVec.ofNat 32 rest := by
  apply BitVec.eq_of_toNat_eq
  simp only [BitVec.toNat_add, BitVec.toNat_ofNat]
  omega

/-- Chunk by chunk the bytes of the array are read. -/
theorem CacheSys.Sim.blockReadLoop {n : Nat} {a : FlatSys} (hcap : n < 65536)
    (hfew : a.handles.length < n) (fuel : Nat) (dev : DevNum) :
    ∀ (turns : Nat) (s : CacheSys S) (pos : BitVec 32) (rest : Nat)
      (out : List UInt8), s.Sim n a none → rest < turns →
      ∃ s', s.blockReadLoop (fuel + 1) dev turns pos rest out
          = some (s', pos + BitVec.ofNat 32 rest,
              out ++ flatRead a.array dev pos rest, some (out.length + rest)) ∧
        s'.Sim n a none := by
  intro turns
  induction turns with
  | zero => intro s pos rest out _ h; omega
  | succ turns ih =>
    intro s pos rest out hsim hrest
    unfold CacheSys.blockReadLoop
    by_cases hzero : rest = 0
    · rw [if_pos hzero]
      subst hzero
      exact ⟨s, by simp [flatRead], hsim⟩
    · rw [if_neg hzero]
      obtain ⟨hpos, hle, hin⟩ := BlockChunk.new_bounds pos (Nat.pos_of_ne_zero hzero)
      obtain ⟨x, s₁, hread, hsim₁, hkey, hup⟩ :=
        hsim.read hcap hfew (onDevice_pos dev pos) fuel
      obtain ⟨s₂, hrel, hsim₂⟩ := hsim₁.releaseSlot
      have hdata : s₁.readBytes x (BlockChunk.new pos rest).offset
          (BlockChunk.new pos rest).len
          = some (flatRead a.array dev pos (BlockChunk.new pos rest).len) := by
        unfold CacheSys.readBytes
        rw [if_pos (show (BlockChunk.new pos rest).offset + _ ≤ _ from hin),
          hsim₁.coherent.cached x _ hkey hup]
        exact congrArg some (slice_block a.array dev pos hin)
      obtain ⟨s', hloop, hsim'⟩ := ih s₂
        (pos + BitVec.ofNat 32 (BlockChunk.new pos rest).len)
        (rest - (BlockChunk.new pos rest).len)
        (out ++ flatRead a.array dev pos (BlockChunk.new pos rest).len)
        hsim₂ (by omega)
      refine ⟨s', ?_, hsim'⟩
      have hread' : s.read (fuel + 1)
          ⟨dev, (BlockChunk.new pos rest).blockNumber⟩ = some (some x, s₁) :=
        hread
      simp only [hread', hdata, hrel, hloop]
      rw [pos_add_add pos hle, List.append_assoc, ← flatRead_add,
        show (BlockChunk.new pos rest).len
          + (rest - (BlockChunk.new pos rest).len) = rest by omega,
        List.length_append, length_flatRead,
        show out.length + (BlockChunk.new pos rest).len
          + (rest - (BlockChunk.new pos rest).len) = out.length + rest by omega]

/-- Chunk by chunk the bytes are written to the array. -/
theorem CacheSys.Sim.blockWriteLoop {n : Nat} (hcap : n < 65536)
    (fuel : Nat) (dev : DevNum) :
    ∀ (turns : Nat) (s : CacheSys S) (a : FlatSys) (pos : BitVec 32)
      (rest : List UInt8) (done : Nat), a.handles.length < n →
      s.Sim n a none → rest.length < turns →
      ∃ s', s.blockWriteLoop (fuel + 1) dev turns pos rest done
          = some (s', pos + BitVec.ofNat 32 rest.length,
              some (done + rest.length)) ∧
        s'.Sim n ⟨flatWrite a.array dev pos rest, a.handles⟩ none := by
  intro turns
  induction turns with
  | zero => intro s a pos rest done _ _ h; omega
  | succ turns ih =>
    intro s a pos rest done hfew hsim hrest
    unfold CacheSys.blockWriteLoop
    by_cases hzero : rest.length = 0
    · rw [if_pos hzero]
      obtain rfl := List.length_eq_zero_iff.mp hzero
      exact ⟨s, by simp, hsim⟩
    · rw [if_neg hzero]
      obtain ⟨hpos, hle, hin⟩ := BlockChunk.new_bounds pos
        (Nat.pos_of_ne_zero hzero)
      have hon := onDevice_pos dev pos
      generalize hc : BlockChunk.new pos rest.length = c at hpos hle hin ⊢
      have hnum : c.blockNumber = pos / 1024#32 := by rw [← hc]; rfl
      have hoff : c.offset = pos.toNat % blockSize := by rw [← hc]; rfl
      have htake : (rest.take c.len).length = c.len := by
        rw [List.length_take]
        omega
      have hin' : pos.toNat % blockSize + (rest.take c.len).length
          ≤ blockSize := by omega
      -- A whole block is only claimed, any other chunk is read first.
      obtain ⟨x, s₁, hhandle, hsim₁, hkey, hup⟩ : ∃ x s₁,
          (if c.isFullBlock then
            (s.acquireSlot (fuel + 1) ⟨dev, c.blockNumber⟩).map
              (Prod.map some id)
            else s.read (fuel + 1) ⟨dev, c.blockNumber⟩)
            = some (some x, s₁) ∧ s₁.Sim n a (some x) ∧
          (s₁.manager.slot x).key = some ⟨dev, pos / 1024#32⟩ ∧
          ((s₁.manager.slot x).upToDate = true ∨
            (c.offset = 0 ∧ (rest.take c.len).length = blockSize)) := by
        rw [hnum]
        by_cases hfull : c.isFullBlock = true
        · obtain ⟨x, s₁, hacq, hsim₁, hkey⟩ := hsim.acquireSlot hcap hfew hon fuel
          have hf : c.offset = 0 ∧ c.len = blockSize := by
            simpa [BlockChunk.isFullBlock] using hfull
          exact ⟨x, s₁, by rw [if_pos hfull, hacq]; rfl, hsim₁, hkey,
            .inr ⟨hf.1, by rw [htake]; exact hf.2⟩⟩
        · obtain ⟨x, s₁, hread, hsim₁, hkey, hup⟩ := hsim.read hcap hfew hon fuel
          exact ⟨x, s₁, by rw [if_neg hfull, hread], hsim₁, hkey, .inl hup⟩
      obtain ⟨s₂, hwrite, hsim₂⟩ := hsim₁.writeBytes hkey
        (by rw [hoff]; exact hin') hup
      rw [hoff, setBlock_overlay a.array dev pos hin'] at hsim₂
      obtain ⟨s₃, hrel, hsim₃⟩ := hsim₂.releaseSlot
      obtain ⟨s', hloop, hsim'⟩ := ih s₃
        ⟨flatWrite a.array dev pos (rest.take c.len), a.handles⟩
        (pos + BitVec.ofNat 32 c.len) (rest.drop c.len) (done + c.len) hfew
        hsim₃ (by rw [List.length_drop]; omega)
      refine ⟨s', ?_, ?_⟩
      · simp only [hhandle, hwrite, hrel, hloop]
        rw [List.length_drop, pos_add_add pos hle,
          show done + c.len + (rest.length - c.len)
            = done + rest.length by omega]
      · have hall := flatWrite_append dev (rest.drop c.len) (rest.take c.len)
          a.array pos
        rw [List.take_append_drop, htake] at hall
        rw [hall]
        exact hsim'

-- ======== sync

theorem CacheSys.Sim.flushAll {n : Nat} {a : FlatSys} {pin : Option S} :
    ∀ (slots : List S) (s : CacheSys S), s.Sim n a pin →
      (slots.foldl (fun s x => s.submitAndWait .write x) s).Sim n a pin ∧
      SameRefs s.manager
        (slots.foldl (fun s x => s.submitAndWait .write x) s).manager ∧
      ∀ y, ((slots.foldl (fun s x => s.submitAndWait .write x) s).manager.slot
        y).dirty = true → y ∉ slots ∧ (s.manager.slot y).dirty = true := by
  intro slots
  induction slots with
  | nil =>
    intro s h
    exact ⟨h, .refl _, fun y hy => ⟨by simp, hy⟩⟩
  | cons x rest ih =>
    intro s h
    obtain ⟨hco, hsame, hh, hdirty, hup⟩ := h.coherent.flush h.index x
    have hone : (s.submitAndWait .write x).Sim n a pin :=
      h.sameRefs hco hsame hup hh rfl
    obtain ⟨hsim, hsame', hrest⟩ := ih _ hone
    refine ⟨hsim, hsame.trans hsame', fun y hy => ?_⟩
    obtain ⟨hnot, hd⟩ := hrest y hy
    obtain ⟨hne, hd⟩ := hdirty y hd
    exact ⟨by simp [hne, hnot], hd⟩

/-- Writing back changes nothing that can be read. -/
theorem CacheSys.Sim.syncDirty {n : Nat} {s : CacheSys S} {a : FlatSys}
    {pin : Option S} (h : s.Sim n a pin) {values : List S → List S}
    (hvalues : ∀ l, (values l).Perm l) (predicate : BufferKey → Bool) :
    (s.syncDirty values predicate).Sim n a pin ∧
      ∀ key, OnDevice key → predicate key = true →
        (s.syncDirty values predicate).disk.block key = a.array.block key := by
  unfold CacheSys.syncDirty
  generalize hslots : (s.manager.buffers.filter fun slot =>
    (s.manager.slot slot).dirty && (s.manager.slot slot).key.any predicate)
    = slots
  obtain ⟨hsim, hsame, hclean⟩ := CacheSys.Sim.flushAll (values slots) s h
  refine ⟨hsim, fun key hon hpred => ?_⟩
  cases hidx : s.manager.bufferIndex key with
  | none => exact hsim.coherent.absent key hon (by rw [hsame.index]; exact hidx)
  | some x =>
    have hkey := (h.index key x).mp hidx
    apply hsim.coherent.clean x key ((hsame.key x).trans hkey)
    by_contra hd
    obtain ⟨hnot, hd⟩ := hclean x (by simpa using hd)
    apply hnot
    rw [(hvalues slots).mem_iff, ← hslots, List.mem_filter]
    exact ⟨h.all x, by simp [hd, hkey, hpred]⟩

-- ======== the operations

theorem CacheSys.Sim.handOut {n : Nat} {s : CacheSys S} {a : FlatSys}
    {x : S} {key : BufferKey} (h : s.Sim n a (some x))
    (hkey : (s.manager.slot x).key = some key)
    (hup : (s.manager.slot x).upToDate = true) :
    ({ s with handles := (x, key) :: s.handles } : CacheSys S).Sim n
      { a with handles := key :: a.handles } none := by
  obtain ⟨hco, hb, hnd, hall, hsize, hh, hheld, hcount⟩ := h
  refine ⟨⟨hco.onDevice, hco.cached, hco.clean, hco.dirty, hco.absent,
    hco.beyond⟩, hb, hnd, hall, hsize, ?_, ?_, ?_⟩
  · simp only [List.map_cons, hh]
  · intro y k hmem
    rcases List.mem_cons.mp hmem with heq | hmem
    · obtain ⟨rfl, rfl⟩ := Prod.mk.inj heq
      exact ⟨hkey, hup⟩
    · exact hheld y k hmem
  · intro y
    dsimp only
    rw [hcount y, List.map_cons, List.count_cons, share_none]
    simp only [share, Option.some.injEq, beq_iff_eq]
    omega

theorem CacheSys.Sim.takeBack {n : Nat} {s : CacheSys S} {a : FlatSys}
    {i : Nat} {x : S} {key : BufferKey} (h : s.Sim n a none)
    (hi : s.handles[i]? = some (x, key)) :
    ({ s with handles := s.handles.eraseIdx i } : CacheSys S).Sim n
      { a with handles := a.handles.eraseIdx i } (some x) := by
  obtain ⟨hlt, hget⟩ := List.getElem?_eq_some_iff.mp hi
  obtain ⟨hco, hb, hnd, hall, hsize, hh, hheld, hcount⟩ := h
  refine ⟨⟨hco.onDevice, hco.cached, hco.clean, hco.dirty, hco.absent,
    hco.beyond⟩, hb, hnd, hall, hsize, ?_, ?_, ?_⟩
  · rw [← List.eraseIdx_map, hh]
  · exact fun y k hmem => hheld y k (List.mem_of_mem_eraseIdx hmem)
  · intro y
    have hperm := (List.getElem_cons_eraseIdx_perm hlt).map Prod.fst
    have hcnt := hperm.count_eq y
    rw [hget, List.map_cons, List.count_cons] at hcnt
    dsimp only
    rw [hcount y, ← hcnt, share_none]
    simp only [share, Option.some.injEq, beq_iff_eq]
    omega

/-- The operations that take a slot. -/
def CacheOp.acquires : CacheOp → Bool
  | .blockRead .. | .blockWrite .. | .read .. | .zeroFill .. => true
  | _ => false

/-- Each operation on the cache answers as the one on the array, and keeps the
simulation. -/
theorem CacheSys.Sim.step {n : Nat} {s : CacheSys S} {a : FlatSys}
    (h : s.Sim n a none) (hcap : n < 65536) (fuel : Nat)
    {values : List S → List S} (hvalues : ∀ l, (values l).Perm l)
    (op : CacheOp)
    (hfew : (a.step op).isSome → op.acquires = true → a.handles.length < n) :
    Agree (fun s a => s.Sim n a none) (s.step (fuel + 1) values op)
      (a.step op) := by
  have hget : ∀ i : Nat, a.handles[i]? = (s.handles[i]?).map Prod.snd := by
    intro i
    rw [← h.handles, List.getElem?_map]
  cases op with
  | blockRead dev pos len =>
    obtain ⟨s', hloop, hsim⟩ := CacheSys.Sim.blockReadLoop hcap (hfew rfl rfl)
      fuel dev (len + 1) s pos len [] h (by omega)
    simp only [CacheSys.step, CacheSys.blockRead, hloop, Option.map_some,
      List.nil_append, List.length_nil, Nat.zero_add]
    exact .ok _ hsim
  | blockWrite dev pos buf =>
    obtain ⟨s', hloop, hsim⟩ := CacheSys.Sim.blockWriteLoop hcap fuel dev
      (buf.length + 1) s a pos buf 0 (hfew rfl rfl) h (by omega)
    simp only [CacheSys.step, CacheSys.blockWrite, hloop, Option.map_some,
      Nat.zero_add]
    exact .ok _ hsim
  | read key hon =>
    obtain ⟨x, s', hread, hsim, hkey, hup⟩ := h.read hcap (hfew rfl rfl) hon fuel
    simp only [CacheSys.step, hread, Option.map_some]
    exact .ok _ (hsim.handOut hkey hup)
  | readBytes i off len =>
    simp only [CacheSys.step, FlatSys.step, hget]
    cases hi : s.handles[i]? with
    | none => exact .fail
    | some p =>
      obtain ⟨x, key⟩ := p
      obtain ⟨hkey, hup⟩ := h.held x key (List.mem_of_getElem? hi)
      simp only [Option.map_some, CacheSys.readBytes,
        h.coherent.cached x key hkey hup]
      split
      · exact .ok _ h
      · exact .fail
  | modify i writer =>
    simp only [CacheSys.step, FlatSys.step, hget]
    cases hi : s.handles[i]? with
    | none => exact .fail
    | some p =>
      obtain ⟨x, key⟩ := p
      obtain ⟨hkey, hup⟩ := h.held x key (List.mem_of_getElem? hi)
      exact .ok _ (h.modify hkey hup writer)
  | writeBytes i off src =>
    simp only [CacheSys.step, FlatSys.step, hget]
    cases hi : s.handles[i]? with
    | none => exact .fail
    | some p =>
      obtain ⟨x, key⟩ := p
      obtain ⟨hkey, hup⟩ := h.held x key (List.mem_of_getElem? hi)
      simp only [Option.map_some]
      by_cases hfit : off + src.length ≤ blockSize
      · obtain ⟨s', hwrite, hsim⟩ := h.writeBytes hkey hfit (.inl hup)
        simp only [hwrite, Option.map_some, if_pos hfit]
        exact .ok _ hsim
      · simp only [CacheSys.writeBytes, if_neg hfit, Option.map_none]
        exact .fail
  | fillZero i =>
    simp only [CacheSys.step, FlatSys.step, hget]
    cases hi : s.handles[i]? with
    | none => exact .fail
    | some p =>
      obtain ⟨x, key⟩ := p
      obtain ⟨hkey, -⟩ := h.held x key (List.mem_of_getElem? hi)
      exact .ok _ (h.fillZero hkey)
  | zeroFill key hon =>
    obtain ⟨x, s₁, hacq, hsim, hkey⟩ := h.acquireSlot hcap (hfew rfl rfl) hon fuel
    obtain ⟨s₂, hrel, hsim₂⟩ := (hsim.fillZero hkey).releaseSlot
    simp only [CacheSys.step, hacq, hrel, Option.map_some]
    exact .ok _ hsim₂
  | drop i =>
    simp only [CacheSys.step, FlatSys.step, hget]
    cases hi : s.handles[i]? with
    | none => exact .fail
    | some p =>
      obtain ⟨x, key⟩ := p
      obtain ⟨s', hrel, hsim⟩ := (h.takeBack hi).releaseSlot
      have heq : (s.releaseSlot x).map (fun s =>
          ({ s with handles := s.handles.eraseIdx i }, CacheOut.done))
          = some (s', .done) := by
        unfold CacheSys.releaseSlot at hrel ⊢
        obtain ⟨m, hm, hs'⟩ := Option.map_eq_some_iff.mp hrel
        dsimp only at hm
        simp only [hm, Option.map_some, ← hs']
      simp only [Option.map_some]
      rw [heq]
      exact .ok _ hsim
  | syncDirty predicate =>
    exact .ok _ (h.syncDirty hvalues predicate).1

theorem CacheSys.Sim.init {buffers : List S} (hnd : buffers.Nodup)
    (hall : ∀ x, x ∈ buffers) (data : S → Block) (disk : Bytes) :
    (CacheSys.init buffers data disk).Sim buffers.length ⟨disk, []⟩ none := by
  constructor
  case coherent =>
    constructor
    case onDevice => intro x key hk; cases hk
    case cached => intro x key hk; cases hk
    case clean => intro x key hk; cases hk
    case dirty => intro x hd; cases hd
    case absent => intro key _ _; rfl
    case beyond => intro dev addr _; rfl
  case index => exact BufferManager.Bound.init buffers
  case nodup => exact hnd
  case all => exact hall
  case size => rfl
  case handles => rfl
  case held => intro x key hmem; cases hmem
  case count => intro x; rfl

theorem Bytes.ext_blocks {a b : Bytes}
    (hbeyond : ∀ dev addr, 2147483648 * blockSize ≤ addr →
      a dev addr = b dev addr)
    (hblocks : ∀ key, OnDevice key → a.block key = b.block key) : a = b := by
  funext dev addr
  by_cases hfar : 2147483648 * blockSize ≤ addr
  · exact hbeyond dev addr hfar
  · unfold blockSize at hfar
    have hnum : (BitVec.ofNat 32 (addr / 1024)).toNat = addr / 1024 := by
      rw [BitVec.toNat_ofNat]
      omega
    have hon : OnDevice ⟨dev, BitVec.ofNat 32 (addr / 1024)⟩ := by
      show (BitVec.ofNat 32 (addr / 1024)).toNat < 2147483648
      omega
    have hbyte := congrFun (hblocks _ hon)
      ⟨addr % 1024, Nat.mod_lt _ (by decide)⟩
    simp only [Bytes.block, Bytes.blockAt, blockBase, hnum, blockSize] at hbyte
    rwa [show addr / 1024 * 1024 + addr % 1024 = addr by omega] at hbyte

-- ======== the result

/-- Any sequence of operations returns on the cache what it returns on
the flat arrays, and a sync at its end leaves the selected blocks, or
with no selection the whole disk, equal to the arrays. An operation that
takes a slot finds a buffer the task has not pinned, and the buffers fit a
16-bit count. -/
theorem buffer_cache_transparent {buffers : List S} (hnd : buffers.Nodup)
    (hall : ∀ x, x ∈ buffers) (hcap : buffers.length < 65536)
    (data : S → Block) (disk : Bytes) (fuel : Nat)
    {values : List S → List S} (hvalues : ∀ l, (values l).Perm l)
    (ops : List CacheOp)
    (hfew : Guarded (next FlatSys.step)
      (fun a op => op.acquires = true → a.handles.length < buffers.length)
      ⟨disk, []⟩ ops) :
    Agree (fun s a => ∀ predicate : BufferKey → Bool,
        (∀ key, OnDevice key → predicate key = true →
          (s.syncDirty values predicate).disk.block key = a.array.block key) ∧
        ((∀ key, predicate key = true) →
          (s.syncDirty values predicate).disk = a.array))
      (exec (CacheSys.step (fuel + 1) values)
        (CacheSys.init buffers data disk) ops)
      (exec FlatSys.step ⟨disk, []⟩ ops) := by
  have hagree := Agree.exec (R := fun (s : CacheSys S) (a : FlatSys) =>
      s.Sim buffers.length a none)
    (fun s a op hR hg => hR.step hcap fuel hvalues op hg)
    (CacheSys.Sim.init hnd hall data disk) hfew
  revert hagree
  generalize exec (CacheSys.step (fuel + 1) values)
    (CacheSys.init buffers data disk) ops = r
  generalize exec FlatSys.step ⟨disk, []⟩ ops = r'
  intro hagree
  cases hagree with
  | fail => exact .fail
  | ok outs hsim =>
    refine .ok outs fun predicate => ?_
    obtain ⟨hsync, hblocks⟩ := hsim.syncDirty hvalues predicate
    refine ⟨hblocks, fun hevery => ?_⟩
    exact Bytes.ext_blocks hsync.coherent.beyond fun key hon =>
      hblocks key hon (hevery key)

/-- A handle kept over a write that crosses into its block and, with two
buffers, has to evict the other block. -/
def crossingWrite : List CacheOp :=
  [.read ⟨⟨0x0301#16⟩, 1#32⟩ (by show _ < _; decide), .writeBytes 0 4 [7],
    .blockWrite ⟨0x0301#16⟩ 1020#32 [1, 2, 3, 4, 5, 6], .readBytes 0 0 5,
    .drop 0, .blockRead ⟨0x0301#16⟩ 1018#32 8, .syncDirty fun _ => true]

/-- Such a run with the read that sees both writes. -/
theorem buffer_cache_transparent_two :
    Guarded (next FlatSys.step)
      (fun a op => op.acquires = true → a.handles.length < 2)
      ⟨fun _ _ => 0, []⟩ crossingWrite ∧
    (exec (CacheSys.step 1 id)
      (CacheSys.init [false, true] (fun _ _ => 0) fun _ _ => 0)
      crossingWrite).map Prod.snd
      = (exec FlatSys.step ⟨fun _ _ => 0, []⟩ crossingWrite).map Prod.snd := by
  have hg : Guarded (next FlatSys.step)
      (fun a op => op.acquires = true → a.handles.length < 2)
      ⟨fun _ _ => 0, []⟩ crossingWrite := by
    refine ⟨?_, ?_, ?_, ?_, ?_, ?_, ?_, trivial⟩ <;> decide
  exact ⟨hg, (@buffer_cache_transparent Bool _ [false, true] (by decide)
    (by decide) (by decide) (fun _ _ => 0) (fun _ _ => 0) 0 id
    (fun _ => .refl _) crossingWrite hg).answer⟩

end LinuxRs.Fs
