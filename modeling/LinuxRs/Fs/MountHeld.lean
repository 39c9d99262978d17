/-
What the mount table keeps alive, and what follows for the two calls.

# The invariant

`Held s l` says that the handles of every inode object cover those of the
mount entries and those of the list `l`, which is what the code at hand
has in its local variables; and that the root of every mount entry stands
in the inode table. Taking a handle puts it on the list, dropping one
takes it off, and an entry that is inserted takes two over. An object
with a handle is not evicted, so the roots stay.

# What follows

The root of a mounted device has a handle outside the inode table for as
long as it is mounted, its own mount entry's, so `has_active_inodes` is
true of every mounted device. And the one error of `sys_mount` after the
root inode is loaded, a full table, leaves that inode in the cache.
-/
import LinuxRs.Fs.InodeRuns
import LinuxRs.Fs.MountCalls
import Mathlib.Algebra.Order.BigOperators.Group.List
import Mathlib.Algebra.Order.Ring.Nat

namespace LinuxRs.Fs

open Function (update update_self update_of_ne)

open LinuxRs.Lib
open LinuxRs.Driver (DevNum)

namespace MountSys

variable {s s' : MountSys} {l : List Nat} {a : Nat} {id : InodeId}

/-- The handles cover those of the mount entries and the list, and the
mounted roots are in the inode table. -/
structure Held (s : MountSys) (l : List Nat) : Prop where
  bound : ∀ i a, s.inodes.slots i = some a →
    i < inodeTableCapacity ∧ a < s.inodes.next
  alive : ∀ a, 0 < (s.inodes.heap a).handles → a < s.inodes.next
  refs : ∀ a, s.mountRefs a + l.count a ≤ (s.inodes.heap a).handles
  roots : ∀ m, some m ∈ s.table → (∃ i, s.inodes.slots i = some m.rootInode) ∧
      (s.inodes.heap m.rootInode).id = ⟨m.device, rootInodeNumber⟩

/-- The step leaves the mount table alone. -/
def Stays (s s' : MountSys) : Prop :=
  s'.table = s.table ∧ s'.rootDev = s.rootDev

theorem Stays.trans {s'' : MountSys} (h : Stays s s') (h' : Stays s' s'') :
    Stays s s'' :=
  ⟨h'.1.trans h.1, h'.2.trans h.2⟩

/-- No object is new or changes its handles, and only objects without
handles leave the table. -/
structure Shrinks (s s' : MountSys) : Prop where
  stays : Stays s s'
  next : s'.inodes.next = s.inodes.next
  id : ∀ a, (s'.inodes.heap a).id = (s.inodes.heap a).id
  handles : ∀ a, (s'.inodes.heap a).handles = (s.inodes.heap a).handles
  old : ∀ i a, s'.inodes.slots i = some a → s.inodes.slots i = some a
  kept : ∀ i a, s.inodes.slots i = some a → 0 < (s.inodes.heap a).handles →
    s'.inodes.slots i = some a

theorem mountRefs_congr (h : s'.table = s.table) (a : Nat) :
    s'.mountRefs a = s.mountRefs a := by
  unfold mountRefs
  rw [h]

theorem mountRefs_root {m : MountEntry} (hm : some m ∈ s.table) :
    0 < s.mountRefs m.rootInode := by
  have hle := List.single_le_sum (fun _ _ => Nat.zero_le _) _
    (List.mem_map_of_mem (f := fun slot : Option MountEntry =>
      (slot.map (refsOf m.rootInode)).getD 0) hm)
  have hone : 1 ≤ refsOf m.rootInode m := by
    unfold refsOf
    rw [if_pos rfl]
    omega
  exact Nat.lt_of_lt_of_le hone hle

theorem Held.root_held (h : Held s l) {m : MountEntry}
    (hm : some m ∈ s.table) : 0 < (s.inodes.heap m.rootInode).handles := by
  have hpos := mountRefs_root hm
  have hle := h.refs m.rootInode
  omega

theorem Held.weaken {l' : List Nat} (h : Held s l)
    (hle : ∀ a, l'.count a ≤ l.count a) : Held s l' where
  bound := h.bound
  alive := h.alive
  refs a := Nat.le_trans (Nat.add_le_add_left (hle a) _) (h.refs a)
  roots := h.roots

theorem Held.tail (h : Held s (a :: l)) : Held s l := by
  apply h.weaken
  intro b
  exact List.count_le_count_cons

theorem Held.shrinks (h : Held s l) (hs : Shrinks s s') : Held s' l where
  bound i a hi := by
    rw [hs.next]
    exact h.bound i a (hs.old i a hi)
  alive a hpos := by
    rw [hs.next]
    rw [hs.handles] at hpos
    exact h.alive a hpos
  refs a := by
    rw [mountRefs_congr hs.stays.1, hs.handles]
    exact h.refs a
  roots m hm := by
    rw [hs.stays.1] at hm
    obtain ⟨⟨i, hi⟩, hid⟩ := h.roots m hm
    rw [hs.id]
    exact ⟨⟨i, hs.kept i _ hi (h.root_held hm)⟩, hid⟩

theorem Shrinks.refl (s : MountSys) : Shrinks s s :=
  ⟨⟨rfl, rfl⟩, rfl, fun _ => rfl, fun _ => rfl, fun _ _ hi => hi,
    fun _ _ hi _ => hi⟩

theorem Shrinks.trans {s'' : MountSys} (h : Shrinks s s')
    (h' : Shrinks s' s'') : Shrinks s s'' where
  stays := h.stays.trans h'.stays
  next := h'.next.trans h.next
  id a := (h'.id a).trans (h.id a)
  handles a := (h'.handles a).trans (h.handles a)
  old i a hi := h.old i a (h'.old i a hi)
  kept i a hi hpos := by
    apply h'.kept i a (h.kept i a hi hpos)
    rw [h.handles]
    exact hpos

-- ======== handles

theorem setHandles_handles (t : InodeSys) (a n b : Nat) :
    ((t.setHandles a n).heap b).handles
      = if b = a then n else (t.heap b).handles := by
  unfold InodeSys.setHandles
  dsimp only
  by_cases hb : b = a
  · rw [hb, update_self, if_pos rfl]
  · rw [update_of_ne hb, if_neg hb]

theorem setHandles_id (t : InodeSys) (a n b : Nat) :
    ((t.setHandles a n).heap b).id = (t.heap b).id := by
  unfold InodeSys.setHandles
  dsimp only
  by_cases hb : b = a
  · rw [hb, update_self]
  · rw [update_of_ne hb]

theorem Held.clone (h : Held s l) (hlt : a < s.inodes.next) :
    Held (s.clone a) (a :: l) where
  bound := h.bound
  alive b hpos := by
    unfold MountSys.clone at hpos ⊢
    rw [setHandles_handles] at hpos
    split at hpos
    next heq => exact heq ▸ hlt
    next => exact h.alive b hpos
  refs b := by
    have hle := h.refs b
    show s.mountRefs b + _ ≤ ((s.inodes.setHandles a _).heap b).handles
    rw [setHandles_handles, List.count_cons]
    by_cases hb : b = a
    · subst hb
      simp only [BEq.rfl, if_true]
      omega
    · rw [if_neg hb, if_neg (by simpa using Ne.symm hb)]
      exact hle
  roots m hm := by
    obtain ⟨hslot, hid⟩ := h.roots m hm
    exact ⟨hslot, (setHandles_id ..).trans hid⟩

/-- A handle that is dropped is counted no more. -/
theorem Held.drop (h : Held s (a :: l)) : Held (s.drop a) l where
  bound := h.bound
  alive b hpos := by
    unfold MountSys.drop at hpos ⊢
    rw [setHandles_handles] at hpos
    split at hpos
    next heq =>
      apply h.alive
      rw [heq]
      omega
    next => exact h.alive b hpos
  refs b := by
    have hle := h.refs b
    show s.mountRefs b + _ ≤ ((s.inodes.setHandles a _).heap b).handles
    rw [setHandles_handles]
    rw [List.count_cons] at hle
    by_cases hb : b = a
    · subst hb
      simp only [BEq.rfl, if_true] at hle ⊢
      omega
    · rw [if_neg hb]
      omega
  roots m hm := by
    obtain ⟨hslot, hid⟩ := h.roots m hm
    exact ⟨hslot, (setHandles_id ..).trans hid⟩

theorem Held.of_taskHandles (h : Held s []) (ha : s.taskHandles a ≠ 0) :
    Held s [a] where
  bound := h.bound
  alive := h.alive
  refs b := by
    have hle := h.refs b
    unfold taskHandles at ha
    rw [List.count_singleton]
    split
    next heq =>
      obtain rfl : a = b := by simpa using heq
      omega
    next => exact hle
  roots := h.roots

theorem Held.lt_next (h : Held s (a :: l)) : a < s.inodes.next := by
  apply h.alive
  have hle := h.refs a
  rw [List.count_cons_self] at hle
  omega

-- ======== the inode table

theorem syncInode_shape (t : InodeSys) (a : Nat) :
    (t.syncInode a).slots = t.slots ∧ (t.syncInode a).next = t.next ∧
      ∀ b, ((t.syncInode a).heap b).id = (t.heap b).id ∧
        ((t.syncInode a).heap b).handles = (t.heap b).handles := by
  unfold InodeSys.syncInode
  split
  next =>
    refine ⟨rfl, rfl, fun b => ?_⟩
    unfold InodeSys.setInner
    dsimp only
    by_cases hb : b = a
    · rw [hb, update_self]
      exact ⟨rfl, rfl⟩
    · rw [update_of_ne hb]
      exact ⟨rfl, rfl⟩
  next => exact ⟨rfl, rfl, fun b => ⟨rfl, rfl⟩⟩

theorem inodes_flushSlot_shape {t t' : InodeSys} {slot : Nat}
    {es : List InodeEvent} (h : t.flushSlot slot = some (t', es)) :
    t'.slots = update t.slots slot none ∧ t'.next = t.next ∧
      ∀ b, (t'.heap b).id = (t.heap b).id ∧
        (t'.heap b).handles = (t.heap b).handles := by
  unfold InodeSys.flushSlot at h
  split at h
  next => cases h
  next a hslot =>
    dsimp only at h
    split at h
    next =>
      split at h
      next => cases h
      next disk hdisk =>
        cases h
        exact ⟨rfl, rfl, fun b => ⟨rfl, rfl⟩⟩
    next =>
      cases h
      exact syncInode_shape _ a

theorem flushSlot_shrinks {slot : Nat} (hslot : s.inodes.slots slot = some a)
    (hidle : (s.inodes.heap a).handles = 0) (h : s.flushSlot slot = some s') :
    Shrinks s s' ∧ s'.inodes.slots slot = none := by
  -- a slot that is emptied, whatever happens to the disk
  have hempty : ∀ t : InodeSys, t.slots = update s.inodes.slots slot none →
      t.next = s.inodes.next → (∀ b, (t.heap b).id = (s.inodes.heap b).id ∧
        (t.heap b).handles = (s.inodes.heap b).handles) →
      Shrinks s { s with inodes := t } ∧ t.slots slot = none := by
    intro t hslots hnext hheap
    refine ⟨⟨⟨rfl, rfl⟩, hnext, fun b => (hheap b).1, fun b => (hheap b).2,
      ?_, ?_⟩, ?_⟩
    · intro i b hi
      rw [hslots] at hi
      by_cases heq : i = slot
      · rw [heq, update_self] at hi
        cases hi
      · rw [update_of_ne heq] at hi
        exact hi
    · intro i b hi hpos
      rw [hslots, update_of_ne]
      · exact hi
      · intro heq
        subst heq
        rw [hslot] at hi
        cases hi
        omega
    · rw [hslots, update_self]
  unfold flushSlot at h
  rw [hslot] at h
  dsimp only at h
  split at h
  next =>
    obtain ⟨⟨t, es⟩, ht, rfl⟩ := Option.map_eq_some_iff.mp h
    obtain ⟨hslots, hnext, hheap⟩ := inodes_flushSlot_shape ht
    exact hempty t hslots hnext hheap
  next =>
    cases h
    exact hempty _ rfl rfl (fun b => ⟨rfl, rfl⟩)

theorem Held.makeRoom (hs : Held s l) {slot : Nat}
    (h : s.makeRoom = some (s', slot)) :
    Shrinks s s' ∧ s'.inodes.slots slot = none ∧
      slot < inodeTableCapacity := by
  unfold MountSys.makeRoom at h
  split at h
  next i hfind =>
    obtain ⟨rfl, rfl⟩ := Prod.mk.inj (Option.some.inj h)
    have hnone := List.find?_some hfind
    have hmem := List.mem_of_find?_eq_some hfind
    exact ⟨.refl s, Option.isNone_iff_eq_none.mp hnone, List.mem_range.mp hmem⟩
  next =>
    split at h
    next => cases h
    next i hvictim =>
      obtain ⟨t, ht, heq⟩ := Option.map_eq_some_iff.mp h
      obtain ⟨rfl, rfl⟩ := Prod.mk.inj heq
      obtain ⟨a, hi, hidle⟩ := InodeSys.findVictim_some hvictim
      obtain ⟨hshrinks, hnone⟩ := flushSlot_shrinks hi hidle ht
      exact ⟨⟨hshrinks.stays, hshrinks.next, hshrinks.id,
        hshrinks.handles, hshrinks.old, hshrinks.kept⟩, hnone, (hs.bound i a hi).1⟩

theorem Held.mountRefs_next (h : Held s l) :
    s.mountRefs s.inodes.next = 0 ∧ l.count s.inodes.next = 0 := by
  have hle := h.refs s.inodes.next
  have halive := h.alive s.inodes.next
  omega

/-- A loaded inode has one handle more, the one that is handed out. -/
theorem Held.load (h : Held s l) {slot : Nat}
    (hslot : s.inodes.slots slot = none) (hlt : slot < inodeTableCapacity)
    (inode : DiskInode) (fs : Nat) :
    Held (s.load slot id inode fs) (s.inodes.next :: l) where
  bound i b hi := by
    unfold MountSys.load at hi ⊢
    dsimp only at hi ⊢
    by_cases heq : i = slot
    · rw [heq, update_self] at hi
      cases hi
      exact ⟨heq ▸ hlt, Nat.lt_succ_self _⟩
    · rw [update_of_ne heq] at hi
      obtain ⟨hi, hb⟩ := h.bound i b hi
      exact ⟨hi, Nat.lt_succ_of_lt hb⟩
  alive b hpos := by
    unfold MountSys.load at hpos ⊢
    dsimp only at hpos ⊢
    by_cases heq : b = s.inodes.next
    · rw [heq]
      exact Nat.lt_succ_self _
    · rw [update_of_ne heq] at hpos
      exact Nat.lt_succ_of_lt (h.alive b hpos)
  refs b := by
    have hle := h.refs b
    show s.mountRefs b + _ ≤ (update s.inodes.heap _ _ b).handles
    rw [List.count_cons]
    by_cases heq : b = s.inodes.next
    · subst heq
      obtain ⟨hrefs, hcount⟩ := h.mountRefs_next
      rw [update_self, hrefs, hcount]
      simp
    · rw [update_of_ne heq, if_neg (by simpa using Ne.symm heq)]
      exact hle
  roots m hm := by
    obtain ⟨⟨i, hi⟩, hid⟩ := h.roots m hm
    have hne : m.rootInode ≠ s.inodes.next := by
      have hlt := (h.bound i _ hi).2
      omega
    refine ⟨⟨i, ?_⟩, ?_⟩
    · show update s.inodes.slots slot _ i = _
      rw [update_of_ne]
      · exact hi
      · intro heq
        rw [heq, hslot] at hi
        cases hi
    · show (update s.inodes.heap _ _ m.rootInode).id = _
      rw [update_of_ne hne]
      exact hid

theorem Held.acquireRaw (h : Held s l) {fs : Nat}
    (hacq : s.acquireRaw id fs = some (s', a)) :
    Held s' (a :: l) ∧ Stays s s' := by
  unfold MountSys.acquireRaw at hacq
  split at hacq
  next => cases hacq
  next =>
    split at hacq
    next b hlookup =>
      obtain ⟨rfl, rfl⟩ := Prod.mk.inj (Option.some.inj hacq)
      obtain ⟨i, hi, -⟩ := InodeSys.lookup_some hlookup
      exact ⟨h.clone (h.bound i b hi).2, ⟨rfl, rfl⟩⟩
    next =>
      obtain ⟨⟨t, slot⟩, hroom, heq⟩ := Option.map_eq_some_iff.mp hacq
      obtain ⟨rfl, rfl⟩ := Prod.mk.inj heq
      obtain ⟨hshrinks, hnone, hlt⟩ := h.makeRoom hroom
      exact ⟨(h.shrinks hshrinks).load hnone hlt _ _, hshrinks.stays⟩

-- ======== the pathnames

theorem Held.resolveInodeLoop (turns : Nat) (h : Held s l)
    (hres : MountSys.resolveInodeLoop turns s id = some (s', a)) :
    Held s' (a :: l) ∧ Stays s s' := by
  induction turns generalizing s id with
  | zero => cases hres
  | succ turns ih =>
    simp only [MountSys.resolveInodeLoop] at hres
    split at hres
    next => cases hres
    next fs hfs =>
      split at hres
      next => cases hres
      next t b hacq =>
        obtain ⟨hheld, htable⟩ := h.acquireRaw hacq
        split at hres
        next =>
          cases hres
          exact ⟨hheld, htable⟩
        next root hroot =>
          obtain ⟨hheld', htable'⟩ := ih hheld.drop hres
          exact ⟨hheld', htable.trans htable'⟩

theorem Held.walk {current : Nat} (ids : List InodeId)
    (h : Held s (current :: l)) (hwalk : s.walk current ids = some (s', a)) :
    Held s' (a :: l) ∧ Stays s s' := by
  induction ids generalizing s current with
  | nil =>
    cases hwalk
    exact ⟨h, ⟨rfl, rfl⟩⟩
  | cons id ids ih =>
    simp only [MountSys.walk] at hwalk
    split at hwalk
    next => cases hwalk
    next t b hres =>
      obtain ⟨hheld, htable⟩ := Held.resolveInodeLoop _ h hres
      have hswap : Held t (current :: b :: l) := by
        apply hheld.weaken
        intro c
        exact Nat.le_of_eq ((List.Perm.swap b current l).count_eq c)
      obtain ⟨hheld', htable'⟩ := ih hswap.drop hwalk
      exact ⟨hheld', htable.trans htable'⟩

theorem setInner_shrinks (s : MountSys) (a : Nat) (inner : InodeInner) :
    Shrinks s { s with inodes := s.inodes.setInner a inner } := by
  have hheap : ∀ b, ((s.inodes.setInner a inner).heap b).id
        = (s.inodes.heap b).id ∧
      ((s.inodes.setInner a inner).heap b).handles
        = (s.inodes.heap b).handles := by
    intro b
    unfold InodeSys.setInner
    dsimp only
    by_cases hb : b = a
    · rw [hb, update_self]
      exact ⟨rfl, rfl⟩
    · rw [update_of_ne hb]
      exact ⟨rfl, rfl⟩
  exact ⟨⟨rfl, rfl⟩, rfl, fun b => (hheap b).1, fun b => (hheap b).2,
    fun _ _ hi => hi, fun _ _ hi _ => hi⟩

theorem Held.resolvePath (h : Held s []) {path : PathLookup}
    {found : Option Nat} (hres : s.resolvePath path = some (s', found)) :
    Held s' found.toList ∧ Stays s s' := by
  unfold MountSys.resolvePath at hres
  split at hres
  next => cases hres
  next hstart =>
    split at hres
    next => cases hres
    next t b hwalk =>
      have hlt := (h.of_taskHandles hstart).lt_next
      obtain ⟨hheld, htable⟩ := (h.clone hlt).walk _ hwalk
      split at hres
      next =>
        cases hres
        exact ⟨hheld.shrinks (setInner_shrinks ..), htable⟩
      next =>
        cases hres
        exact ⟨hheld.drop, htable⟩

-- ======== the calls

theorem insert_some {mount : MountEntry} (h : s.insert mount = some s') :
    ∃ slot, s.table[slot]? = some none ∧
      s' = { s with table := s.table.set slot (some mount) } := by
  obtain ⟨slot, hslot, rfl⟩ := Option.map_eq_some_iff.mp h
  obtain ⟨hlt, hnone, -⟩ := List.findIdx?_eq_some_iff_getElem.mp hslot
  refine ⟨slot, ?_, rfl⟩
  rw [List.getElem?_eq_getElem hlt, Option.isNone_iff_eq_none.mp hnone]

theorem insert_eq_none {mount : MountEntry} :
    s.insert mount = none ↔ none ∉ s.table := by
  unfold insert
  rw [Option.map_eq_none_iff, List.findIdx?_eq_none_iff]
  constructor
  · intro h hmem
    exact absurd (h none hmem) (by simp)
  · intro h slot hmem
    cases slot with
    | none => exact absurd hmem h
    | some m => rfl

theorem sum_set_none {f : Option MountEntry → Nat} {t : List (Option MountEntry)}
    {slot : Nat} (hslot : t[slot]? = some none) (hnone : f none = 0)
    (m : MountEntry) :
    ((t.set slot (some m)).map f).sum = (t.map f).sum + f (some m) := by
  induction t generalizing slot with
  | nil => cases hslot
  | cons x t ih =>
    cases slot with
    | zero =>
      cases hslot
      simp only [List.set_cons_zero, List.map_cons, List.sum_cons, hnone]
      omega
    | succ slot =>
      have ih := @ih slot (by simpa using hslot)
      simp only [List.set_cons_succ, List.map_cons, List.sum_cons, ih]
      omega

/-- The handles of a mount go from the caller to the table. -/
theorem Held.insert {mount : MountEntry}
    (h : Held s (mount.rootInode :: (mount.mountPointInode.toList ++ l)))
    (hid : (s.inodes.heap mount.rootInode).id
      = ⟨mount.device, rootInodeNumber⟩)
    (hcached : ∃ i, s.inodes.slots i = some mount.rootInode)
    (hins : s.insert mount = some s') : Held s' l := by
  obtain ⟨slot, hslot, rfl⟩ := insert_some hins
  constructor
  · exact h.bound
  · exact h.alive
  · intro a
    have hle := h.refs a
    have hsum : MountSys.mountRefs
        { s with table := s.table.set slot (some mount) } a
        = s.mountRefs a + refsOf a mount :=
      sum_set_none hslot rfl mount
    have hpoint : (if mount.mountPointInode = some a then 1 else 0)
        = mount.mountPointInode.toList.count a := by
      cases mount.mountPointInode with
      | none => rfl
      | some p => simp [List.count_singleton]
    rw [hsum, refsOf, hpoint]
    rw [List.count_cons, List.count_append] at hle
    simp only [beq_iff_eq] at hle
    show _ ≤ (s.inodes.heap a).handles
    omega
  · intro m hm
    rcases List.mem_or_eq_of_mem_set hm with hold | heq
    · exact h.roots m hold
    · cases heq
      exact ⟨hcached, hid⟩

theorem acquireRaw_cached {fs : Nat}
    (hacq : s.acquireRaw id fs = some (s', a)) :
    (∃ i, s'.inodes.slots i = some a) ∧ (s'.inodes.heap a).id = id := by
  unfold MountSys.acquireRaw at hacq
  split at hacq
  next => cases hacq
  next =>
    split at hacq
    next b hlookup =>
      cases hacq
      obtain ⟨i, hi, hid⟩ := InodeSys.lookup_some hlookup
      exact ⟨⟨i, hi⟩, (setHandles_id ..).trans hid⟩
    next =>
      obtain ⟨⟨t, slot⟩, hroom, heq⟩ := Option.map_eq_some_iff.mp hacq
      cases heq
      refine ⟨⟨slot, ?_⟩, ?_⟩
      · show update t.inodes.slots slot _ slot = _
        rw [update_self]
      · show (update t.inodes.heap _ _ _).id = _
        rw [update_self]

/-- The arguments of a mount are held, or given back with the error. -/
theorem Held.mountArguments (h : Held s []) {devName dirName : PathLookup}
    {r : Except MountErrno (DevNum × Nat)}
    (harg : s.mountArguments devName dirName = some (s', r)) : Stays s s' ∧
      ((∃ e, r = .error e ∧ Held s' []) ∨
        ∃ dev dir, r = .ok (dev, dir) ∧ Held s' [dir]) := by
  unfold MountSys.mountArguments at harg
  split at harg
  next => cases harg
  next t hres =>
    cases harg
    obtain ⟨hheld, htable⟩ := h.resolvePath hres
    exact ⟨htable, .inl ⟨_, rfl, hheld⟩⟩
  next t devInode hres =>
    obtain ⟨hheld, htable⟩ := h.resolvePath hres
    split at harg
    next => cases harg
    next fileType _ =>
      split at harg
      next =>
        cases harg
        exact ⟨htable, .inl ⟨_, rfl, hheld.drop⟩⟩
      next =>
        split at harg
        next => cases harg
        next t' hres' =>
          cases harg
          obtain ⟨hheld', htable'⟩ := hheld.drop.resolvePath hres'
          exact ⟨htable.trans htable', .inl ⟨_, rfl, hheld'⟩⟩
        next t' dirInode hres' =>
          cases harg
          obtain ⟨hheld', htable'⟩ := hheld.drop.resolvePath hres'
          exact ⟨htable.trans htable', .inr ⟨_, _, rfl, hheld'⟩⟩

/-- A mount holds its root and its mount point, or nothing. -/
theorem Held.mountOn {dev : DevNum} {dir : Nat} (h : Held s [dir])
    {opens : Bool} {r : Except MountErrno Unit}
    (hmount : s.mountOn dev dir opens = some (s', r)) : Held s' [] := by
  unfold MountSys.mountOn at hmount
  split at hmount
  next => cases hmount
  next fileType _ =>
    split at hmount
    next =>
      cases hmount
      exact h.drop
    next =>
      split at hmount
      next =>
        dsimp only at hmount
        split at hmount
        next => cases hmount
        next t root hacq =>
          obtain ⟨hheld, htable⟩ := h.acquireRaw hacq
          obtain ⟨hcached, hid⟩ := acquireRaw_cached hacq
          split at hmount
          next t' hins =>
            cases hmount
            exact hheld.insert hid hcached hins
          next =>
            cases hmount
            exact hheld.drop.drop
      next =>
        cases hmount
        exact h.drop

theorem findFs_some {dev : DevNum} (h : (s.findFs dev).isSome) :
    ∃ m, some m ∈ s.table ∧ m.device = dev := by
  obtain ⟨fs, hfs⟩ := Option.isSome_iff_exists.mp h
  obtain ⟨slot, hmem, hslot⟩ := List.exists_of_findSome?_eq_some hfs
  obtain ⟨m, rfl, hm⟩ := Option.bind_eq_some_iff.mp hslot
  split at hm
  next heq => exact ⟨m, hmem, heq⟩
  next => cases hm

theorem Held.hasActiveInodes (h : Held s l) {m : MountEntry}
    (hm : some m ∈ s.table) : s.inodes.hasActiveInodes m.device := by
  obtain ⟨⟨i, hi⟩, hid⟩ := h.roots m hm
  have hpos := h.root_held hm
  apply List.any_eq_true.mpr
  refine ⟨i, List.mem_range.mpr (h.bound i _ hi).1, ?_⟩
  rw [hi, Option.any_some, hid]
  exact decide_eq_true ⟨rfl, Nat.ne_of_gt hpos⟩

/-- An unmount is refused: the table itself holds what it would have to be
free of. -/
theorem Held.umountDevice (h : Held s l) (dev : DevNum) :
    ∃ e, s.umountDevice dev = some (s, .error e) ∧
      (dev ≠ s.rootDev → (s.findFs dev).isSome → e = .busy) := by
  unfold MountSys.umountDevice
  split
  next => exact ⟨_, rfl, fun _ _ => rfl⟩
  next =>
    split
    next hnone =>
      refine ⟨_, rfl, fun _ hsome => ?_⟩
      rw [Option.isSome_iff_exists] at hsome
      obtain ⟨fs, hfs⟩ := hsome
      rw [hfs] at hnone
      cases hnone
    next hsome =>
      have hfs : (s.findFs dev).isSome := by
        cases hf : s.findFs dev with
        | none =>
          rw [hf] at hsome
          exact absurd rfl hsome
        | some fs => rfl
      obtain ⟨m, hm, rfl⟩ := findFs_some hfs
      rw [if_pos (h.hasActiveInodes hm)]
      exact ⟨_, rfl, fun _ _ => rfl⟩

-- ======== the runs

theorem syncSlot_shrinks (s : MountSys) (slot : Nat) :
    Shrinks s (s.syncSlot slot) := by
  unfold syncSlot
  split
  next => exact .refl s
  next a hslot =>
    split
    next =>
      obtain ⟨hslots, hnext, hheap⟩ := syncInode_shape s.inodes a
      refine ⟨⟨rfl, rfl⟩, hnext, fun b => (hheap b).1, fun b => (hheap b).2,
        ?_, ?_⟩
      · intro i b hi
        exact hslots ▸ hi
      · intro i b hi _
        exact hslots.symm ▸ hi
    next => exact .refl s

theorem syncInodes_shrinks (s : MountSys) : Shrinks s s.syncInodes := by
  unfold syncInodes
  generalize List.range inodeTableCapacity = slots
  induction slots generalizing s with
  | nil => exact .refl s
  | cons slot slots ih => exact (syncSlot_shrinks s slot).trans (ih _)

theorem Held.boot {disk : MinixDisk} {rootDev : DevNum}
    (h : MountSys.boot disk rootDev = some s) : Held s [] := by
  unfold MountSys.boot at h
  dsimp only at h
  split at h
  next => cases h
  next t root hacq =>
    have hstart : Held (⟨List.replicate MountTable.capacity none,
        ⟨disk, fun _ => none, 0,
          fun _ => ⟨⟨⟨0#16⟩, 0#16⟩, ⟨.zeroed, false, 0#32, 0#32⟩, 0⟩, 0⟩,
        fun _ => 0, rootDev⟩ : MountSys) [] := by
      refine ⟨nofun, nofun, fun a => ?_, fun m hm => ?_⟩
      · exact Nat.le_refl 0
      · cases List.eq_of_mem_replicate hm
    obtain ⟨hheld, -⟩ := hstart.acquireRaw hacq
    obtain ⟨hcached, hid⟩ := acquireRaw_cached hacq
    split at h
    next => cases h
    next t' hins =>
      cases h
      have hlt := hheld.lt_next
      have hmounted : Held t' [] := hheld.insert hid hcached hins
      have hnext : t'.inodes.next = t.inodes.next := by
        obtain ⟨slot, -, rfl⟩ := insert_some hins
        rfl
      have hlt' : root < t'.inodes.next := by omega
      exact ((hmounted.clone hlt').clone hlt').tail.tail

theorem Held.onDisk (h : Held s l) (disk : MinixDisk) :
    Held { s with inodes := { s.inodes with disk := disk } } l :=
  ⟨h.bound, h.alive, h.refs, h.roots⟩

theorem Held.allocInode (h : Held s l) {inode : DiskInode} {now : BitVec 32}
    (halloc : s.allocInode id inode now = some (s', a)) :
    Held s' (a :: l) := by
  unfold MountSys.allocInode at halloc
  split at halloc
  next => cases halloc
  next fs _ =>
    split at halloc
    next => cases halloc
    next =>
      obtain ⟨⟨t, b⟩, hacq, heq⟩ := Option.map_eq_some_iff.mp halloc
      cases heq
      obtain ⟨hheld, -⟩ := (h.onDisk _).acquireRaw hacq
      exact hheld.shrinks (setInner_shrinks ..)

/-- No unmount succeeds: what is mounted holds its own root. -/
theorem Held.sysUmount (h : Held s []) {name : PathLookup}
    {r : Except MountErrno Unit} (humount : s.sysUmount name = some (s', r)) :
    Held s' [] ∧ r ≠ .ok () := by
  unfold MountSys.sysUmount at humount
  split at humount
  next => cases humount
  next t hres =>
    cases humount
    exact ⟨(h.resolvePath hres).1, nofun⟩
  next t devInode hres =>
    have hheld := (h.resolvePath hres).1
    split at humount
    next => cases humount
    next =>
      split at humount
      next =>
        cases humount
        exact ⟨hheld.drop, nofun⟩
      next =>
        obtain ⟨e, he, -⟩ := hheld.drop.umountDevice (t.deviceNumber devInode)
        rw [he] at humount
        cases humount
        exact ⟨hheld.drop, nofun⟩

/-- After every call each handle is held by the table or by nobody. -/
theorem Held.step (h : Held s []) {op : MountOp} {r : Except MountErrno Unit}
    (hstep : s.step op = some (s', r)) : Held s' [] := by
  cases op with
  | resolve id =>
    obtain ⟨⟨t, a⟩, hres, heq⟩ := Option.map_eq_some_iff.mp hstep
    cases heq
    exact (Held.resolveInodeLoop _ h hres).1.tail
  | clone a =>
    simp only [MountSys.step] at hstep
    split at hstep
    next => cases hstep
    next ha =>
      cases hstep
      exact (h.clone (h.of_taskHandles ha).lt_next).tail
  | drop a =>
    simp only [MountSys.step] at hstep
    split at hstep
    next => cases hstep
    next ha =>
      cases hstep
      exact (h.of_taskHandles ha).drop
  | write a inode accessTime changeTime =>
    simp only [MountSys.step] at hstep
    split at hstep
    next => cases hstep
    next =>
      cases hstep
      exact h.shrinks (setInner_shrinks ..)
  | alloc id inode now =>
    obtain ⟨⟨t, a⟩, halloc, heq⟩ := Option.map_eq_some_iff.mp hstep
    cases heq
    exact (h.allocInode halloc).tail
  | sync =>
    cases hstep
    exact h.shrinks (syncInodes_shrinks s)
  | mount devName dirName opens =>
    simp only [MountSys.step, MountSys.sysMount] at hstep
    split at hstep
    next => cases hstep
    next t e harg =>
      cases hstep
      obtain ⟨-, ⟨_, -, hheld⟩ | ⟨_, _, heq, -⟩⟩ := h.mountArguments harg
      · exact hheld
      · cases heq
    next t dev dir harg =>
      obtain ⟨-, ⟨_, heq, -⟩ | ⟨_, _, heq, hheld⟩⟩ := h.mountArguments harg
      · cases heq
      · cases heq
        exact hheld.mountOn hstep
  | umount devName => exact (h.sysUmount hstep).1

theorem Held.exec {disk : MinixDisk} {rootDev : DevNum} {s₀ : MountSys}
    {ops : List MountOp} {rs : List (Except MountErrno Unit)}
    (hboot : MountSys.boot disk rootDev = some s₀)
    (hrun : Lib.exec MountSys.step s₀ ops = some (s, rs)) : Held s [] :=
  (exec_invariant (I := fun s => Held s []) (Q := fun _ => True)
    (fun _ _ _ _ h hstep => ⟨h.step hstep, trivial⟩) (Held.boot hboot) hrun).1

-- ======== the results

/-- A mounted device none of whose inodes is in use, apart from the handle
that its own mount entry keeps to its root. -/
structure Idle (s : MountSys) (m : MountEntry) : Prop where
  mounted : some m ∈ s.table
  unused : ∀ a < s.inodes.next, (s.inodes.heap a).id.device = m.device →
    (s.inodes.heap a).handles = if a = m.rootInode then 1 else 0

/-- `sys_umount` succeeds, the entry is gone, and nothing covers its mount
point. -/
def UmountUndoes (s : MountSys) (name : PathLookup) (m : MountEntry) : Prop :=
  ∃ s', s.sysUmount name = some (s', .ok ()) ∧ some m ∉ s'.table ∧
    ∀ p, m.mountPointInode = some p →
      s'.mountedRootAt (s.inodes.heap p).id = none

end MountSys

/-- In every state that a run reaches, a device other than the root device
that is mounted and idle cannot be unmounted: no name makes `sys_umount`
succeed, and a name of its block special file makes it answer `EBUSY`
with the mount table as it was. The handle that the mount entry itself
keeps to the root makes `has_active_inodes` true. -/
theorem umount_never_undoes_mount {disk : MinixDisk} {rootDev : DevNum}
    {s₀ s : MountSys} {ops : List MountOp} {rs : List (Except MountErrno Unit)}
    (hboot : MountSys.boot disk rootDev = some s₀)
    (hrun : exec MountSys.step s₀ ops = some (s, rs))
    {m : MountEntry} (hidle : s.Idle m) (hroot : m.device ≠ s.rootDev)
    (name : PathLookup) : ¬ s.UmountUndoes name m ∧
      ∀ s₁ a, s.resolvePath name = some (s₁, some a) →
        s₁.fileType a = some .blockDevice → s₁.deviceNumber a = m.device →
        ∃ s', s.sysUmount name = some (s', .error .busy) ∧
          s'.table = s.table := by
  have hheld := MountSys.Held.exec hboot hrun
  constructor
  · intro h
    obtain ⟨s', humount, -, -⟩ := h
    exact (hheld.sysUmount humount).2 rfl
  · intro s₁ a hres htype hdev
    obtain ⟨hheld₁, htable, hrootDev⟩ := hheld.resolvePath hres
    obtain ⟨e, he, hbusy⟩ := hheld₁.drop.umountDevice m.device
    have hmounted : ((s₁.drop a).findFs m.device).isSome := by
      show (List.findSome? _ s₁.table).isSome
      rw [htable]
      apply List.findSome?_isSome_iff.mpr
      refine ⟨some m, hidle.mounted, ?_⟩
      rw [Option.bind_some, if_pos rfl]
      rfl
    obtain rfl := hbusy (fun heq => hroot (heq.trans hrootDev)) hmounted
    refine ⟨s₁.drop a, ?_, htable⟩
    rw [MountSys.sysUmount, hres]
    dsimp only
    rw [htype]
    dsimp only
    rw [if_neg (fun hne => hne rfl), hdev, he]

/-- A disk of directories and, as inodes 2 to 15, block special files for
devices of the hard disk. -/
def MinixDisk.nodes : MinixDisk where
  inodeBitmap _ := true
  inode id :=
    if id.inodeNumber.toNat < 2 ∨ 16 ≤ id.inodeNumber.toNat then
      { DiskInode.zeroed with fileType := some .directory, linkCount := 1#8 }
    else
      { DiskInode.zeroed with
        fileType := some .blockDevice
        linkCount := 1#8
        directZones := [0x300#16 + id.inodeNumber] }
  zoneBitmap _ _ := true
  indirect _ _ := []

def PathLookup.inRoot (n : Nat) : PathLookup :=
  ⟨0, [⟨⟨0x301#16⟩, BitVec.ofNat 16 n⟩], true, 5#32⟩

/-- Mounting the device of a special file on the directory with the number
16 above it. -/
def MountOp.mountNode (n : Nat) : MountOp :=
  .mount (.inRoot n) (.inRoot (n + 16)) true

def MountSys.after (ops : List MountOp) :
    Option (MountSys × List (Except MountErrno Unit)) :=
  (MountSys.boot .nodes ⟨0x301#16⟩).bind fun s => exec MountSys.step s ops

theorem MountSys.after_state (ops : List MountOp) {P : MountSys → Prop}
    [DecidablePred P]
    (h : ((MountSys.after ops).map fun r => decide (P r.1)) = some true) :
    ∃ s₀ s rs, MountSys.boot .nodes ⟨0x301#16⟩ = some s₀ ∧
      exec MountSys.step s₀ ops = some (s, rs) ∧ P s := by
  obtain ⟨⟨s, rs⟩, hafter, hP⟩ := Option.map_eq_some_iff.mp h
  obtain ⟨s₀, hboot, hrun⟩ := Option.bind_eq_some_iff.mp hafter
  exact ⟨s₀, s, rs, hboot, hrun, of_decide_eq_true hP⟩

def MountEntry.second : MountEntry := ⟨⟨0x302#16⟩, 2, 3, some 2⟩

/-- Device 0x302 is mounted, nothing else is done, and it cannot be
unmounted. -/
theorem umount_never_undoes_mount_second :
    ∃ s₀ s rs, MountSys.boot .nodes ⟨0x301#16⟩ = some s₀ ∧
      exec MountSys.step s₀ [.mountNode 2] = some (s, rs) ∧
      s.Idle .second ∧ ¬ s.UmountUndoes (.inRoot 2) .second := by
  obtain ⟨s₀, s, rs, hboot, hrun, hmem, hunused, hroot⟩ :=
    MountSys.after_state [.mountNode 2] (P := fun s => some .second ∈ s.table ∧
        (∀ a < s.inodes.next,
          (s.inodes.heap a).id.device = MountEntry.second.device →
          (s.inodes.heap a).handles
            = if a = MountEntry.second.rootInode then 1 else 0) ∧
        MountEntry.second.device ≠ s.rootDev) (by decide)
  have hidle : s.Idle .second := ⟨hmem, hunused⟩
  exact ⟨s₀, s, rs, hboot, hrun, hidle,
    (umount_never_undoes_mount hboot hrun hidle hroot _).1⟩

/-- There `sys_umount` is called with the special file of the device and
fails. -/
theorem umount_idle_device_busy :
    ∃ s₀ s rs, MountSys.boot .nodes ⟨0x301#16⟩ = some s₀ ∧
      exec MountSys.step s₀ [.mountNode 2] = some (s, rs) ∧
      s.Idle .second ∧ MountEntry.second.device ≠ s.rootDev ∧
      ((s.sysUmount (.inRoot 2)).map fun r => r.2.isOk) = some false ∧
      ¬ s.UmountUndoes (.inRoot 2) .second := by
  obtain ⟨s₀, s, rs, hboot, hrun, hmem, hunused, hroot, hbusy⟩ :=
    MountSys.after_state [.mountNode 2] (P := fun s => some .second ∈ s.table ∧
        (∀ a < s.inodes.next,
          (s.inodes.heap a).id.device = MountEntry.second.device →
          (s.inodes.heap a).handles
            = if a = MountEntry.second.rootInode then 1 else 0) ∧
        MountEntry.second.device ≠ s.rootDev ∧
        ((s.sysUmount (.inRoot 2)).map fun r => r.2.isOk) = some false)
      (by decide)
  refine ⟨s₀, s, rs, hboot, hrun, ⟨hmem, hunused⟩, hroot, hbusy, ?_⟩
  intro h
  obtain ⟨s', humount, -, -⟩ := h
  rw [humount] at hbusy
  cases hbusy

end LinuxRs.Fs
