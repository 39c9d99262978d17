/-
The mount table (kernel/src/fs/mount.rs), with the checks `sys_mount` and
`sys_umount` make before they change it (kernel/src/syscall/handler/fs/mount.rs).

# What keeps the crossing loop short

`resolve_inode` goes on from a covered inode to the root mounted on it
until it finds an uncovered one. A mounted root has inode number 1 and
`sys_mount` refuses to cover an inode with that number, so the loop
takes at most two turns; `MountTable.Ok` states this and what else the
two calls keep true, and `MountTable.Ok.resolveInode` is the only fact
about the loop that pathname resolution needs.
-/
import LinuxRs.Driver.Block

namespace LinuxRs.Fs

open LinuxRs.Driver (DevNum)

/-- A call that may panic, answer `None`, or answer something. -/
inductive Outcome (α : Type)
  | panic
  | absent
  | found (a : α)
  deriving DecidableEq

namespace Outcome

variable {α β : Type}

def bind : Outcome α → (α → Outcome β) → Outcome β
  | panic, _ => panic
  | absent, _ => absent
  | found a, f => f a

instance : Monad Outcome where
  pure := found
  bind := bind

def ofOption : Option α → Outcome α
  | none => absent
  | some a => found a

@[simp] theorem ofOption_none : ofOption (none : Option α) = absent := rfl

@[simp] theorem ofOption_some (a : α) : ofOption (some a) = found a := rfl

@[simp] theorem found_bind (a : α) (f : α → Outcome β) :
    (found a >>= f) = f a := rfl

@[simp] theorem absent_bind (f : α → Outcome β) :
    ((absent : Outcome α) >>= f) = absent := rfl

theorem ofOption_injective : Function.Injective (ofOption : Option α → _) := by
  intro a b h
  cases a <;> cases b <;> simp_all [ofOption]

end Outcome

-- ======== the table

abbrev InodeNumber := BitVec 16

def rootInodeNumber : InodeNumber := 1#16

structure InodeId where
  device : DevNum
  inodeNumber : InodeNumber
  deriving DecidableEq

/-- `Mount`; the file system is named by its device, inodes by their id. -/
structure Mount where
  device : DevNum
  rootInode : InodeId
  mountPointInode : Option InodeId

structure MountTable where
  slots : List (Option Mount)

namespace MountTable

def capacity : Nat := 8

def new : MountTable where
  slots := List.replicate capacity none

def insert (t : MountTable) (mount : Mount) : Option MountTable :=
  (t.slots.findIdx? Option.isNone).map fun slot =>
    ⟨t.slots.set slot (some mount)⟩

def findFs (t : MountTable) (dev : DevNum) : Option DevNum :=
  t.slots.findSome? fun slot => slot.bind fun mount =>
    if mount.device = dev then some mount.device else none

def mountedRootAt (t : MountTable) (id : InodeId) : Option InodeId :=
  t.slots.findSome? fun slot => slot.bind fun mount =>
    if mount.mountPointInode = some id then some mount.rootInode else none

def mountPointForRoot (t : MountTable) (id : InodeId) : Option InodeId :=
  t.slots.findSome? fun slot => slot.bind fun mount =>
    if mount.rootInode = id then mount.mountPointInode else none

def isMountPoint (t : MountTable) (id : InodeId) : Bool :=
  (t.mountedRootAt id).isSome

def resolveInodeLoop (t : MountTable) : Nat → InodeId → Outcome InodeId
  | 0, _ => .panic
  | turns + 1, id =>
    match t.findFs id.device with
    | none => .panic
    | some _ =>
      match t.mountedRootAt id with
      | none => .found id
      | some root => t.resolveInodeLoop turns root

/-- `resolve_inode`; a chain of mounts is not longer than the table. -/
def resolveInode (t : MountTable) (id : InodeId) : Outcome InodeId :=
  if id.device.raw = 0#16 then .panic
  else t.resolveInodeLoop (t.slots.length + 1) id

def cross (t : MountTable) (id : InodeId) : InodeId :=
  (t.mountedRootAt id).getD id

/-- The part of `sys_mount` that changes the table; `active` says that
`MinixFileSystem::open` succeeds. -/
def sysMount (t : MountTable) (dev : DevNum) (active : Bool) (dir : InodeId) :
    Option MountTable :=
  if dir.inodeNumber = rootInodeNumber then none
  else if (t.findFs dev).isSome then none
  else if t.isMountPoint dir then none
  else if active then t.insert ⟨dev, ⟨dev, rootInodeNumber⟩, some dir⟩
  else none

-- ======== its invariant

def Has (t : MountTable) (m : Mount) : Prop := some m ∈ t.slots

/-- What every table has: roots have number 1, a device is mounted once,
and a mount point is a non-root inode of another mounted device, covered
once. -/
structure Ok (t : MountTable) : Prop where
  root : ∀ m, t.Has m → m.rootInode = ⟨m.device, rootInodeNumber⟩
  device : ∀ m, t.Has m → m.device.raw ≠ 0#16
  once : ∀ m m', t.Has m → t.Has m' → m.device = m'.device → m = m'
  covered : ∀ m p, t.Has m → m.mountPointInode = some p →
    p.inodeNumber ≠ rootInodeNumber ∧ ∃ m', t.Has m' ∧ m'.device = p.device
  outside : ∀ m p, t.Has m → m.mountPointInode = some p → p.device ≠ m.device
  coveredOnce : ∀ m m' p, t.Has m → t.Has m' → m.mountPointInode = some p →
    m'.mountPointInode = some p → m = m'

theorem findSome_slots {α : Type} (t : MountTable) (f : Mount → Option α)
    {a : α} (h : t.slots.findSome? (fun slot => slot.bind f) = some a) :
    ∃ m, t.Has m ∧ f m = some a := by
  obtain ⟨slot, hmem, hslot⟩ := List.exists_of_findSome?_eq_some h
  obtain ⟨m, rfl, hm⟩ := Option.bind_eq_some_iff.mp hslot
  exact ⟨m, hmem, hm⟩

theorem findSome_slots_of_has {α : Type} (t : MountTable)
    (f : Mount → Option α) {m : Mount} {a : α} (hm : t.Has m)
    (hf : f m = some a) (hone : ∀ m' b, t.Has m' → f m' = some b → b = a) :
    t.slots.findSome? (fun slot => slot.bind f) = some a := by
  cases h : t.slots.findSome? (fun slot => slot.bind f) with
  | none =>
    have := List.findSome?_eq_none_iff.mp h (some m) hm
    simp only [Option.bind_some, hf] at this
    cases this
  | some b =>
    obtain ⟨m', hm', hf'⟩ := t.findSome_slots f h
    rw [hone m' b hm' hf']

theorem findFs_isSome_iff (t : MountTable) (dev : DevNum) :
    (t.findFs dev).isSome ↔ ∃ m, t.Has m ∧ m.device = dev := by
  constructor
  · intro h
    obtain ⟨d, hd⟩ := Option.isSome_iff_exists.mp h
    obtain ⟨m, hm, hf⟩ := t.findSome_slots _ hd
    split at hf
    next heq => exact ⟨m, hm, heq⟩
    next => cases hf
  · intro h
    obtain ⟨m, hm, rfl⟩ := h
    apply Option.isSome_iff_exists.mpr
    refine ⟨m.device, t.findSome_slots_of_has _ hm (if_pos rfl) ?_⟩
    intro m' b _ hf
    split at hf
    next heq => rw [← Option.some.inj hf, heq]
    next => cases hf

theorem Ok.mountedRootAt_iff {t : MountTable} (ht : t.Ok) {id r : InodeId} :
    t.mountedRootAt id = some r
      ↔ ∃ m, t.Has m ∧ m.mountPointInode = some id ∧ m.rootInode = r := by
  constructor
  · intro h
    obtain ⟨m, hm, hf⟩ := t.findSome_slots _ h
    split at hf
    next heq => exact ⟨m, hm, heq, Option.some.inj hf⟩
    next => cases hf
  · intro h
    obtain ⟨m, hm, hp, rfl⟩ := h
    apply t.findSome_slots_of_has _ hm (if_pos hp)
    intro m' b hm' hf
    split at hf
    next heq =>
        rw [← Option.some.inj hf, ht.coveredOnce m' m id hm' hm heq hp]
    next => cases hf

theorem Ok.mountPointForRoot_iff {t : MountTable} (ht : t.Ok)
    {id p : InodeId} : t.mountPointForRoot id = some p
      ↔ ∃ m, t.Has m ∧ m.rootInode = id ∧ m.mountPointInode = some p := by
  have hone : ∀ m m', t.Has m → t.Has m' → m.rootInode = m'.rootInode →
      m = m' := by
    intro m m' hm hm' heq
    rw [ht.root m hm, ht.root m' hm'] at heq
    exact ht.once m m' hm hm' (InodeId.mk.inj heq).1
  constructor
  · intro h
    obtain ⟨m, hm, hf⟩ := t.findSome_slots _ h
    split at hf
    next heq => exact ⟨m, hm, heq, hf⟩
    next => cases hf
  · intro h
    obtain ⟨m, hm, rfl, hp⟩ := h
    apply t.findSome_slots_of_has _ hm (by rw [if_pos rfl]; exact hp)
    intro m' b hm' hf
    split at hf
    next heq =>
        rw [hone m' m hm' hm heq, hp] at hf
        exact (Option.some.inj hf).symm
    next => cases hf

theorem Ok.mountPointForRoot_of_mountedRootAt {t : MountTable} (ht : t.Ok)
    {id r : InodeId} (h : t.mountedRootAt id = some r) :
    t.mountPointForRoot r = some id := by
  obtain ⟨m, hm, hp, hr⟩ := ht.mountedRootAt_iff.mp h
  exact ht.mountPointForRoot_iff.mpr ⟨m, hm, hr, hp⟩

theorem Ok.mountedRootAt_of_mountPointForRoot {t : MountTable} (ht : t.Ok)
    {id p : InodeId} (h : t.mountPointForRoot id = some p) :
    t.mountedRootAt p = some id := by
  obtain ⟨m, hm, hr, hp⟩ := ht.mountPointForRoot_iff.mp h
  exact ht.mountedRootAt_iff.mpr ⟨m, hm, hp, hr⟩

theorem Ok.root_uncovered {t : MountTable} (ht : t.Ok) {id : InodeId}
    (h : id.inodeNumber = rootInodeNumber) : t.mountedRootAt id = none := by
  cases hr : t.mountedRootAt id with
  | none => rfl
  | some r =>
    obtain ⟨m, hm, hp, -⟩ := ht.mountedRootAt_iff.mp hr
    exact absurd h (ht.covered m id hm hp).1

theorem Ok.number_of_mountedRootAt {t : MountTable} (ht : t.Ok)
    {id r : InodeId} (h : t.mountedRootAt id = some r) :
    r.inodeNumber = rootInodeNumber := by
  obtain ⟨m, hm, -, hr⟩ := ht.mountedRootAt_iff.mp h
  rw [← hr, ht.root m hm]

theorem Ok.cross_uncovered {t : MountTable} (ht : t.Ok) (id : InodeId) :
    t.mountedRootAt (t.cross id) = none := by
  unfold cross
  cases hr : t.mountedRootAt id with
  | none => exact hr
  | some r => exact ht.root_uncovered (ht.number_of_mountedRootAt hr)

theorem cross_of_uncovered {t : MountTable} {id : InodeId}
    (h : t.mountedRootAt id = none) : t.cross id = id := by
  rw [cross, h]
  rfl

/-- What is resolved is the inode, or the root mounted over it. -/
theorem Ok.resolveInode {t : MountTable} (ht : t.Ok) {id : InodeId}
    (hid : (t.findFs id.device).isSome) :
    t.resolveInode id = .found (t.cross id) := by
  obtain ⟨m, hm, hdev⟩ := (t.findFs_isSome_iff _).mp hid
  obtain ⟨d, hd⟩ := Option.isSome_iff_exists.mp hid
  have hzero : id.device.raw ≠ 0#16 := by
    rw [← hdev]
    exact ht.device m hm
  rw [MountTable.resolveInode, if_neg hzero, resolveInodeLoop, hd]
  cases hr : t.mountedRootAt id with
  | none => rw [cross_of_uncovered hr]
  | some r =>
    obtain ⟨m', hm', -, hroot⟩ := ht.mountedRootAt_iff.mp hr
    have hlen : t.slots.length = (t.slots.length - 1) + 1 := by
      have := List.length_pos_of_mem hm'
      omega
    have hdev' : (t.findFs r.device).isSome := by
      apply (t.findFs_isSome_iff _).mpr
      exact ⟨m', hm', by rw [← hroot, ht.root m' hm']⟩
    obtain ⟨d', hd'⟩ := Option.isSome_iff_exists.mp hdev'
    have hfree := ht.root_uncovered (ht.number_of_mountedRootAt hr)
    dsimp only
    rw [hlen, resolveInodeLoop, hd', hfree, cross, hr]
    rfl

theorem Ok.cross_mounted {t : MountTable} (ht : t.Ok) {id : InodeId}
    (hid : (t.findFs id.device).isSome) :
    (t.findFs (t.cross id).device).isSome := by
  unfold cross
  cases hr : t.mountedRootAt id with
  | none => exact hid
  | some r =>
    obtain ⟨m, hm, -, hroot⟩ := ht.mountedRootAt_iff.mp hr
    apply (t.findFs_isSome_iff _).mpr
    exact ⟨m, hm, by rw [Option.getD_some, ← hroot, ht.root m hm]⟩

-- ======== it is kept

theorem has_of_insert {t t' : MountTable} {mount m : Mount}
    (h : t.insert mount = some t') : t'.Has m ↔ m = mount ∨ t.Has m := by
  obtain ⟨i, hi, rfl⟩ := Option.map_eq_some_iff.mp h
  obtain ⟨hlt, hnone, -⟩ := List.findIdx?_eq_some_iff_getElem.mp hi
  unfold Has
  rw [List.mem_iff_getElem?, List.mem_iff_getElem?]
  constructor
  · intro hmem
    obtain ⟨j, hj⟩ := hmem
    rw [List.getElem?_set] at hj
    split at hj
    next => exact .inl (Option.some.inj (Option.some.inj hj)).symm
    next => exact .inr ⟨j, hj⟩
  · intro hmem
    rcases hmem with rfl | ⟨j, hj⟩
    · exact ⟨i, by simp [hlt]⟩
    · refine ⟨j, ?_⟩
      rw [List.getElem?_set_ne, hj]
      intro heq
      subst heq
      rw [List.getElem?_eq_getElem hlt, Option.some.injEq] at hj
      rw [hj] at hnone
      cases hnone

/-- A mount adds one device over one directory. -/
theorem Ok.sysMount {t t' : MountTable} (ht : t.Ok) {dev : DevNum}
    (hdev : dev.raw ≠ 0#16) {active : Bool} {dir : InodeId}
    (hdir : (t.findFs dir.device).isSome)
    (h : t.sysMount dev active dir = some t') : t'.Ok := by
  unfold MountTable.sysMount at h
  split at h
  next => cases h
  next hnum =>
    split at h
    next => cases h
    next hfree =>
      split at h
      next => cases h
      next hpoint =>
        split at h
        next =>
          have hnew : ∀ m, t.Has m → m.device ≠ dev := fun m hm heq =>
            hfree ((t.findFs_isSome_iff dev).mpr ⟨m, hm, heq⟩)
          have hun : ∀ m, t.Has m → m.mountPointInode ≠ some dir := by
            intro m hm heq
            apply hpoint
            rw [isMountPoint, ht.mountedRootAt_iff.mpr ⟨m, hm, heq, rfl⟩]
            rfl
          obtain ⟨m₀, hm₀, hd₀⟩ := (t.findFs_isSome_iff _).mp hdir
          constructor
          case root =>
            intro m hm
            rcases (has_of_insert h).mp hm with rfl | hm
            · rfl
            · exact ht.root m hm
          case device =>
            intro m hm
            rcases (has_of_insert h).mp hm with rfl | hm
            · exact hdev
            · exact ht.device m hm
          case once =>
            intro m m' hm hm' heq
            rcases (has_of_insert h).mp hm with rfl | hm
            · rcases (has_of_insert h).mp hm' with rfl | hm'
              · rfl
              · exact absurd heq.symm (hnew m' hm')
            · rcases (has_of_insert h).mp hm' with rfl | hm'
              · exact absurd heq (hnew m hm)
              · exact ht.once m m' hm hm' heq
          case covered =>
            intro m p hm hp
            rcases (has_of_insert h).mp hm with rfl | hm
            · cases hp
              exact ⟨hnum, m₀, (has_of_insert h).mpr (.inr hm₀), hd₀⟩
            · obtain ⟨hne, m', hm', hd'⟩ := ht.covered m p hm hp
              exact ⟨hne, m', (has_of_insert h).mpr (.inr hm'), hd'⟩
          case outside =>
            intro m p hm hp
            rcases (has_of_insert h).mp hm with rfl | hm
            · cases hp
              exact hd₀ ▸ hnew m₀ hm₀
            · exact ht.outside m p hm hp
          case coveredOnce =>
            intro m m' p hm hm' hp hp'
            rcases (has_of_insert h).mp hm with rfl | hm
            · rcases (has_of_insert h).mp hm' with rfl | hm'
              · rfl
              · exact absurd (hp'.trans hp.symm) (hun m' hm')
            · rcases (has_of_insert h).mp hm' with rfl | hm'
              · exact absurd (hp.trans hp'.symm) (hun m hm)
              · exact ht.coveredOnce m m' p hm hm' hp hp'
        next => cases h

end MountTable

end LinuxRs.Fs
