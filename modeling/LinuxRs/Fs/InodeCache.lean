/-
The inode table is a faithful cache: one object for each inode, nothing
lost between eviction and the next acquire, and every inode without links
freed once.

# What is followed

`current` is the inode state as a reader of the table sees it: the cached
object's, or the disk's. The events a step tells are all that changes it
(`Tells`), and what `acquire_raw` hands out is `current` at that moment.
Flushing slots is the only way an object leaves the table; `Flushed` says
what one flush does, and everything about eviction is read off it.

# What is not kept

Access and change times have no place in a disk inode, so they are lost
with the object. And `acquire_raw` does not ask the bitmap: a number that
is free is cached like any other, and may then be allocated while it is
cached. `Allocated` rules that out; directories of a consistent file
system name allocated inodes only.
-/
import LinuxRs.Fs.InodeTable

namespace LinuxRs.Fs

open Function (update update_self update_of_ne update_eq_self)

open LinuxRs.Lib
open LinuxRs.Driver (DevNum)

-- ======== freeing zones

namespace MinixDisk

variable {disk disk' disk'' : MinixDisk} {dev : DevNum} {zs zs' : List Zone}

/-- These zones are free now, and nothing else on the disk differs. -/
structure Frees (disk disk' : MinixDisk) (dev : DevNum) (zs : List Zone) :
    Prop where
  inodeBitmap : disk'.inodeBitmap = disk.inodeBitmap
  inode : disk'.inode = disk.inode
  indirect : disk'.indirect = disk.indirect
  zoneBitmap : ∀ d z, disk'.zoneBitmap d z
    = if d = dev ∧ z ∈ zs then false else disk.zoneBitmap d z

theorem Frees.refl (disk : MinixDisk) (dev : DevNum) :
    Frees disk disk dev [] := by
  refine ⟨rfl, rfl, rfl, fun d z => ?_⟩
  rw [if_neg]
  simp

theorem Frees.trans (h : Frees disk disk' dev zs)
    (h' : Frees disk' disk'' dev zs') : Frees disk disk'' dev (zs ++ zs') := by
  refine ⟨h'.inodeBitmap.trans h.inodeBitmap, h'.inode.trans h.inode,
    h'.indirect.trans h.indirect, fun d z => ?_⟩
  rw [h'.zoneBitmap, h.zoneBitmap]
  simp only [List.mem_append]
  by_cases hd : d = dev
  · by_cases hz : z ∈ zs
    · simp [hd, hz]
    · simp [hd, hz]
  · simp [hd]

theorem treeZones_congr (h : disk'.indirect = disk.indirect) (levels : Nat)
    (zone : Zone) :
    disk'.treeZones dev levels zone = disk.treeZones dev levels zone := by
  induction levels generalizing zone with
  | zero => rfl
  | succ levels ih =>
    unfold treeZones
    rw [h, funext ih]

theorem freeZone_frees (disk : MinixDisk) (dev : DevNum) (zone : Zone) :
    Frees disk (disk.freeZone dev zone) dev (disk.treeZones dev 0 zone) := by
  unfold freeZone treeZones
  split
  next => exact .refl disk dev
  next => exact ⟨rfl, rfl, rfl, fun d z => by simp⟩

theorem foldl_frees {free : MinixDisk → Zone → MinixDisk} {levels : Nat}
    (hfree : ∀ disk zone,
      Frees disk (free disk zone) dev (disk.treeZones dev levels zone))
    (disk : MinixDisk) (l : List Zone) :
    Frees disk (l.foldl free disk) dev
      (l.flatMap (disk.treeZones dev levels)) := by
  induction l generalizing disk with
  | nil => exact .refl disk dev
  | cons zone l ih =>
    have hone := hfree disk zone
    have hrest := ih (free disk zone)
    rw [funext (treeZones_congr hone.indirect levels)] at hrest
    exact hone.trans hrest

theorem freeZoneTree_frees (levels : Nat) (disk : MinixDisk) (zone : Zone) :
    Frees disk (freeZoneTree dev levels disk zone) dev
      (disk.treeZones dev levels zone) := by
  induction levels generalizing disk zone with
  | zero => exact freeZone_frees disk dev zone
  | succ levels ih =>
    unfold freeZoneTree treeZones
    split
    next => exact .refl disk dev
    next hz =>
      have hkids := foldl_frees ih disk (disk.indirect dev zone)
      have hself := freeZone_frees
        ((disk.indirect dev zone).foldl (freeZoneTree dev levels) disk) dev
        zone
      have hall := hkids.trans hself
      unfold treeZones at hall
      rw [if_neg hz] at hall
      exact hall

/-- Truncating frees the zones of the inode and no other. -/
theorem truncate_frees {inode : DiskInode}
    (h : disk.truncate dev inode = some disk') :
    Frees disk disk' dev (disk.zonesOf dev inode) := by
  unfold truncate at h
  split at h
  next => cases h
  next fileType htype =>
    unfold zonesOf
    rw [htype]
    simp only [Option.some.injEq]
    split at h
    next hdata =>
      rw [if_pos hdata]
      cases h
      have hdirect : Frees disk _ dev _ :=
        foldl_frees (freeZoneTree_frees 0) disk inode.directZones
      have hsingle := hdirect.trans
        (freeZoneTree_frees 1 _ inode.singleIndirectZone)
      have hdouble := hsingle.trans
        (freeZoneTree_frees 2 _ inode.doubleIndirectZone)
      rw [treeZones_congr hdirect.indirect, treeZones_congr hsingle.indirect]
        at hdouble
      exact hdouble
    next hspecial =>
      rw [if_neg hspecial]
      cases h
      exact .refl disk dev

end MinixDisk

-- ======== the invariant

namespace InodeSys

variable {s s' : InodeSys} {es : List InodeEvent} {slot a : Nat} {id : InodeId}

def Cached (s : InodeSys) (id : InodeId) : Prop :=
  ∃ i a, s.slots i = some a ∧ (s.heap a).id = id

/-- One object for each inode, in slots of the table; every handle is to a
cached object; a cached inode has its number allocated; and a clean object
agrees with the disk. -/
structure Ok (s : InodeSys) : Prop where
  bound : ∀ i a, s.slots i = some a → i < inodeTableCapacity ∧ a < s.next
  unique : ∀ i j a b, s.slots i = some a → s.slots j = some b →
    (s.heap a).id = (s.heap b).id → i = j
  held : ∀ a, 0 < (s.heap a).handles → ∃ i, s.slots i = some a
  used : ∀ i a, s.slots i = some a → s.disk.inodeBitmap (s.heap a).id = true
  clean : ∀ i a, s.slots i = some a → (s.heap a).inner.isDirty = false →
    s.disk.inode (s.heap a).id = (s.heap a).inner.diskInode

def current (s : InodeSys) (id : InodeId) : DiskInode :=
  match s.lookup id with
  | some a => (s.heap a).inner.diskInode
  | none => s.disk.inode id

theorem lookup_some (h : s.lookup id = some a) :
    ∃ i, s.slots i = some a ∧ (s.heap a).id = id := by
  obtain ⟨i, -, hi⟩ := List.exists_of_findSome?_eq_some h
  obtain ⟨b, hb, hif⟩ := Option.bind_eq_some_iff.mp hi
  split at hif
  next hid =>
    cases hif
    exact ⟨i, hb, hid⟩
  next => cases hif

theorem Ok.lookup_none (h : s.Ok) (hnone : s.lookup id = none) :
    ¬ s.Cached id := by
  intro ⟨i, a, hi, hid⟩
  have hall := List.findSome?_eq_none_iff.mp hnone i
    (List.mem_range.mpr (h.bound i a hi).1)
  rw [hi, Option.bind_some, if_pos hid] at hall
  cases hall

theorem Ok.current_cached (h : s.Ok) (hi : s.slots slot = some a) :
    s.current (s.heap a).id = (s.heap a).inner.diskInode := by
  unfold current
  cases hl : s.lookup (s.heap a).id with
  | none => exact absurd ⟨slot, a, hi, rfl⟩ (h.lookup_none hl)
  | some b =>
    obtain ⟨j, hj, hid⟩ := lookup_some hl
    obtain rfl := h.unique j slot b a hj hi hid
    rw [hi] at hj
    cases hj
    rfl

theorem current_uncached (h : ¬ s.Cached id) :
    s.current id = s.disk.inode id := by
  unfold current
  cases hl : s.lookup id with
  | none => rfl
  | some b =>
    obtain ⟨j, hj, hid⟩ := lookup_some hl
    exact absurd ⟨j, b, hj, hid⟩ h

theorem Ok.current_congr (h : s.Ok) (h' : s'.Ok)
    (hcached : ∀ i a, s.slots i = some a → (s.heap a).id = id →
      s'.Cached id ∧ ∀ j b, s'.slots j = some b → (s'.heap b).id = id →
        (s'.heap b).inner.diskInode = (s.heap a).inner.diskInode)
    (huncached : ¬ s.Cached id → ¬ s'.Cached id ∧
      s'.disk.inode id = s.disk.inode id) :
    s'.current id = s.current id := by
  by_cases hc : s.Cached id
  · obtain ⟨i, a, hi, rfl⟩ := hc
    obtain ⟨⟨j, b, hj, hid⟩, hsame⟩ := hcached i a hi rfl
    rw [h.current_cached hi, ← hid, h'.current_cached hj]
    exact hsame j b hj hid
  · obtain ⟨hc', hdisk⟩ := huncached hc
    rw [current_uncached hc, current_uncached hc', hdisk]

end InodeSys

-- ======== the events

namespace InodeEvent

def apply (m : InodeId → DiskInode) : InodeEvent → InodeId → DiskInode
  | .handed _ _ _ => m
  | .wrote id inode => update m id inode
  | .allocated id => update m id .zeroed
  | .freed id _ => update m id .zeroed

/-- The events lead from one state of the inodes to the other, and every
handle is given out with the state of its moment. -/
def Tells (m : InodeId → DiskInode) :
    List InodeEvent → (InodeId → DiskInode) → Prop
  | [], m' => m' = m
  | e :: es, m' =>
    (∀ a id inner, e = .handed a id inner → inner.diskInode = m id) ∧
      Tells (e.apply m) es m'

theorem Tells.append {m m₁ m₂ : InodeId → DiskInode} {es fs : List InodeEvent}
    (h : Tells m es m₁) (h' : Tells m₁ fs m₂) : Tells m (es ++ fs) m₂ := by
  induction es generalizing m with
  | nil =>
    obtain rfl := h
    exact h'
  | cons e es ih => exact ⟨h.1, ih h.2⟩

def frees (id : InodeId) : InodeEvent → Bool
  | .freed x _ => x = id
  | _ => false

def allocates (id : InodeId) : InodeEvent → Bool
  | .allocated x => x = id
  | _ => false

def freesZone (dev : DevNum) (z : Zone) : InodeEvent → Bool
  | .freed id zones => id.device = dev ∧ z ∈ zones
  | _ => false

def plain : InodeEvent → Bool
  | .handed _ _ _ => true
  | .wrote _ _ => true
  | _ => false

theorem frees_of_plain {e : InodeEvent} (h : e.plain) (id : InodeId) :
    e.frees id = false ∧ e.allocates id = false := by
  cases e <;> first | exact ⟨rfl, rfl⟩ | cases h

theorem freesZone_of_plain {e : InodeEvent} (h : e.plain) (dev : DevNum)
    (z : Zone) : e.freesZone dev z = false := by
  cases e <;> first | rfl | cases h

end InodeEvent

-- ======== what a step does

namespace InodeSys

open InodeEvent

variable {s s' s'' : InodeSys} {es fs : List InodeEvent} {slot a : Nat}
  {id : InodeId} {c : CachedInode}

/-- What a step of the table must do. An object with handles stays in its
slot; the events tell how the inodes change; a number is freed with its
zones exactly when its object leaves the table without links, and no
number is freed that is not in use; and an allocated number was not
cached. -/
structure Sound (s : InodeSys) (es : List InodeEvent) (s' : InodeSys) :
    Prop where
  held : ∀ i a, s.slots i = some a → 0 < (s.heap a).handles →
    s'.slots i = some a ∧ (s'.heap a).id = (s.heap a).id
  tells : Tells s.current es s'.current
  evicted : ∀ id zs, .freed id zs ∈ es → ∃ i a, s.slots i = some a ∧
    s'.slots i ≠ some a ∧ (s.heap a).id = id ∧
    (s.heap a).inner.diskInode.linkCount = 0#8 ∧
    zs = s.disk.zonesOf id.device (s.heap a).inner.diskInode
  reclaimed : ∀ i a, s.slots i = some a → s'.slots i ≠ some a →
    (s.heap a).inner.diskInode.linkCount = 0#8 →
    .freed (s.heap a).id (s.disk.zonesOf (s.heap a).id.device
      (s.heap a).inner.diskInode) ∈ es
  account : ∀ id, es.countP (frees id) + (s'.disk.inodeBitmap id).toNat
      = es.countP (allocates id) + (s.disk.inodeBitmap id).toNat
  zones : ∀ dev z, s'.disk.zoneBitmap dev z
    = (s.disk.zoneBitmap dev z && !es.any (freesZone dev z))
  fresh : ∀ id, .allocated id ∈ es → ¬ s.Cached id

/-- A part of a step that allocates nothing. Parts compose: objects that
nobody holds are as they were, and no object comes back. -/
structure Flow (s : InodeSys) (es : List InodeEvent) (s' : InodeSys) :
    Prop extends Sound s es s' where
  ok : s'.Ok
  next : s.next ≤ s'.next
  indirect : s'.disk.indirect = s.disk.indirect
  new : ∀ i a, s'.slots i = some a → s.slots i = some a ∨ s.next ≤ a
  idle : ∀ i a, s'.slots i = some a → (s'.heap a).handles = 0 →
    s.slots i = some a ∧ (s.heap a).id = (s'.heap a).id ∧
    (s.heap a).inner.diskInode = (s'.heap a).inner.diskInode
  kept : ∀ i a, s.slots i = some a → 0 < (s.heap a).handles →
    0 < (s'.heap a).handles
  quiet : ∀ id, .allocated id ∉ es

theorem Sound.unheld (h : Sound s es s') (hi : s.slots slot = some a)
    (hgone : s'.slots slot ≠ some a) : (s.heap a).handles = 0 := by
  by_contra hne
  exact hgone (h.held slot a hi (Nat.pos_of_ne_zero hne)).1

theorem Flow.gone (h : Flow s es s') (hlt : a < s.next)
    (hi : s.slots slot ≠ some a) : s'.slots slot ≠ some a := by
  intro hi'
  rcases h.new slot a hi' with hold | hnew
  · exact hi hold
  · omega

theorem zonesOf_congr {disk disk' : MinixDisk}
    (h : disk'.indirect = disk.indirect) (dev : DevNum) (inode : DiskInode) :
    disk'.zonesOf dev inode = disk.zonesOf dev inode := by
  unfold MinixDisk.zonesOf
  rw [funext (MinixDisk.treeZones_congr h 0),
    funext (MinixDisk.treeZones_congr h 1),
    funext (MinixDisk.treeZones_congr h 2)]

/-- What was told in two runs is told in both. -/
theorem Flow.trans (h : Flow s es s') (h' : Flow s' fs s'') (hok : s.Ok) :
    Flow s (es ++ fs) s'' := by
  -- what the second part evicts was idle in the first
  have hback : ∀ i a, s'.slots i = some a → s''.slots i ≠ some a →
      s.slots i = some a ∧ (s.heap a).id = (s'.heap a).id ∧
        (s.heap a).inner.diskInode = (s'.heap a).inner.diskInode :=
    fun i a hi hgone => h.idle i a hi (h'.unheld hi hgone)
  refine
    { held := ?_, tells := h.tells.append h'.tells, evicted := ?_,
      reclaimed := ?_, account := ?_, zones := ?_, fresh := ?_, ok := h'.ok,
      next := h.next.trans h'.next,
      indirect := h'.indirect.trans h.indirect, new := ?_, idle := ?_,
      kept := ?_, quiet := ?_ }
  · intro i a hi hpos
    obtain ⟨hi', hid⟩ := h.held i a hi hpos
    obtain ⟨hi'', hid'⟩ := h'.held i a hi' (h.kept i a hi hpos)
    exact ⟨hi'', hid'.trans hid⟩
  · intro id zs hmem
    rcases List.mem_append.mp hmem with hmem | hmem
    · obtain ⟨i, a, hi, hgone, hrest⟩ := h.evicted id zs hmem
      exact ⟨i, a, hi, h'.gone
        (lt_of_lt_of_le (hok.bound i a hi).2 h.next) hgone, hrest⟩
    · obtain ⟨i, a, hi, hgone, hid, hlink, hzs⟩ := h'.evicted id zs hmem
      obtain ⟨hi₀, hid₀, hinode⟩ := hback i a hi hgone
      refine ⟨i, a, hi₀, hgone, hid₀.trans hid, ?_, ?_⟩
      · rw [hinode]
        exact hlink
      · rw [hzs, hinode, zonesOf_congr h.indirect]
  · intro i a hi hgone hlink
    by_cases hi' : s'.slots i = some a
    · obtain ⟨-, hid, hinode⟩ := hback i a hi' hgone
      have hfreed := h'.reclaimed i a hi' hgone (hinode ▸ hlink)
      rw [zonesOf_congr h.indirect, ← hid, ← hinode] at hfreed
      exact List.mem_append_right es hfreed
    · exact List.mem_append_left fs (h.reclaimed i a hi hi' hlink)
  · intro id
    have h₁ := h.account id
    have h₂ := h'.account id
    rw [List.countP_append, List.countP_append]
    omega
  · intro dev z
    rw [h'.zones, h.zones, List.any_append, Bool.not_or, Bool.and_assoc]
  · intro id hmem
    rcases List.mem_append.mp hmem with hmem | hmem
    · exact h.fresh id hmem
    · exact absurd hmem (h'.quiet id)
  · intro i a hi
    rcases h'.new i a hi with hold | hnew
    · exact h.new i a hold
    · exact .inr (h.next.trans hnew)
  · intro i a hi hzero
    obtain ⟨hi', hid', hinode'⟩ := h'.idle i a hi hzero
    have hzero' : (s'.heap a).handles = 0 := by
      by_contra hne
      have := h'.kept i a hi' (Nat.pos_of_ne_zero hne)
      omega
    obtain ⟨hi₀, hid₀, hinode₀⟩ := h.idle i a hi' hzero'
    exact ⟨hi₀, hid₀.trans hid', hinode₀.trans hinode'⟩
  · intro i a hi hpos
    exact h'.kept i a (h.held i a hi hpos).1 (h.kept i a hi hpos)
  · intro id hmem
    rcases List.mem_append.mp hmem with hmem | hmem
    · exact h.quiet id hmem
    · exact h'.quiet id hmem

-- ======== changing an object

/-- A cached object gets a new value under its number; on the disk, only
the record of that number may change. -/
structure Touch (s s' : InodeSys) (a : Nat) (c : CachedInode) : Prop where
  cached : ∃ i, s.slots i = some a
  slots : s'.slots = s.slots
  next : s'.next = s.next
  heap : s'.heap = update s.heap a c
  id : c.id = (s.heap a).id
  inodeBitmap : s'.disk.inodeBitmap = s.disk.inodeBitmap
  zoneBitmap : s'.disk.zoneBitmap = s.disk.zoneBitmap
  indirect : s'.disk.indirect = s.disk.indirect
  inode : ∀ x, x ≠ c.id → s'.disk.inode x = s.disk.inode x
  clean : c.inner.isDirty = false → s'.disk.inode c.id = c.inner.diskInode

namespace Touch

theorem at_self (h : Touch s s' a c) : s'.heap a = c := by
  rw [h.heap, update_self]

theorem at_other (h : Touch s s' a c) {b : Nat} (hb : b ≠ a) :
    s'.heap b = s.heap b := by
  rw [h.heap, update_of_ne hb]

theorem id_eq (h : Touch s s' a c) (b : Nat) :
    (s'.heap b).id = (s.heap b).id := by
  by_cases hb : b = a
  · rw [hb, h.at_self, h.id]
  · rw [h.at_other hb]

theorem id_ne (h : Touch s s' a c) (hok : s.Ok) {i b : Nat}
    (hi : s.slots i = some b) (hb : b ≠ a) : (s.heap b).id ≠ c.id := by
  intro hid
  obtain ⟨j, hj⟩ := h.cached
  rw [h.id] at hid
  obtain rfl := hok.unique i j b a hi hj hid
  rw [hi] at hj
  exact hb (Option.some.inj hj)

theorem ok (h : Touch s s' a c) (hok : s.Ok) : s'.Ok where
  bound i b hi := by
    rw [h.slots] at hi
    rw [h.next]
    exact hok.bound i b hi
  unique i j b d hi hj hid := by
    rw [h.slots] at hi hj
    rw [h.id_eq, h.id_eq] at hid
    exact hok.unique i j b d hi hj hid
  held b hpos := by
    rw [h.slots]
    by_cases hb : b = a
    · rw [hb]
      exact h.cached
    · rw [h.at_other hb] at hpos
      exact hok.held b hpos
  used i b hi := by
    rw [h.slots] at hi
    rw [h.id_eq, h.inodeBitmap]
    exact hok.used i b hi
  clean i b hi hclean := by
    rw [h.slots] at hi
    by_cases hb : b = a
    · rw [hb, h.at_self] at hclean ⊢
      exact h.clean hclean
    · rw [h.at_other hb] at hclean ⊢
      rw [h.inode _ (h.id_ne hok hi hb)]
      exact hok.clean i b hi hclean

theorem current (h : Touch s s' a c) (hok : s.Ok) :
    s'.current = update s.current c.id c.inner.diskInode := by
  funext x
  by_cases hx : x = c.id
  · obtain ⟨i, hi⟩ := h.cached
    rw [hx, update_self]
    have hself := (h.ok hok).current_cached (h.slots ▸ hi)
    rw [h.at_self] at hself
    exact hself
  · rw [update_of_ne hx]
    refine hok.current_congr (h.ok hok) (fun i b hi hid => ?_) (fun hnot => ?_)
    · have hb : b ≠ a := by
        intro hb
        rw [← hid, hb, h.id] at hx
        exact hx rfl
      refine ⟨⟨i, b, h.slots ▸ hi, (h.id_eq b).trans hid⟩, fun j d hj hd => ?_⟩
      rw [h.slots] at hj
      rw [h.id_eq, ← hid] at hd
      obtain rfl := hok.unique j i d b hj hi hd
      rw [hi] at hj
      cases hj
      rw [h.at_other hb]
    · refine ⟨fun hc => hnot ?_, h.inode x hx⟩
      obtain ⟨i, b, hi, hid⟩ := hc
      exact ⟨i, b, h.slots ▸ hi, (h.id_eq b).symm.trans hid⟩

theorem sound (h : Touch s s' a c) (htells : Tells s.current es s'.current)
    (hplain : ∀ e ∈ es, e.plain) : Sound s es s' where
  held i b hi _ := ⟨h.slots ▸ hi, h.id_eq b⟩
  tells := htells
  evicted id zs hmem := by cases hplain _ hmem
  reclaimed i b hi hgone _ := absurd (h.slots ▸ hi) hgone
  account id := by
    have hfrees : es.countP (frees id) = 0 := by
      apply List.countP_eq_zero.mpr
      intro e he
      simp [(frees_of_plain (hplain e he) id).1]
    have hallocs : es.countP (allocates id) = 0 := by
      apply List.countP_eq_zero.mpr
      intro e he
      simp [(frees_of_plain (hplain e he) id).2]
    rw [hfrees, hallocs, h.inodeBitmap]
  zones dev z := by
    have hnone : es.any (freesZone dev z) = false := by
      apply List.any_eq_false.mpr
      intro e he
      simp [freesZone_of_plain (hplain e he) dev z]
    rw [h.zoneBitmap, hnone, Bool.not_false, Bool.and_true]
  fresh id hmem := by cases hplain _ hmem

theorem flow (h : Touch s s' a c) (hok : s.Ok)
    (htells : Tells s.current es s'.current) (hplain : ∀ e ∈ es, e.plain)
    (hkeep : (s.heap a).handles ≤ c.handles) (hidle : c.handles = 0 →
      (s.heap a).inner.diskInode = c.inner.diskInode) : Flow s es s' where
  toSound := h.sound htells hplain
  ok := h.ok hok
  next := Nat.le_of_eq h.next.symm
  indirect := h.indirect
  new i b hi := .inl (h.slots ▸ hi)
  idle i b hi hzero := by
    rw [h.slots] at hi
    refine ⟨hi, (h.id_eq b).symm, ?_⟩
    by_cases hb : b = a
    · rw [hb, h.at_self] at hzero ⊢
      exact hidle hzero
    · rw [h.at_other hb]
  kept i b _ hpos := by
    by_cases hb : b = a
    · rw [hb] at hpos
      rw [hb, h.at_self]
      omega
    · rw [h.at_other hb]
      exact hpos
  quiet id hmem := by cases hplain _ hmem

end Touch

-- ======== flushing a slot

/-- What `flush_slot` does to the table and, apart from the record of the
evicted number, to the disk. -/
structure Flushed (s s' : InodeSys) (slot a : Nat) : Prop where
  filled : s.slots slot = some a
  slots : s'.slots = update s.slots slot none
  next : s'.next = s.next
  heap : ∀ b, b ≠ a → s'.heap b = s.heap b
  handles : (s'.heap a).handles = (s.heap a).handles
  indirect : s'.disk.indirect = s.disk.indirect
  inode : ∀ x, x ≠ (s.heap a).id → s'.disk.inode x = s.disk.inode x
  inodeBitmap : ∀ x, x ≠ (s.heap a).id →
    s'.disk.inodeBitmap x = s.disk.inodeBitmap x

/-- The inode is written to the disk as it was in memory. -/
structure Stored (s : InodeSys) (es : List InodeEvent) (s' : InodeSys)
    (a : Nat) : Prop where
  linked : (s.heap a).inner.diskInode.linkCount ≠ 0#8
  events : es = []
  inode : s'.disk.inode (s.heap a).id = (s.heap a).inner.diskInode
  inodeBitmap : s'.disk.inodeBitmap = s.disk.inodeBitmap
  zoneBitmap : s'.disk.zoneBitmap = s.disk.zoneBitmap

/-- The inode had no links: its zones and its number are free. -/
structure Freed (s : InodeSys) (es : List InodeEvent) (s' : InodeSys)
    (a : Nat) : Prop where
  unlinked : (s.heap a).inner.diskInode.linkCount = 0#8
  events : es = [.freed (s.heap a).id
    (s.disk.zonesOf (s.heap a).id.device (s.heap a).inner.diskInode)]
  inode : s'.disk.inode (s.heap a).id = .zeroed
  inodeBitmap : s'.disk.inodeBitmap (s.heap a).id = false
  zoneBitmap : ∀ dev z, s'.disk.zoneBitmap dev z
    = (s.disk.zoneBitmap dev z && !es.any (freesZone dev z))

theorem zoneBitmap_of_truncate {disk : MinixDisk} {inode : DiskInode}
    (h : s.disk.truncate id.device inode = some disk) (dev : DevNum)
    (z : Zone) : disk.zoneBitmap dev z = (s.disk.zoneBitmap dev z && !List.any
      [InodeEvent.freed id (s.disk.zonesOf id.device inode)]
      (freesZone dev z)) := by
  rw [(MinixDisk.truncate_frees h).zoneBitmap]
  have hzone : List.any [InodeEvent.freed id (s.disk.zonesOf id.device inode)]
      (freesZone dev z) = decide (id.device = dev ∧
        z ∈ s.disk.zonesOf id.device inode) := Bool.or_false _
  rw [hzone]
  by_cases hz : dev = id.device ∧ z ∈ s.disk.zonesOf id.device inode
  · rw [if_pos hz, decide_eq_true ⟨hz.1.symm, hz.2⟩, Bool.not_true,
      Bool.and_false]
  · rw [if_neg hz, decide_eq_false (fun hc => hz ⟨hc.1.symm, hc.2⟩),
      Bool.not_false, Bool.and_true]

/-- A slot that is flushed has its inode stored, or freed without links. -/
theorem Ok.flushSlot (hok : s.Ok) (h : s.flushSlot slot = some (s', es)) :
    ∃ a, Flushed s s' slot a ∧ (Stored s es s' a ∨ Freed s es s' a) := by
  unfold InodeSys.flushSlot at h
  split at h
  next => cases h
  next a hslot =>
    refine ⟨a, ?_⟩
    dsimp only at h
    split at h
    next hlink =>
      split at h
      next => cases h
      next disk htrunc =>
        cases h
        have hfrees := MinixDisk.truncate_frees htrunc
        refine ⟨⟨hslot, rfl, rfl, fun _ _ => rfl, rfl, hfrees.indirect,
          fun x hx => ?_, fun x hx => ?_⟩, .inr ⟨hlink, rfl, ?_, ?_, ?_⟩⟩
        · show update disk.inode (s.heap a).id .zeroed x = _
          rw [update_of_ne hx, hfrees.inode]
        · show update disk.inodeBitmap (s.heap a).id false x = _
          rw [update_of_ne hx, hfrees.inodeBitmap]
        · exact update_self ..
        · exact update_self ..
        · intro dev z
          have hzones := zoneBitmap_of_truncate htrunc dev z
          exact hzones
    next hlink =>
      cases h
      unfold syncInode
      split
      next hdirty =>
        refine ⟨⟨hslot, rfl, rfl, fun b hb => update_of_ne hb ..,
          ?_, rfl, fun x hx => update_of_ne hx .., fun _ _ => rfl⟩,
          .inl ⟨hlink, rfl, update_self .., rfl, rfl⟩⟩
        show (update s.heap a _ a).handles = _
        rw [update_self]
      next hclean =>
        -- a clean object is what the disk already holds
        exact ⟨⟨hslot, rfl, rfl, fun _ _ => rfl, rfl, rfl, fun _ _ => rfl,
          fun _ _ => rfl⟩, .inl ⟨hlink, rfl,
          hok.clean slot a hslot (Bool.eq_false_iff.mpr hclean), rfl, rfl⟩⟩

namespace Flushed

theorem back (h : Flushed s s' slot a) (hok : s.Ok) {i b : Nat}
    (hi : s'.slots i = some b) :
    s.slots i = some b ∧ b ≠ a ∧ (s.heap b).id ≠ (s.heap a).id := by
  rw [h.slots] at hi
  by_cases heq : i = slot
  · rw [heq, update_self] at hi
    cases hi
  · rw [update_of_ne heq] at hi
    have hid : (s.heap b).id ≠ (s.heap a).id :=
      fun hid => heq (hok.unique i slot b a hi h.filled hid)
    exact ⟨hi, fun hb => hid (by rw [hb]), hid⟩

theorem stays (h : Flushed s s' slot a) {i b : Nat}
    (hi : s.slots i = some b) (hb : b ≠ a) : s'.slots i = some b := by
  rw [h.slots]
  by_cases heq : i = slot
  · rw [heq, h.filled] at hi
    exact absurd (Option.some.inj hi).symm hb
  · rw [update_of_ne heq]
    exact hi

theorem gone (h : Flushed s s' slot a) : s'.slots slot ≠ some a := by
  rw [h.slots, update_self]
  intro hc
  cases hc

theorem uncached (h : Flushed s s' slot a) (hok : s.Ok) :
    ¬ s'.Cached (s.heap a).id := by
  intro ⟨i, b, hi, hid⟩
  obtain ⟨-, hb, hne⟩ := h.back hok hi
  rw [h.heap b hb] at hid
  exact hne hid

theorem ok (h : Flushed s s' slot a) (hok : s.Ok)
    (hzero : (s.heap a).handles = 0) : s'.Ok where
  bound i b hi := by
    rw [h.next]
    exact hok.bound i b (h.back hok hi).1
  unique i j b d hi hj hid := by
    obtain ⟨hi, hb, -⟩ := h.back hok hi
    obtain ⟨hj, hd, -⟩ := h.back hok hj
    rw [h.heap b hb, h.heap d hd] at hid
    exact hok.unique i j b d hi hj hid
  held b hpos := by
    by_cases hb : b = a
    · rw [hb, h.handles, hzero] at hpos
      cases hpos
    · rw [h.heap b hb] at hpos
      obtain ⟨i, hi⟩ := hok.held b hpos
      exact ⟨i, h.stays hi hb⟩
  used i b hi := by
    obtain ⟨hi, hb, hid⟩ := h.back hok hi
    rw [h.heap b hb, h.inodeBitmap _ hid]
    exact hok.used i b hi
  clean i b hi hclean := by
    obtain ⟨hi, hb, hid⟩ := h.back hok hi
    rw [h.heap b hb] at hclean ⊢
    rw [h.inode _ hid]
    exact hok.clean i b hi hclean

theorem current (h : Flushed s s' slot a) (hok : s.Ok)
    (hzero : (s.heap a).handles = 0) :
    s'.current = update s.current (s.heap a).id
      (s'.disk.inode (s.heap a).id) := by
  funext x
  by_cases hx : x = (s.heap a).id
  · rw [hx, update_self]
    exact current_uncached (h.uncached hok)
  · rw [update_of_ne hx]
    refine hok.current_congr (h.ok hok hzero) (fun i b hi hid => ?_)
      (fun hnot => ?_)
    · have hb : b ≠ a := fun hb => hx (by rw [← hid, hb])
      refine ⟨⟨i, b, h.stays hi hb, by rw [h.heap b hb]; exact hid⟩,
        fun j d hj hd => ?_⟩
      obtain ⟨hj, hda, -⟩ := h.back hok hj
      rw [h.heap d hda, ← hid] at hd
      obtain rfl := hok.unique j i d b hj hi hd
      rw [hi] at hj
      cases hj
      rw [h.heap b hb]
    · refine ⟨fun hc => hnot ?_, h.inode x hx⟩
      obtain ⟨i, b, hi, hid⟩ := hc
      obtain ⟨hi, hb, -⟩ := h.back hok hi
      rw [h.heap b hb] at hid
      exact ⟨i, b, hi, hid⟩

theorem tells (h : Flushed s s' slot a) (hok : s.Ok)
    (hzero : (s.heap a).handles = 0)
    (hend : Stored s es s' a ∨ Freed s es s' a) :
    Tells s.current es s'.current := by
  rw [h.current hok hzero]
  rcases hend with hend | hend
  · rw [hend.events, hend.inode, ← hok.current_cached h.filled]
    exact update_eq_self ..
  · rw [hend.events, hend.inode]
    exact ⟨nofun, rfl⟩

theorem account (h : Flushed s s' slot a) (hok : s.Ok)
    (hend : Stored s es s' a ∨ Freed s es s' a) (id : InodeId) :
    es.countP (frees id) + (s'.disk.inodeBitmap id).toNat
      = es.countP (allocates id) + (s.disk.inodeBitmap id).toNat := by
  rcases hend with hend | hend
  · rw [hend.events, hend.inodeBitmap]
    rfl
  · rw [hend.events]
    by_cases hid : id = (s.heap a).id
    · rw [hid, hend.inodeBitmap, hok.used slot a h.filled]
      simp [frees, allocates]
    · rw [h.inodeBitmap id hid]
      simp [frees, allocates, Ne.symm hid]

theorem flow (h : Flushed s s' slot a) (hok : s.Ok)
    (hzero : (s.heap a).handles = 0)
    (hend : Stored s es s' a ∨ Freed s es s' a) : Flow s es s' where
  held i b hi hpos := by
    have hb : b ≠ a := by
      intro hb
      rw [hb, hzero] at hpos
      cases hpos
    exact ⟨h.stays hi hb, by rw [h.heap b hb]⟩
  tells := h.tells hok hzero hend
  evicted id zs hmem := by
    rcases hend with hend | hend
    · rw [hend.events] at hmem
      cases hmem
    · rw [hend.events, List.mem_singleton] at hmem
      obtain ⟨rfl, rfl⟩ := InodeEvent.freed.inj hmem
      exact ⟨slot, a, h.filled, h.gone, rfl, hend.unlinked, rfl⟩
  reclaimed i b hi hgone hlink := by
    have hb : b = a := by
      by_contra hb
      exact hgone (h.stays hi hb)
    rw [hb] at hlink ⊢
    rcases hend with hend | hend
    · exact absurd hlink hend.linked
    · rw [hend.events]
      exact List.mem_singleton_self _
  account := h.account hok hend
  zones dev z := by
    rcases hend with hend | hend
    · rw [hend.events, hend.zoneBitmap, List.any_nil, Bool.not_false,
        Bool.and_true]
    · exact hend.zoneBitmap dev z
  fresh id hmem := by
    rcases hend with hend | hend
    all_goals
      rw [hend.events] at hmem
      simp at hmem
  ok := h.ok hok hzero
  next := Nat.le_of_eq h.next.symm
  indirect := h.indirect
  new i b hi := .inl (h.back hok hi).1
  idle i b hi _ := by
    obtain ⟨hi, hb, -⟩ := h.back hok hi
    rw [h.heap b hb]
    exact ⟨hi, rfl, rfl⟩
  kept i b _ hpos := by
    by_cases hb : b = a
    · rw [hb, h.handles]
      rw [hb] at hpos
      exact hpos
    · rw [h.heap b hb]
      exact hpos
  quiet id hmem := by
    rcases hend with hend | hend
    all_goals
      rw [hend.events] at hmem
      simp at hmem

end Flushed

-- ======== filling a slot

/-- A new object, for a number that is in use and not cached, in a free
slot; the clock hand is of no consequence. -/
structure Filled (s s' : InodeSys) (slot : Nat) (id : InodeId)
    (inner : InodeInner) : Prop where
  bound : slot < inodeTableCapacity
  free : s.slots slot = none
  uncached : ¬ s.Cached id
  used : s.disk.inodeBitmap id = true
  read : inner.diskInode = s.disk.inode id
  disk : s'.disk = s.disk
  slots : s'.slots = update s.slots slot (some s.next)
  heap : s'.heap = update s.heap s.next ⟨id, inner, 1⟩
  next : s'.next = s.next + 1

namespace Filled

variable {inner : InodeInner}

theorem at_new (h : Filled s s' slot id inner) :
    s'.heap s.next = ⟨id, inner, 1⟩ := by
  rw [h.heap, update_self]

theorem at_old (h : Filled s s' slot id inner) {b : Nat} (hb : b ≠ s.next) :
    s'.heap b = s.heap b := by
  rw [h.heap, update_of_ne hb]

theorem back (h : Filled s s' slot id inner) (hok : s.Ok) {i b : Nat}
    (hi : s'.slots i = some b) :
    (i = slot ∧ b = s.next) ∨ (s.slots i = some b ∧ b ≠ s.next ∧
      (s.heap b).id ≠ id) := by
  rw [h.slots] at hi
  by_cases heq : i = slot
  · rw [heq, update_self] at hi
    exact .inl ⟨heq, (Option.some.inj hi).symm⟩
  · rw [update_of_ne heq] at hi
    have hlt := (hok.bound i b hi).2
    exact .inr ⟨hi, by omega, fun hid => h.uncached ⟨i, b, hi, hid⟩⟩

theorem stays (h : Filled s s' slot id inner) {i b : Nat}
    (hi : s.slots i = some b) : s'.slots i = some b := by
  rw [h.slots, update_of_ne]
  · exact hi
  · intro heq
    rw [heq, h.free] at hi
    cases hi

theorem ok (h : Filled s s' slot id inner) (hok : s.Ok) : s'.Ok where
  bound i b hi := by
    rw [h.next]
    rcases h.back hok hi with ⟨rfl, rfl⟩ | ⟨hi, -, -⟩
    · exact ⟨h.bound, by omega⟩
    · have hb := hok.bound i b hi
      exact ⟨hb.1, by omega⟩
  unique i j b d hi hj hid := by
    rcases h.back hok hi with ⟨rfl, rfl⟩ | ⟨hi, hb, hbid⟩
    · rcases h.back hok hj with ⟨rfl, rfl⟩ | ⟨hj, hd, hdid⟩
      · rfl
      · rw [h.at_new, h.at_old hd] at hid
        exact absurd hid.symm hdid
    · rcases h.back hok hj with ⟨rfl, rfl⟩ | ⟨hj, hd, hdid⟩
      · rw [h.at_new, h.at_old hb] at hid
        exact absurd hid hbid
      · rw [h.at_old hb, h.at_old hd] at hid
        exact hok.unique i j b d hi hj hid
  held b hpos := by
    by_cases hb : b = s.next
    · refine ⟨slot, ?_⟩
      rw [h.slots, update_self, hb]
    · rw [h.at_old hb] at hpos
      obtain ⟨i, hi⟩ := hok.held b hpos
      exact ⟨i, h.stays hi⟩
  used i b hi := by
    rw [h.disk]
    rcases h.back hok hi with ⟨rfl, rfl⟩ | ⟨hi, hb, -⟩
    · rw [h.at_new]
      exact h.used
    · rw [h.at_old hb]
      exact hok.used i b hi
  clean i b hi hclean := by
    rw [h.disk]
    rcases h.back hok hi with ⟨rfl, rfl⟩ | ⟨hi, hb, -⟩
    · rw [h.at_new]
      exact h.read.symm
    · rw [h.at_old hb] at hclean ⊢
      exact hok.clean i b hi hclean

theorem current (h : Filled s s' slot id inner) (hok : s.Ok) :
    s'.current = s.current := by
  funext x
  by_cases hx : x = id
  · have hnew : s'.slots slot = some s.next := by
      rw [h.slots, update_self]
    have hself := (h.ok hok).current_cached hnew
    rw [h.at_new] at hself
    rw [hx, current_uncached h.uncached, ← h.read]
    exact hself
  · refine hok.current_congr (h.ok hok) (fun i b hi hid => ?_) (fun hnot => ?_)
    · have hb : b ≠ s.next := Nat.ne_of_lt (hok.bound i b hi).2
      refine ⟨⟨i, b, h.stays hi, by rw [h.at_old hb]; exact hid⟩,
        fun j d hj hd => ?_⟩
      rcases h.back hok hj with ⟨rfl, rfl⟩ | ⟨hj, hdn, -⟩
      · rw [h.at_new] at hd
        exact absurd hd.symm hx
      · rw [h.at_old hdn, ← hid] at hd
        obtain rfl := hok.unique j i d b hj hi hd
        rw [hi] at hj
        cases hj
        rw [h.at_old hb]
    · refine ⟨fun hc => hnot ?_, by rw [h.disk]⟩
      obtain ⟨i, b, hi, hid⟩ := hc
      rcases h.back hok hi with ⟨rfl, rfl⟩ | ⟨hi, hb, -⟩
      · rw [h.at_new] at hid
        exact absurd hid.symm hx
      · rw [h.at_old hb] at hid
        exact ⟨i, b, hi, hid⟩

theorem flow (h : Filled s s' slot id inner) (hok : s.Ok) :
    Flow s [.handed s.next id inner] s' where
  held i b hi _ := by
    have hb : b ≠ s.next := Nat.ne_of_lt (hok.bound i b hi).2
    exact ⟨h.stays hi, by rw [h.at_old hb]⟩
  tells := by
    refine ⟨fun a x x' he => ?_, h.current hok⟩
    obtain ⟨rfl, rfl, rfl⟩ := InodeEvent.handed.inj he
    rw [h.read, current_uncached h.uncached]
  evicted x zs hmem := by simp at hmem
  reclaimed i b hi hgone _ := absurd (h.stays hi) hgone
  account x := by
    rw [h.disk]
    rfl
  zones dev z := by
    rw [h.disk]
    exact (Bool.and_true _).symm
  fresh x hmem := by simp at hmem
  ok := h.ok hok
  next := by rw [h.next]; omega
  indirect := by rw [h.disk]
  new i b hi := by
    rcases h.back hok hi with ⟨-, rfl⟩ | ⟨hi, -, -⟩
    · exact .inr (Nat.le_refl _)
    · exact .inl hi
  idle i b hi hzero := by
    rcases h.back hok hi with ⟨-, rfl⟩ | ⟨hi, hb, -⟩
    · rw [h.at_new] at hzero
      cases hzero
    · rw [h.at_old hb]
      exact ⟨hi, rfl, rfl⟩
  kept i b hi hpos := by
    have hb : b ≠ s.next := Nat.ne_of_lt (hok.bound i b hi).2
    rw [h.at_old hb]
    exact hpos
  quiet x hmem := by simp at hmem

end Filled

end InodeSys

end LinuxRs.Fs
