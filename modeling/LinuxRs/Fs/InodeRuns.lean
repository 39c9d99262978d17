/-
Runs of the inode table: every call keeps the invariant and does what
`Sound` asks of it.

# The calls

Each call is a chain of parts (`Flow`): eviction is a row of flushes,
`acquire_raw` is a flush and a filled slot, `sync_inodes` a row of changed
objects. Only `alloc_inode` also sets a bit, which `Claimed` accounts for.

# The guard

`acquire_raw` is asked for numbers that are in use. Its callers take them
from directory entries, from the root of a mounted device and from
`alloc_inode`; the table itself does not look at the bitmap.
-/
import LinuxRs.Fs.InodeCache

namespace LinuxRs.Fs

open Function (update update_self update_of_ne update_eq_self)

open LinuxRs.Lib
open LinuxRs.Driver (DevNum)

namespace InodeSys

open InodeEvent

variable {s s' s'' : InodeSys} {es fs : List InodeEvent} {slot a : Nat}
  {id : InodeId}

-- ======== eviction

theorem Flow.refl (hok : s.Ok) : Flow s [] s where
  held i a hi _ := ⟨hi, rfl⟩
  tells := rfl
  evicted id zs hmem := by cases hmem
  reclaimed i a hi hgone _ := absurd hi hgone
  account id := rfl
  zones dev z := (Bool.and_true _).symm
  fresh id hmem := by cases hmem
  ok := hok
  next := Nat.le_refl _
  indirect := rfl
  new i a hi := .inl hi
  idle i a hi _ := ⟨hi, rfl, rfl⟩
  kept i a _ hpos := hpos
  quiet id hmem := by cases hmem

/-- The slot that is chosen to be evicted has an inode without handles. -/
theorem scanVictim_some {fallback : Option Nat} {l : List Nat}
    (h : s.scanVictim fallback l = some slot) (hfall : ∀ i, fallback = some i →
      ∃ a, s.slots i = some a ∧ (s.heap a).handles = 0) :
    ∃ a, s.slots slot = some a ∧ (s.heap a).handles = 0 := by
  induction l generalizing fallback with
  | nil => exact hfall slot h
  | cons i l ih =>
    simp only [scanVictim] at h
    split at h
    next => exact ih h hfall
    next a hi =>
      split at h
      next => exact ih h hfall
      next hzero =>
        have hidle : (s.heap a).handles = 0 := not_not.mp hzero
        split at h
        next =>
          obtain rfl := Option.some.inj h
          exact ⟨a, hi, hidle⟩
        next =>
          refine ih h (fun j hj => ?_)
          cases hfb : fallback with
          | none =>
            rw [hfb] at hj
            obtain rfl := Option.some.inj hj
            exact ⟨a, hi, hidle⟩
          | some k =>
            rw [hfb] at hj
            obtain rfl := Option.some.inj hj
            exact hfall k hfb

theorem findVictim_some (h : s.findVictim = some slot) :
    ∃ a, s.slots slot = some a ∧ (s.heap a).handles = 0 :=
  scanVictim_some h nofun

/-- Room is made in a free slot, or by flushing one without handles. -/
theorem Ok.makeRoom (hok : s.Ok) (h : s.makeRoom = some (s', slot, es)) :
    slot < inodeTableCapacity ∧ ((s' = s ∧ s.slots slot = none ∧ es = []) ∨
        ∃ s₁ a hand, Flushed s s₁ slot a ∧ (s.heap a).handles = 0 ∧
          (Stored s es s₁ a ∨ Freed s es s₁ a) ∧
          s' = { s₁ with clock := hand }) := by
  unfold InodeSys.makeRoom at h
  split at h
  next i hfind =>
    obtain ⟨rfl, hrest⟩ := Prod.mk.inj (Option.some.inj h)
    obtain ⟨rfl, rfl⟩ := Prod.mk.inj hrest
    have hnone := List.find?_some hfind
    have hmem := List.mem_of_find?_eq_some hfind
    exact ⟨List.mem_range.mp hmem,
      .inl ⟨rfl, Option.isNone_iff_eq_none.mp hnone, rfl⟩⟩
  next =>
    split at h
    next => cases h
    next i hvictim =>
      split at h
      next => cases h
      next s₁ events hflush =>
        obtain ⟨rfl, hrest⟩ := Prod.mk.inj (Option.some.inj h)
        obtain ⟨rfl, rfl⟩ := Prod.mk.inj hrest
        obtain ⟨a, hi, hidle⟩ := findVictim_some hvictim
        obtain ⟨b, hflushed, hend⟩ := hok.flushSlot hflush
        have hfilled := hflushed.filled
        rw [hi] at hfilled
        obtain rfl := Option.some.inj hfilled
        exact ⟨(hok.bound i a hi).1,
          .inr ⟨s₁, a, _, hflushed, hidle, hend, rfl⟩⟩

/-- With no handle out, every inode of the device leaves the table. -/
theorem Ok.evictDevice {dev : DevNum} (hok : s.Ok)
    (hidle : ∀ i a, s.slots i = some a → (s.heap a).id.device = dev →
      (s.heap a).handles = 0) {l : List Nat}
    (h : s.evictDevice dev l = some (s', es)) : Flow s es s' := by
  induction l generalizing s es with
  | nil =>
    cases h
    exact .refl hok
  | cons slot l ih =>
    simp only [InodeSys.evictDevice] at h
    split at h
    next hdev =>
      split at h
      next => cases h
      next s₁ events hflush =>
        split at h
        next => cases h
        next s₂ more hrest =>
          cases h
          obtain ⟨a, hflushed, hend⟩ := hok.flushSlot hflush
          have hmine : (s.heap a).id.device = dev := by
            rw [hflushed.filled] at hdev
            exact of_decide_eq_true hdev
          have hzero := hidle slot a hflushed.filled hmine
          have hone := hflushed.flow hok hzero hend
          refine hone.trans (ih hone.ok (fun i b hi hb => ?_) hrest) hok
          obtain ⟨hi, hba, -⟩ := hflushed.back hok hi
          rw [hflushed.heap b hba] at hb ⊢
          exact hidle i b hi hb
    next => exact ih hok hidle h

theorem Ok.idle_of_inactive {dev : DevNum} (hok : s.Ok)
    (h : ¬ s.hasActiveInodes dev) {i : Nat} (hi : s.slots i = some a)
    (hdev : (s.heap a).id.device = dev) : (s.heap a).handles = 0 := by
  by_contra hne
  apply h
  refine List.any_eq_true.mpr ⟨i, List.mem_range.mpr (hok.bound i a hi).1, ?_⟩
  rw [hi]
  exact decide_eq_true ⟨hdev, hne⟩

-- ======== acquire

/-- What a successful `acquire_raw` leaves: a part of a step, after which
the caller holds the object of that number. -/
structure Acquired (s : InodeSys) (id : InodeId) (s' : InodeSys) (a : Nat)
    (es : List InodeEvent) : Prop where
  flow : Flow s es s'
  cached : ∃ i, s'.slots i = some a
  id : (s'.heap a).id = id
  held : 0 < (s'.heap a).handles

theorem Ok.touch_handles (hok : s.Ok) (hi : s.slots slot = some a) (n : Nat) :
    Touch s (s.setHandles a n) a { s.heap a with handles := n } where
  cached := ⟨slot, hi⟩
  slots := rfl
  next := rfl
  heap := rfl
  id := rfl
  inodeBitmap := rfl
  zoneBitmap := rfl
  indirect := rfl
  inode _ _ := rfl
  clean := hok.clean slot a hi

theorem Ok.acquire_hit (hok : s.Ok) (hi : s.slots slot = some a)
    (hid : (s.heap a).id = id) :
    Acquired s id (s.setHandles a ((s.heap a).handles + 1)) a
      [.handed a id (s.heap a).inner] := by
  have htouch := hok.touch_handles hi ((s.heap a).handles + 1)
  have hcur : (s.setHandles a ((s.heap a).handles + 1)).current = s.current := by
    rw [htouch.current hok]
    rw [← hok.current_cached hi]
    exact update_eq_self ..
  refine ⟨htouch.flow hok ?_ ?_ (by dsimp only; omega) nofun,
    ⟨slot, hi⟩, ?_, ?_⟩
  · refine ⟨fun b x inner he => ?_, hcur⟩
    obtain ⟨rfl, rfl, rfl⟩ := InodeEvent.handed.inj he
    rw [← hid, hok.current_cached hi]
  · intro e he
    rw [List.mem_singleton.mp he]
    rfl
  · rw [htouch.id_eq, hid]
  · rw [htouch.at_self]
    exact Nat.succ_pos _

/-- An inode that is not cached is read from the disk, into the room that was
made. -/
theorem Ok.acquire_miss (hok : s.Ok) (hused : s.disk.inodeBitmap id = true)
    (huncached : ¬ s.Cached id) {s₁ : InodeSys} {accessTime changeTime}
    (hroom : s.makeRoom = some (s₁, slot, es))
    (hslots : s'.slots = update s₁.slots slot (some s₁.next))
    (hheap : s'.heap = update s₁.heap s₁.next
      ⟨id, ⟨s.disk.inode id, false, accessTime, changeTime⟩, 1⟩)
    (hdisk : s'.disk = s₁.disk) (hnext : s'.next = s₁.next + 1) :
    Acquired s id s' s₁.next (es ++ [.handed s₁.next id
      ⟨s.disk.inode id, false, accessTime, changeTime⟩]) := by
  have hself : (s'.heap s₁.next) = ⟨id, ⟨s.disk.inode id, false, accessTime,
      changeTime⟩, 1⟩ := by
    rw [hheap, update_self]
  refine ⟨?_, ⟨slot, by rw [hslots, update_self]⟩, by rw [hself],
    by rw [hself]; exact Nat.one_pos⟩
  obtain ⟨hbound, ⟨rfl, hfree, rfl⟩ | ⟨s₂, a, hand, hflushed, hzero, hend,
    rfl⟩⟩ := hok.makeRoom hroom
  · have hfilled : Filled s₁ s' slot id _ :=
      ⟨hbound, hfree, huncached, hused, rfl, hdisk, hslots, hheap, hnext⟩
    exact hfilled.flow hok
  · have hne : id ≠ (s.heap a).id := by
      intro hid
      exact huncached ⟨slot, a, hflushed.filled, hid.symm⟩
    have hflow := hflushed.flow hok hzero hend
    have hfilled : Filled s₂ s' slot id
        ⟨s.disk.inode id, false, accessTime, changeTime⟩ :=
      { bound := hbound
        free := by rw [hflushed.slots, update_self]
        uncached := by
          intro ⟨i, b, hi, hid⟩
          obtain ⟨hi, hb, -⟩ := hflushed.back hok hi
          rw [hflushed.heap b hb] at hid
          exact huncached ⟨i, b, hi, hid⟩
        used := by rw [hflushed.inodeBitmap id hne, hused]
        read := (hflushed.inode id hne).symm
        disk := hdisk
        slots := hslots
        heap := hheap
        next := hnext }
    exact hflow.trans (hfilled.flow hflow.ok) hok

theorem Ok.acquireRaw (hok : s.Ok) (hused : s.disk.inodeBitmap id = true)
    (h : s.acquireRaw id = some (s', a, es)) : Acquired s id s' a es := by
  unfold InodeSys.acquireRaw at h
  split at h
  next => cases h
  next =>
    split at h
    next b hlookup =>
      obtain ⟨rfl, hrest⟩ := Prod.mk.inj (Option.some.inj h)
      cases hrest
      obtain ⟨i, hi, hid⟩ := lookup_some hlookup
      exact hok.acquire_hit hi hid
    next hlookup =>
      split at h
      next => cases h
      next s₁ slot events hroom =>
        obtain ⟨rfl, hrest⟩ := Prod.mk.inj (Option.some.inj h)
        cases hrest
        exact hok.acquire_miss hused (hok.lookup_none hlookup) hroom rfl rfl
          rfl rfl

-- ======== writes and syncs

theorem Ok.touch_write (hi : s.slots slot = some a) (inode : DiskInode)
    (accessTime changeTime : BitVec 32) :
    Touch s (s.writeInner a inode accessTime changeTime) a
      { s.heap a with inner := ⟨inode, true, accessTime, changeTime⟩ } where
  cached := ⟨slot, hi⟩
  slots := rfl
  next := rfl
  heap := rfl
  id := rfl
  inodeBitmap := rfl
  zoneBitmap := rfl
  indirect := rfl
  inode _ _ := rfl
  clean hc := by cases hc

theorem Ok.writeInner (hok : s.Ok) (hpos : 0 < (s.heap a).handles)
    (inode : DiskInode) (accessTime changeTime : BitVec 32) :
    Flow s [.wrote (s.heap a).id inode]
      (s.writeInner a inode accessTime changeTime) := by
  obtain ⟨i, hi⟩ := hok.held a hpos
  have htouch := Ok.touch_write hi inode accessTime changeTime
  refine htouch.flow hok ?_ ?_ (Nat.le_refl _) (fun hc => ?_)
  · exact ⟨nofun, htouch.current hok⟩
  · intro e he
    rw [List.mem_singleton.mp he]
    rfl
  · rw [show (s.heap a).handles = 0 from hc] at hpos
    cases hpos

theorem Ok.syncInode (hok : s.Ok) (hi : s.slots slot = some a) :
    Flow s [] (s.syncInode a) ∧ (s.syncInode a).slots = s.slots := by
  unfold InodeSys.syncInode
  split
  next =>
    have htouch : Touch s
        { s.setInner a { (s.heap a).inner with isDirty := false } with
          disk := s.disk.writeInode (s.heap a).id
            (s.heap a).inner.diskInode } a
        { s.heap a with inner :=
          { (s.heap a).inner with isDirty := false } } :=
      { cached := ⟨slot, hi⟩
        slots := rfl
        next := rfl
        heap := rfl
        id := rfl
        inodeBitmap := rfl
        zoneBitmap := rfl
        indirect := rfl
        inode := fun x hx => update_of_ne hx ..
        clean := fun _ => update_self .. }
    refine ⟨htouch.flow hok ?_ nofun (Nat.le_refl _) (fun _ => rfl), rfl⟩
    rw [htouch.current hok]
    rw [← hok.current_cached hi]
    exact update_eq_self ..
  next => exact ⟨.refl hok, rfl⟩

theorem Ok.syncInodes (hok : s.Ok) : Flow s [] s.syncInodes := by
  unfold InodeSys.syncInodes
  generalize List.range inodeTableCapacity = l
  induction l generalizing s with
  | nil => exact .refl hok
  | cons slot l ih =>
    rw [List.foldl_cons]
    split
    next => exact ih hok
    next a hi =>
      obtain ⟨hone, -⟩ := hok.syncInode hi
      exact hone.trans (ih hone.ok) hok

-- ======== allocation

/-- One number of the bitmap is taken. -/
structure Claimed (s s' : InodeSys) (id : InodeId) : Prop where
  slots : s'.slots = s.slots
  heap : s'.heap = s.heap
  next : s'.next = s.next
  zoneBitmap : s'.disk.zoneBitmap = s.disk.zoneBitmap
  indirect : s'.disk.indirect = s.disk.indirect
  unused : s.disk.inodeBitmap id = false
  inodeBitmap : s'.disk.inodeBitmap = update s.disk.inodeBitmap id true
  inode : s'.disk.inode = update s.disk.inode id .zeroed

namespace Claimed

theorem uncached (h : Claimed s s' id) (hok : s.Ok) : ¬ s.Cached id := by
  intro ⟨i, a, hi, hid⟩
  have hused := hok.used i a hi
  rw [hid, h.unused] at hused
  cases hused

theorem ok (h : Claimed s s' id) (hok : s.Ok) : s'.Ok := by
  have hne : ∀ i a, s.slots i = some a → (s.heap a).id ≠ id :=
    fun i a hi hid => h.uncached hok ⟨i, a, hi, hid⟩
  constructor
  · rw [h.slots, h.next]
    exact hok.bound
  · rw [h.slots, h.heap]
    exact hok.unique
  · rw [h.slots, h.heap]
    exact hok.held
  · intro i a hi
    rw [h.slots] at hi
    rw [h.heap, h.inodeBitmap, update_of_ne (hne i a hi)]
    exact hok.used i a hi
  · intro i a hi hclean
    rw [h.slots] at hi
    rw [h.heap] at hclean ⊢
    rw [h.inode, update_of_ne (hne i a hi)]
    exact hok.clean i a hi hclean

theorem current (h : Claimed s s' id) (hok : s.Ok) :
    s'.current = update s.current id .zeroed := by
  have hcached : ∀ x, s'.Cached x ↔ s.Cached x := by
    intro x
    unfold Cached
    rw [h.slots, h.heap]
  funext x
  by_cases hx : x = id
  · rw [hx, update_self, current_uncached, h.inode, update_self]
    rw [hcached]
    exact h.uncached hok
  · rw [update_of_ne hx]
    refine hok.current_congr (h.ok hok) (fun i a hi hid => ?_) (fun hnot => ?_)
    · refine ⟨(hcached x).mpr ⟨i, a, hi, hid⟩, fun j b hj hb => ?_⟩
      rw [h.slots] at hj
      rw [h.heap, ← hid] at hb
      obtain rfl := hok.unique j i b a hj hi hb
      rw [hi] at hj
      cases hj
      rw [h.heap]
    · exact ⟨fun hc => hnot ((hcached x).mp hc),
        by rw [h.inode, update_of_ne hx]⟩

theorem sound (h : Claimed s s' id) (hok : s.Ok) (hflow : Flow s' es s'') :
    Sound s (.allocated id :: es) s'' where
  held i a hi hpos := by
    have hkept := hflow.held i a (h.slots ▸ hi) (h.heap ▸ hpos)
    rw [h.heap] at hkept
    exact hkept
  tells := by
    refine ⟨nofun, ?_⟩
    show Tells (update s.current id .zeroed) es s''.current
    rw [← h.current hok]
    exact hflow.tells
  evicted x zs hmem := by
    have hmem : .freed x zs ∈ es := by
      rcases List.mem_cons.mp hmem with he | hmem
      · cases he
      · exact hmem
    have hgone := hflow.evicted x zs hmem
    rw [h.slots, h.heap] at hgone
    simp only [zonesOf_congr h.indirect] at hgone
    exact hgone
  reclaimed i a hi hgone hlink := by
    have hfreed := hflow.reclaimed i a (h.slots ▸ hi) hgone
      (by rw [h.heap]; exact hlink)
    rw [zonesOf_congr h.indirect, h.heap] at hfreed
    exact List.mem_cons_of_mem _ hfreed
  account x := by
    have hrest := hflow.account x
    have hquiet : es.countP (allocates x) = 0 := by
      apply List.countP_eq_zero.mpr
      intro e he
      cases e with
      | allocated y => exact absurd he (hflow.quiet y)
      | handed => simp [allocates]
      | wrote => simp [allocates]
      | freed => simp [allocates]
    rw [List.countP_cons, List.countP_cons]
    rw [hquiet, h.inodeBitmap] at hrest
    by_cases hx : x = id
    · rw [hx, update_self] at hrest
      rw [hx] at hquiet ⊢
      rw [hquiet, h.unused]
      simp only [frees, allocates, Bool.toNat_true, Bool.toNat_false,
        decide_true, if_true, Bool.false_eq_true, if_false] at hrest ⊢
      omega
    · rw [update_of_ne hx] at hrest
      rw [hquiet]
      simp only [frees, allocates, Ne.symm hx, decide_false,
        Bool.false_eq_true, if_false] at hrest ⊢
      omega
  zones dev z := by
    rw [hflow.zones, h.zoneBitmap]
    rfl
  fresh x hmem := by
    rcases List.mem_cons.mp hmem with he | hmem
    · obtain rfl := InodeEvent.allocated.inj he
      exact h.uncached hok
    · exact absurd hmem (hflow.quiet x)

end Claimed

/-- A new inode takes a free bit and is cached. -/
theorem Ok.allocInode (hok : s.Ok) {fileType : InodeType} {flags : BitVec 12}
    {userId : BitVec 16} {groupId linkCount : BitVec 8} {now : BitVec 32}
    (h : s.allocInode id fileType flags userId groupId linkCount now
      = some (s', es)) : s'.Ok ∧ Sound s es s' := by
  unfold InodeSys.allocInode at h
  split at h
  next => cases h
  next hfree =>
    dsimp only at h
    split at h
    next => cases h
    next s₂ a events hacquire =>
      cases h
      have hclaimed : Claimed s
          { s with disk := { s.disk.writeInode id .zeroed with
            inodeBitmap := update s.disk.inodeBitmap id true } }
          id :=
        ⟨rfl, rfl, rfl, rfl, rfl,
          Bool.eq_false_iff.mpr (not_or.mp hfree).1, rfl, rfl⟩
      have hok₁ := hclaimed.ok hok
      have hacq := hok₁.acquireRaw (update_self ..) hacquire
      have hwrite := hacq.flow.ok.writeInner hacq.held
        { (s₂.heap a).inner.diskInode with
          fileType := some fileType
          flags := flags
          userId := userId
          groupId := groupId
          linkCount := linkCount
          modificationTime := now } now now
      rw [hacq.id] at hwrite
      have hflow := hacq.flow.trans hwrite hok₁
      exact ⟨hflow.ok, hclaimed.sound hok hflow⟩

-- ======== the runs

/-- `acquire_raw` is asked for numbers that are in use. -/
def Allocated (s : InodeSys) : InodeOp → Prop
  | .acquire id => s.disk.inodeBitmap id = true
  | _ => True

/-- Every operation keeps the table in order and tells what it did. -/
theorem Ok.step (hok : s.Ok) {op : InodeOp} (hg : s.Allocated op)
    (h : s.step op = some (s', es)) : s'.Ok ∧ Sound s es s' := by
  cases op with
  | acquire id =>
    simp only [InodeSys.step] at h
    split at h
    next => cases h
    next s₁ a events hacquire =>
      cases h
      have hacq := hok.acquireRaw hg hacquire
      exact ⟨hacq.flow.ok, hacq.flow.toSound⟩
  | release a =>
    simp only [InodeSys.step] at h
    split at h
    next => cases h
    next hpos =>
      cases h
      obtain ⟨i, hi⟩ := hok.held a (Nat.pos_of_ne_zero hpos)
      have htouch := hok.touch_handles hi ((s.heap a).handles - 1)
      refine ⟨htouch.ok hok, htouch.sound ?_ nofun⟩
      rw [htouch.current hok]
      rw [← hok.current_cached hi]
      exact update_eq_self ..
  | write a inode accessTime changeTime =>
    simp only [InodeSys.step] at h
    split at h
    next => cases h
    next hpos =>
      cases h
      have hflow := hok.writeInner (Nat.pos_of_ne_zero hpos) inode accessTime
        changeTime
      exact ⟨hflow.ok, hflow.toSound⟩
  | alloc id fileType flags userId groupId linkCount now =>
    exact hok.allocInode h
  | sync =>
    cases h
    exact ⟨hok.syncInodes.ok, hok.syncInodes.toSound⟩
  | umount dev =>
    simp only [InodeSys.step] at h
    split at h
    next =>
      cases h
      exact ⟨hok, (Flow.refl hok).toSound⟩
    next hidle =>
      have hflow := hok.evictDevice (fun i a hi hdev =>
        hok.idle_of_inactive hidle hi hdev) h
      exact ⟨hflow.ok, hflow.toSound⟩

/-- A run tells what it did, one operation after the other. -/
theorem Ok.exec (hok : s.Ok) {ops : List InodeOp}
    {ess : List (List InodeEvent)}
    (hg : Guarded (Lib.next InodeSys.step) Allocated s ops)
    (h : Lib.exec InodeSys.step s ops = some (s', ess)) :
    Tells s.current ess.flatten s'.current ∧
      ∀ id, ess.flatten.countP (frees id) + (s'.disk.inodeBitmap id).toNat
        = ess.flatten.countP (allocates id)
          + (s.disk.inodeBitmap id).toNat := by
  induction ops generalizing s ess with
  | nil =>
    cases h
    exact ⟨rfl, fun id => rfl⟩
  | cons op ops ih =>
    simp only [Lib.exec] at h
    split at h
    next => cases h
    next s₁ es hone =>
      split at h
      next => cases h
      next s₂ rest hrest =>
        cases h
        simp only [Guarded, Lib.next, hone, Option.map_some] at hg
        obtain ⟨hok₁, hsound⟩ := hok.step hg.1 hone
        obtain ⟨htells, haccount⟩ := ih hok₁ hg.2 hrest
        refine ⟨hsound.tells.append htells, fun id => ?_⟩
        have h₁ := hsound.account id
        have h₂ := haccount id
        rw [List.flatten_cons, List.countP_append, List.countP_append]
        omega

end InodeSys

-- ======== the table

def InodeSys.new (disk : MinixDisk) : InodeSys :=
  ⟨disk, fun _ => none, 0,
    fun _ => ⟨⟨⟨0#16⟩, 0#16⟩, ⟨.zeroed, false, 0#32, 0#32⟩, 0⟩, 0⟩

theorem InodeSys.Ok.new (disk : MinixDisk) : (InodeSys.new disk).Ok where
  bound i a hi := by cases hi
  unique i j a b hi := by cases hi
  held a hpos := by cases hpos
  used i a hi := by cases hi
  clean i a hi := by cases hi

def MinixDisk.blank : MinixDisk :=
  ⟨fun _ => false, fun _ => .zeroed, fun _ _ => false, fun _ _ => []⟩

/-- In every run of the table in which `acquire_raw` is asked for numbers
in use: an inode has one object; an object with handles is not evicted;
every handle shows the disk inode last written (`Tells`), over the whole
run; an inode without links is freed with its zones when it is evicted,
once for each time its number came into use; and a fresh number is not
cached. -/
theorem inode_table_coherent {s : InodeSys} (h : s.Ok) {ops : List InodeOp}
    (hg : Guarded (next InodeSys.step) InodeSys.Allocated s ops) :
    (∀ t ∈ visited (next InodeSys.step) s ops,
      (∀ i j a b, t.slots i = some a → t.slots j = some b →
        (t.heap a).id = (t.heap b).id → i = j) ∧
      ∀ op t' es, t.Allocated op → t.step op = some (t', es) →
        InodeSys.Sound t es t') ∧
    ∀ t ess, exec InodeSys.step s ops = some (t, ess) →
      InodeEvent.Tells s.current ess.flatten t.current ∧
      ∀ id, ess.flatten.countP (InodeEvent.frees id)
          + (t.disk.inodeBitmap id).toNat
        = ess.flatten.countP (InodeEvent.allocates id)
          + (s.disk.inodeBitmap id).toNat := by
  refine ⟨fun t ht => ?_, fun t ess hexec => h.exec hg hexec⟩
  have hok : t.Ok := by
    refine hg.visited (fun t op t' ht hgt hstep => ?_) h t ht
    obtain ⟨r, hr, rfl⟩ := Option.map_eq_some_iff.mp hstep
    obtain ⟨t', es⟩ := r
    exact (ht.step hgt hr).1
  exact ⟨hok.unique, fun op t' es hgt hstep => (hok.step hgt hstep).2⟩

/-- Inode `n` of the first hard disk's first partition. -/
def hdInode (n : Nat) : InodeId := ⟨⟨0x301#16⟩, BitVec.ofNat 16 n⟩

def InodeOp.create (n : Nat) : InodeOp :=
  .alloc (hdInode n) .regular 0o644#12 0#16 0#8 1#8 5#32

def DiskInode.file (linkCount : BitVec 8) : DiskInode :=
  { DiskInode.zeroed with
    fileType := some .regular
    flags := 0o644#12
    modificationTime := 5#32
    linkCount := linkCount }

/-- A file is created, unlinked and closed, and then evicted. -/
theorem inode_table_coherent_unlink :
    (exec InodeSys.step (InodeSys.new .blank) [.create 2,
      .write 0 (.file 0#8) 5#32 6#32, .release 0, .umount ⟨0x301#16⟩]).map
        Prod.snd
      = some [[.allocated (hdInode 2), .handed 0 (hdInode 2)
          ⟨.zeroed, false, 0#32, 0#32⟩, .wrote (hdInode 2) (.file 1#8)],
        [.wrote (hdInode 2) (.file 0#8)], [], [.freed (hdInode 2) []]] ∧
    ∀ t ∈ visited (next InodeSys.step) (InodeSys.new .blank) [.create 2,
        .write 0 (.file 0#8) 5#32 6#32, .release 0, .umount ⟨0x301#16⟩],
      ∀ op t' es, t.Allocated op → t.step op = some (t', es) →
        InodeSys.Sound t es t' := by
  refine ⟨by decide, fun t ht => ?_⟩
  refine ((inode_table_coherent (InodeSys.Ok.new .blank) ?_).1 t ht).2
  apply Guarded.of_forall
  simp [InodeSys.Allocated, InodeOp.create]

def InodeOp.fill : List InodeOp :=
  (List.range inodeTableCapacity).flatMap fun n =>
    [.create (n + 3), .release (n + 1)]

/-- The access time written through a handle is gone after an eviction;
and a number that is free is cached when it is asked for, and is still
cached when it is allocated. -/
theorem inode_table_forgets :
    (exec InodeSys.step (InodeSys.new .blank) ([.create 2,
        .write 0 (.file 1#8) 7#32 7#32, .release 0] ++ InodeOp.fill ++
        [.acquire (hdInode 2)])).map (fun r => r.2.getLast?)
      = some (some [.handed 33 (hdInode 2) ⟨.file 1#8, false, 0#32, 0#32⟩]) ∧
    ∃ s, run (next InodeSys.step) (InodeSys.new .blank)
        [.acquire (hdInode 2)] = some s ∧ s.Cached (hdInode 2) ∧
      ∃ s' es, s.step (.create 2) = some (s', es) ∧
        InodeEvent.allocated (hdInode 2) ∈ es := by
  refine ⟨by decide +kernel, _, rfl, ⟨0, 0, rfl, rfl⟩, _, _, rfl, ?_⟩
  exact List.mem_cons_self

end LinuxRs.Fs
