/-
What a mount call that fails leaves behind.

# Before and after

Looking the two names up caches the inodes on the way, as in every call
that takes a pathname, so the state to compare with is the one that the
lookups leave (`namesResolved`). Up to the point where the root inode of
the device is loaded, a failing call only drops its handles and gives
that state back. The full mount table is found after that point: the root
inode stays in the inode table, loaded for a file system that nobody
holds any more, unless it was in the table before.
-/
import LinuxRs.Fs.MountHeld

namespace LinuxRs.Fs

open Function (update update_idem update_self update_eq_self)

open LinuxRs.Lib
open LinuxRs.Driver (DevNum)

namespace MountSys

variable {s s' : MountSys} {a : Nat} {id : InodeId}
  {devName dirName : PathLookup}

/-- The file system caches this inode. -/
def Caches (s : MountSys) (id : InodeId) (fs : Nat) : Prop :=
  ∃ i a, s.inodes.slots i = some a ∧ (s.inodes.heap a).id = id ∧ s.owner a = fs

/-- The state after the lookups of `sys_mount`, their handles dropped. -/
def namesResolved (s : MountSys) (devName dirName : PathLookup) :
    Option MountSys :=
  match s.mountArguments devName dirName with
  | none => none
  | some (s, .error _) => some s
  | some (s, .ok (_, dirInode)) => some (s.drop dirInode)

/-- A call that started in `s`, and whose lookups led to `s₁`, has left no
trace in `s'`: the mount table is as before, the same inodes are cached
for the same file systems, and no later call can tell. -/
structure NoTrace (s s₁ s' : MountSys) : Prop where
  table : s'.table = s.table
  cached : ∀ id fs, s'.Caches id fs ↔ s₁.Caches id fs
  later : ∀ ops, (exec MountSys.step s' ops).map Prod.snd
    = (exec MountSys.step s₁ ops).map Prod.snd

/-- The call gets past its checks and opens the device, there is no slot
for the entry, and the root of the device is not cached yet. -/
def LeavesRoot (s : MountSys) (devName dirName : PathLookup) (opens : Bool) :
    Prop :=
  ∃ s₁ dev dirInode fileType,
    s.mountArguments devName dirName = some (s₁, .ok (dev, dirInode)) ∧
    s₁.fileType dirInode = some fileType ∧
    s₁.mountChecks dev dirInode fileType = none ∧ opens = true ∧
    none ∉ s.table ∧ s₁.inodes.lookup ⟨dev, rootInodeNumber⟩ = none

theorem NoTrace.refl {s₁ : MountSys} (h : s₁.table = s.table) :
    NoTrace s s₁ s₁ :=
  ⟨h, fun _ _ => Iff.rfl, fun _ => rfl⟩

theorem drop_clone (s : MountSys) (a : Nat) : (s.clone a).drop a = s := by
  unfold clone drop InodeSys.setHandles
  dsimp only
  rw [update_self, update_idem, Nat.add_sub_cancel]
  rw [update_eq_self]

theorem caches_drop {fs : Nat} : (s.drop a).Caches id fs ↔ s.Caches id fs := by
  constructor
  · intro h
    obtain ⟨i, b, hi, hid, hfs⟩ := h
    exact ⟨i, b, hi, (setHandles_id ..).symm.trans hid, hfs⟩
  · intro h
    obtain ⟨i, b, hi, hid, hfs⟩ := h
    exact ⟨i, b, hi, (setHandles_id ..).trans hid, hfs⟩

theorem Held.not_caches {l : List Nat} (h : Held s l)
    (hnone : s.inodes.lookup id = none) (fs : Nat) : ¬ s.Caches id fs := by
  intro hc
  obtain ⟨i, b, hi, hid, -⟩ := hc
  have hall := List.findSome?_eq_none_iff.mp hnone i
    (List.mem_range.mpr (h.bound i b hi).1)
  rw [hi, Option.bind_some, if_pos hid] at hall
  cases hall

theorem acquireRaw_caches {fs : Nat} (hnone : s.inodes.lookup id = none)
    (h : s.acquireRaw id fs = some (s', a)) : s'.Caches id fs := by
  unfold acquireRaw at h
  split at h
  next => cases h
  next =>
    rw [hnone] at h
    obtain ⟨⟨t, slot⟩, -, heq⟩ := Option.map_eq_some_iff.mp h
    cases heq
    refine ⟨slot, t.inodes.next, ?_, ?_, ?_⟩
    · show update t.inodes.slots slot _ slot = _
      rw [update_self]
    · show (update t.inodes.heap _ _ _).id = _
      rw [update_self]
    · show update t.owner _ _ _ = _
      rw [update_self]

/-- A failed mount has dropped its directory and done nothing else. -/
theorem Held.mountOn_error {dev : DevNum} {dirInode : Nat}
    (h : Held s [dirInode]) {opens : Bool} {e : MountErrno}
    (hmount : s.mountOn dev dirInode opens = some (s', .error e)) :
    (s' = s.drop dirInode ∧ ¬ (s.inodes.lookup ⟨dev, rootInodeNumber⟩ = none ∧
        none ∉ s.table ∧ opens = true ∧ ∃ fileType,
          s.fileType dirInode = some fileType ∧
            s.mountChecks dev dirInode fileType = none)) ∨
      (s.inodes.lookup ⟨dev, rootInodeNumber⟩ = none ∧ none ∉ s.table ∧
        opens = true ∧ (∃ fileType, s.fileType dirInode = some fileType ∧
          s.mountChecks dev dirInode fileType = none) ∧
        ∃ fs, s'.Caches ⟨dev, rootInodeNumber⟩ fs) := by
  unfold MountSys.mountOn at hmount
  split at hmount
  next => cases hmount
  next fileType htype =>
    split at hmount
    next e' hcheck =>
      cases hmount
      refine .inl ⟨rfl, fun hc => ?_⟩
      obtain ⟨-, -, -, fileType', htype', hnone⟩ := hc
      rw [htype] at htype'
      cases htype'
      rw [hcheck] at hnone
      cases hnone
    next hcheck =>
      split at hmount
      next hopens =>
        dsimp only at hmount
        split at hmount
        next => cases hmount
        next t root hacq =>
          have htable := (h.acquireRaw hacq).2.1
          split at hmount
          next =>
            obtain ⟨-, heq⟩ := Prod.mk.inj (Option.some.inj hmount)
            cases heq
          next hins =>
            have hfull := insert_eq_none.mp hins
            rw [htable] at hfull
            cases hmount
            cases hlookup : s.inodes.lookup ⟨dev, rootInodeNumber⟩ with
            | none =>
              refine .inr ⟨rfl, hfull, hopens, ⟨fileType, htype, hcheck⟩,
                s.freshFs, ?_⟩
              rw [caches_drop, caches_drop]
              exact acquireRaw_caches hlookup hacq
            | some b =>
              refine .inl ⟨?_, fun hc => (by cases hc.1)⟩
              unfold MountSys.acquireRaw at hacq
              split at hacq
              next => cases hacq
              next =>
                rw [hlookup] at hacq
                cases hacq
                rw [drop_clone]
      next hopens =>
        cases hmount
        exact .inl ⟨rfl, fun hc => hopens hc.2.2.1⟩

end MountSys

/-- In every state that a run reaches and for every two names, a call of
`sys_mount` that fails leaves no trace exactly when it does not find the
mount table full with the root of the device not yet cached. -/
theorem failed_mount_no_trace_iff {disk : MinixDisk} {rootDev : DevNum}
    {s₀ s s' : MountSys} {ops : List MountOp}
    {rs : List (Except MountErrno Unit)}
    (hboot : MountSys.boot disk rootDev = some s₀)
    (hrun : exec MountSys.step s₀ ops = some (s, rs))
    {devName dirName : PathLookup} {opens : Bool} {e : MountErrno}
    (hmount : s.sysMount devName dirName opens = some (s', .error e)) :
    ∃ s₁, s.namesResolved devName dirName = some s₁ ∧
      (MountSys.NoTrace s s₁ s' ↔ ¬ s.LeavesRoot devName dirName opens) := by
  have hheld := MountSys.Held.exec hboot hrun
  unfold MountSys.sysMount at hmount
  split at hmount
  next => cases hmount
  next s₁ e' harg =>
    obtain ⟨hstays, -⟩ := hheld.mountArguments harg
    obtain ⟨rfl, -⟩ := Prod.mk.inj (Option.some.inj hmount)
    unfold MountSys.namesResolved
    rw [harg]
    refine ⟨s₁, rfl, fun _ hc => ?_, fun _ => .refl hstays.1⟩
    obtain ⟨s₂, dev, dirInode, fileType, harg', -⟩ := hc
    rw [harg] at harg'
    cases harg'
  next s₁ dev dirInode harg =>
    obtain ⟨hstays, ⟨_, heq, -⟩ | ⟨_, _, heq, hheld₁⟩⟩ :=
      hheld.mountArguments harg
    · cases heq
    · cases heq
      unfold MountSys.namesResolved
      rw [harg]
      refine ⟨s₁.drop dirInode, rfl, ?_⟩
      rcases hheld₁.mountOn_error hmount with ⟨rfl, hno⟩ | hleft
      · refine ⟨fun _ hc => ?_, fun _ => .refl hstays.1⟩
        obtain ⟨s₂, dev', dir', fileType, harg', htype, hcheck, hopens, hfull,
          hlookup⟩ := hc
        rw [harg] at harg'
        cases harg'
        rw [← hstays.1] at hfull
        exact hno ⟨hlookup, hfull, hopens, fileType, htype, hcheck⟩
      · obtain ⟨hlookup, hfull, hopens, ⟨fileType, htype, hcheck⟩, fs, hfs⟩ :=
          hleft
        constructor
        · intro hno
          have hbefore := (hno.cached _ fs).mp hfs
          rw [MountSys.caches_drop] at hbefore
          exact absurd hbefore (hheld₁.not_caches hlookup fs)
        · intro hno
          rw [hstays.1] at hfull
          exact absurd ⟨s₁, dev, dirInode, fileType, harg, htype, hcheck,
            hopens, hfull, hlookup⟩ hno

/-- Seven devices are mounted beside the root, and the special file and the
directory for one more are in use. -/
def MountOp.fill : List MountOp :=
  [2, 3, 4, 5, 6, 7, 8].map .mountNode ++
    [.resolve ⟨⟨0x301#16⟩, 9#16⟩, .resolve ⟨⟨0x301#16⟩, 25#16⟩]

def InodeId.ninth : InodeId := ⟨⟨0x309#16⟩, rootInodeNumber⟩

/-- The theorem at a call that finds the table full. -/
theorem failed_mount_no_trace_iff_full :
    ∃ s₀ s rs s' e, MountSys.boot .nodes ⟨0x301#16⟩ = some s₀ ∧
      exec MountSys.step s₀ MountOp.fill = some (s, rs) ∧
      s.sysMount (.inRoot 9) (.inRoot 25) true = some (s', .error e) ∧
      ∃ s₁, s.namesResolved (.inRoot 9) (.inRoot 25) = some s₁ ∧
        (MountSys.NoTrace s s₁ s' ↔
          ¬ s.LeavesRoot (.inRoot 9) (.inRoot 25) true) := by
  obtain ⟨s₀, s, rs, hboot, hrun, hcall⟩ := MountSys.after_state
    MountOp.fill (P := fun s =>
      ((s.sysMount (.inRoot 9) (.inRoot 25) true).map fun r => r.2.isOk)
        = some false) (by decide)
  obtain ⟨⟨s', r⟩, hmount, hr⟩ := Option.map_eq_some_iff.mp hcall
  cases r with
  | ok u => cases hr
  | error e =>
    exact ⟨s₀, s, rs, s', e, hboot, hrun, hmount,
      failed_mount_no_trace_iff hboot hrun hmount⟩

/-- The call fails and leaves the root inode of its device in the cache,
loaded for a file system that is gone; before the call it was not there. -/
theorem failed_mount_leaves_root :
    ∃ s₀ s rs s' e fs, MountSys.boot .nodes ⟨0x301#16⟩ = some s₀ ∧
      exec MountSys.step s₀ MountOp.fill = some (s, rs) ∧
      s.sysMount (.inRoot 9) (.inRoot 25) true = some (s', .error e) ∧
      s'.Caches .ninth fs ∧ s'.upgrade fs = false ∧
      ¬ s.Caches .ninth fs ∧ ¬ MountSys.NoTrace s s s' := by
  obtain ⟨s₀, s, rs, hboot, hrun, hnone, hcall⟩ := MountSys.after_state
    MountOp.fill (P := fun s => s.inodes.lookup .ninth = none ∧
      ((s.sysMount (.inRoot 9) (.inRoot 25) true).map fun r =>
        (r.2.isOk, (r.1.inodes.lookup .ninth).map fun a =>
          r.1.upgrade (r.1.owner a))) = some (false, some false))
    (by decide +kernel)
  obtain ⟨⟨s', r⟩, hmount, hr⟩ := Option.map_eq_some_iff.mp hcall
  obtain ⟨hok, hdead⟩ := Prod.mk.inj hr
  obtain ⟨a, hlookup, hdead⟩ := Option.map_eq_some_iff.mp hdead
  obtain ⟨i, hi, hid⟩ := InodeSys.lookup_some hlookup
  have hbefore := (MountSys.Held.exec hboot hrun).not_caches hnone
  have hafter : s'.Caches .ninth (s'.owner a) := ⟨i, a, hi, hid, rfl⟩
  cases r with
  | ok u => cases hok
  | error e =>
    refine ⟨s₀, s, rs, s', e, s'.owner a, hboot, hrun, hmount, hafter, hdead,
      hbefore _, fun h => ?_⟩
    exact hbefore _ ((h.cached _ _).mp hafter)

end LinuxRs.Fs
