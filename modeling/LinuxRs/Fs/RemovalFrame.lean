/-
What `unlink`, `rmdir` and `rename` touch beside names
(kernel/src/syscall/handler/fs/path.rs, kernel/src/fs/mount.rs): link
counts, inode bitmaps and zone bitmaps.

# The zones

The directory calls ask for zones in one place: an entry written beyond
the blocks of its directory (`write_directory_entry`, `map_block_id` with
`create`). The zones come from the bitmap of the inode's own device and go
into its own block map. `ZonedFs.Calls` puts this beside a call of `DirFs`.
A deleted inode gives its zones and its number back when it leaves the
inode table, which is a step of its own (`DirFs.evict`); `Freeable` says
which inodes wait for it.

# The frame

A removal is about the directories it edits and the inodes that the
removed entries name themselves, on the directory's device. The inode
whose count changes is looked up across mounts instead. The two differ
when an entry that goes for good covers a mounted root, and only then.
-/
import LinuxRs.Fs.DirTree

namespace LinuxRs.Fs

open LinuxRs.Driver (DevNum)
open NameTree (beside)

-- ======== the zones

def TreeInode.blocks (inode : TreeInode) : Nat :=
  (inode.entries.length + 63) / 64

/-- The file systems with the zones of every inode and the zone bitmap of
every device. -/
structure ZonedFs where
  dirs : DirFs
  zones : InodeId → List (BitVec 16)
  marked : DevNum → BitVec 16 → Bool

/-- A call that succeeds, with the zones `alloc_zone` hands out in it: the
directory that grows by a block gets them, tables included. -/
structure ZonedFs.Calls (z : ZonedFs) (op : DirOp)
    (given : InodeId → List (BitVec 16)) (z' : ZonedFs) : Prop where
  call : z.dirs.call op = some (z'.dirs, .ok ())
  asked : ∀ id, given id ≠ [] →
    (z.dirs.inode id).blocks < (z'.dirs.inode id).blocks
  free : ∀ id, ∀ x ∈ given id, z.marked id.device x = false
  zones : ∀ id, z'.zones id = z.zones id ++ given id
  marked : ∀ dev x, z'.marked dev x = true ↔
    z.marked dev x = true ∨ ∃ id, id.device = dev ∧ x ∈ given id

-- ======== the removals

/-- The two calls that remove an entry. -/
inductive Removal
  | unlink (c : Caller) (dir : InodeId) (base : Name)
  | rmdir (c : Caller) (dir : InodeId) (base : Name)
  | rename (c : Caller) (oldDir : InodeId) (oldBase : Name) (newDir : InodeId)
      (newBase : Name) (room : Bool)

namespace Removal

def op : Removal → DirOp
  | unlink c dir base => .unlink c dir base
  | rmdir c dir base => .rmdir c dir base
  | rename c oldDir oldBase newDir newBase room =>
    .rename c oldDir oldBase newDir newBase room

def entries : Removal → List (InodeId × Name)
  | unlink _ dir base => [(dir, base)]
  | rmdir _ dir base => [(dir, base)]
  | rename _ oldDir oldBase newDir newBase _ =>
    [(oldDir, oldBase), (newDir, newBase)]

/-- The inodes a removal is about: the edited directories, and what the
entries name themselves. -/
def Concerns (s : DirFs) (rm : Removal) (id : InodeId) : Prop :=
  ∃ e ∈ rm.entries, id = e.1 ∨
    (id.device = e.1.device ∧ (s.inode e.1).find e.2 = some id.inodeNumber)

/-- An entry that covers a mounted root goes for good. What `unlink` takes
is no directory, and the old name of a `rename` only moves. -/
def Uncovers (s : DirFs) : Removal → Prop
  | unlink _ _ _ => False
  | rmdir _ dir base => ∃ n, (s.inode dir).find base = some n ∧
      s.mounts.isMountPoint (beside dir n) = true
  | rename _ oldDir oldBase newDir newBase _ =>
    ∃ n, (s.inode newDir).find newBase = some n ∧
      (s.inode oldDir).find oldBase ≠ some n ∧
      s.mounts.isMountPoint (beside newDir n) = true

end Removal

/-- An inode that is in use and has no link left. -/
def DirFs.Freeable (s : DirFs) (id : InodeId) : Prop :=
  s.used id = true ∧ (s.inode id).linkCount = 0#8

/-- Link counts and bitmaps change only for the inodes the removal is
about; and no covered entry goes with a link of the root on top of it. -/
structure ZonedFs.Framed (z : ZonedFs) (rm : Removal) (z' : ZonedFs) : Prop where
  links : ∀ id, ¬ rm.Concerns z.dirs id →
    (z'.dirs.inode id).linkCount = (z.dirs.inode id).linkCount
  used : ∀ id, ¬ rm.Concerns z.dirs id → z'.dirs.used id = z.dirs.used id
  freeable : ∀ id, ¬ rm.Concerns z.dirs id →
    (z'.dirs.Freeable id ↔ z.dirs.Freeable id)
  zones : ∀ id, ¬ rm.Concerns z.dirs id → z'.zones id = z.zones id
  marked : ∀ dev x, z'.marked dev x ≠ z.marked dev x →
    ∃ id, rm.Concerns z.dirs id ∧ id.device = dev ∧ x ∈ z'.zones id
  covered : ∀ e ∈ rm.entries, ∀ n root, (z.dirs.inode e.1).find e.2 = some n →
    z.dirs.mounts.mountedRootAt (beside e.1 n) = some root →
    (z'.dirs.inode e.1).find e.2 ≠ some n →
    (z'.dirs.inode root).linkCount = (z.dirs.inode root).linkCount

-- ======== what edits spare

namespace DirFs

variable {s s' s'' : DirFs} {P Q : InodeId → Prop}

/-- Counts and blocks stay outside a set, and the inode bitmap stays. -/
structure Spares (P : InodeId → Prop) (s s' : DirFs) : Prop where
  links : ∀ id, ¬ P id → (s'.inode id).linkCount = (s.inode id).linkCount
  blocks : ∀ id, ¬ P id → (s'.inode id).blocks = (s.inode id).blocks
  used : s'.used = s.used

theorem Spares.refl (P : InodeId → Prop) (s : DirFs) : Spares P s s :=
  ⟨fun _ _ => rfl, fun _ _ => rfl, rfl⟩

theorem Spares.trans (h : Spares P s s') (h' : Spares P s' s'') :
    Spares P s s'' where
  links := fun id hid => (h'.links id hid).trans (h.links id hid)
  blocks := fun id hid => (h'.blocks id hid).trans (h.blocks id hid)
  used := h'.used.trans h.used

theorem Spares.mono (h : Spares P s s') (hPQ : ∀ id, P id → Q id) :
    Spares Q s s' where
  links := fun id hid => h.links id fun hp => hid (hPQ id hp)
  blocks := fun id hid => h.blocks id fun hp => hid (hPQ id hp)
  used := h.used

theorem spares_setInode {a : InodeId} {i : TreeInode}
    (h : ¬ P a → i.linkCount = (s.inode a).linkCount ∧
      i.blocks = (s.inode a).blocks) : Spares P s (s.setInode a i) := by
  refine ⟨fun id hid => ?_, fun id hid => ?_, rfl⟩
  · by_cases heq : id = a
    · subst heq
      rw [setInode_self]
      exact (h hid).1
    · rw [setInode_of_ne heq]
  · by_cases heq : id = a
    · subst heq
      rw [setInode_self]
      exact (h hid).2
    · rw [setInode_of_ne heq]

theorem spares_setLinks {a : InodeId} (ha : P a) (v : BitVec 8) :
    Spares P s (s.setLinks a v) :=
  spares_setInode fun hno => absurd ha hno

theorem blocks_removeEntry {inode inode' : TreeInode} {name : Name}
    (h : inode.removeEntry name = some inode') :
    inode'.linkCount = inode.linkCount ∧ inode'.blocks = inode.blocks := by
  obtain ⟨a, e, b, hentries, -, -, rfl⟩ := TreeInode.removeEntry_cases h
  refine ⟨rfl, ?_⟩
  unfold TreeInode.blocks
  rw [hentries]
  simp

theorem spares_removeEntry {dir : InodeId} {base : Name}
    (h : s.removeEntry dir base = some s') : Spares P s s' := by
  unfold DirFs.removeEntry at h
  rw [Option.map_eq_some_iff] at h
  obtain ⟨i, hi, rfl⟩ := h
  exact spares_setInode fun _ => blocks_removeEntry hi

theorem spares_addEntry {dir : InodeId} {base : Name} {c : InodeNumber}
    {room : Bool} (hdir : P dir) (h : s.addEntry dir base c room = some s') :
    Spares P s s' := by
  unfold DirFs.addEntry at h
  rw [Option.map_eq_some_iff] at h
  obtain ⟨i, hi, rfl⟩ := h
  exact spares_setInode fun hno => absurd hdir hno

/-- An entry that is replaced by one of the same inode frees nothing. -/
theorem spares_replace {dir : InodeId} {base : Name} {c : InodeNumber}
    {s₁ : DirFs} (hrem : s.removeEntry dir base = some s₁)
    (hadd : s₁.addEntry dir base c false = some s') : Spares P s s' := by
  unfold DirFs.removeEntry at hrem
  rw [Option.map_eq_some_iff] at hrem
  obtain ⟨i, hi, rfl⟩ := hrem
  unfold DirFs.addEntry at hadd
  rw [Option.map_eq_some_iff, setInode_self] at hadd
  obtain ⟨j, hj, rfl⟩ := hadd
  rw [setInode_setInode]
  refine spares_setInode fun _ => ?_
  obtain ⟨a, e, b, hentries, -, -, rfl⟩ := TreeInode.removeEntry_cases hi
  unfold TreeInode.addEntry at hj
  split at hj
  next slot hslot =>
    cases hj
    refine ⟨rfl, ?_⟩
    unfold TreeInode.blocks
    rw [hentries]
    simp
  next hnone =>
    -- The wiped entry is a hole, so the new one goes there.
    have hhole := List.findIdx?_eq_none_iff.mp hnone ⟨0#16, []⟩ (by simp)
    simp at hhole

-- ======== names across mounts

theorem root_device (h : s.mounts.Ok) {id root : InodeId}
    (hroot : s.mounts.mountedRootAt id = some root) :
    root.device ≠ id.device := by
  obtain ⟨m, hm, hpoint, rfl⟩ := h.mountedRootAt_iff.mp hroot
  rw [h.root m hm]
  exact fun heq => h.outside m id hm hpoint heq.symm

theorem target_cases (h : s.mounts.Ok) {dir id : InodeId} {n : InodeNumber}
    (ht : s.target dir n = some id) :
    (s.mounts.isMountPoint (beside dir n) = false ∧ id = beside dir n) ∨
      s.mounts.mountedRootAt (beside dir n) = some id := by
  have hid := target_eq_cross h ht
  unfold MountTable.cross at hid
  unfold MountTable.isMountPoint
  cases hr : s.mounts.mountedRootAt (beside dir n) with
  | none =>
    rw [hr] at hid
    exact .inl ⟨rfl, hid⟩
  | some r =>
    rw [hr] at hid
    rw [hid]
    exact .inr rfl

-- ======== the calls

variable {c : Caller} {dir : InodeId} {base : Name}

theorem sysUnlink_ok (h : s.sysUnlink c dir base = some (s', .ok ())) :
    ∃ n id s₁, (s.inode dir).find base = some n ∧ s.target dir n = some id ∧
      (s.inode id).fileType ≠ .directory ∧ s.removeEntry dir base = some s₁ ∧
      s' = s₁.setLinks id ((s₁.inode id).linkCount - 1#8) := by
  rcases sysUnlink_cases h with ⟨-, hr⟩ | ⟨n, id, s₁, -, hdone⟩
  · exact absurd rfl hr
  · exact ⟨n, id, s₁, hdone⟩

theorem sysRmdir_ok (h : s.sysRmdir c dir base = some (s', .ok ())) :
    ∃ n id, (s.inode dir).find base = some n ∧ s.target dir n = some id ∧
      s.dropDirectory dir base id = some s' := by
  rcases sysRmdir_cases h with ⟨-, hr⟩ | ⟨n, id, -, hf, ht, -, -, hdrop⟩
  · exact absurd rfl hr
  · exact ⟨n, id, hf, ht, hdrop⟩

/-- What was displaced: nothing, a file, or an empty directory. -/
theorem displace_ok {isDir : Bool}
    (h : s.displace dir base isDir = some (s', .ok ())) :
    ((s.inode dir).find base = none ∧ s' = s) ∨
    ∃ n id, (s.inode dir).find base = some n ∧ s.target dir n = some id ∧
      (((s.inode id).fileType = .directory ∧
          s.dropDirectory dir base id = some s') ∨
        ((s.inode id).fileType ≠ .directory ∧ ∃ s₁ v,
          s.removeEntry dir base = some s₁ ∧ s' = s₁.setLinks id v)) := by
  unfold displace at h
  split at h
  next hnone =>
    cases h
    exact .inl ⟨hnone, rfl⟩
  next n hf =>
    split at h
    next => cases h
    next id ht =>
      refine .inr ⟨n, id, hf, ht, ?_⟩
      dsimp only at h
      split at h
      next => cases h
      next =>
        split at h
        next => cases h
        next =>
          split at h
          next => cases h
          next =>
            split at h
            next hdir =>
              split at h
              next => cases h
              next s₁ hdrop =>
                cases h
                exact .inl ⟨of_decide_eq_true hdir, hdrop⟩
            next hdir =>
              split at h
              next => cases h
              next s₁ hrem =>
                cases h
                exact .inr ⟨fun heq => hdir (decide_eq_true heq), s₁, _, hrem,
                  rfl⟩

theorem dropDirectory_spares {id : InodeId}
    (h : s.dropDirectory dir base id = some s') :
    Spares (fun x => x = dir ∨ x = id) s s' ∧
      (id ≠ dir → (s'.inode id).linkCount = 0#8) := by
  unfold dropDirectory at h
  rw [Option.map_eq_some_iff] at h
  obtain ⟨s₁, hrem, rfl⟩ := h
  constructor
  · apply (spares_removeEntry hrem).trans
    apply (spares_setLinks (.inr rfl) 0#8).trans
    exact spares_setLinks (.inl rfl) _
  · intro hne
    rw [setLinks_of_ne hne, setLinks_self]

/-- The splice itself frees nothing. -/
theorem splice_spares {old oldDir newDir : InodeId} {number : InodeNumber}
    {oldBase newBase : Name} {moves room : Bool}
    (h : s.splice old number oldDir oldBase newDir newBase moves room
      = some (s', .ok ())) :
    Spares (fun x => x = oldDir ∨ x = newDir) s s' := by
  unfold splice at h
  split at h
  next => cases h
  next s₁ hadd =>
    apply (spares_addEntry (.inr rfl) hadd).trans
    split at h
    next => cases h
    next s₂ hrem =>
      apply (spares_removeEntry hrem).trans
      split at h
      next =>
        unfold rewire at h
        split at h
        next => cases h
        next s₃ hup =>
          split at h
          next => cases h
          next s₄ hdown =>
            cases h
            apply (spares_replace hup hdown).trans
            apply (spares_setLinks (.inl rfl) _).trans
            exact spares_setLinks (.inr rfl) _
      next =>
        cases h
        exact Spares.refl _ _

end DirFs

-- ======== the frame

namespace Removal

variable {s s' : DirFs} {rm : Removal}

theorem concerns_dir {dir : InodeId} {base : Name}
    (h : (dir, base) ∈ rm.entries) : rm.Concerns s dir :=
  ⟨(dir, base), h, .inl rfl⟩

theorem concerns_named {dir : InodeId} {base : Name} {n : InodeNumber}
    (h : (dir, base) ∈ rm.entries) (hf : (s.inode dir).find base = some n) :
    rm.Concerns s (beside dir n) :=
  ⟨(dir, base), h, .inr ⟨rfl, hf⟩⟩

theorem not_concerns_root (hmounts : s.mounts.Ok)
    (hone : ∀ e ∈ rm.entries, ∀ e' ∈ rm.entries, e.1.device = e'.1.device)
    {e : InodeId × Name} (he : e ∈ rm.entries) {n : InodeNumber}
    {root : InodeId} (hroot : s.mounts.mountedRootAt (beside e.1 n) = some root) :
    ¬ rm.Concerns s root := by
  intro hcon
  obtain ⟨e', he', hor⟩ := hcon
  have hdev := DirFs.root_device hmounts hroot
  rw [NameTree.beside_device, hone e he e' he'] at hdev
  rcases hor with heq | heq
  · rw [heq] at hdev
    exact hdev rfl
  · exact hdev heq.1

theorem rename_one_device {c : Caller} {oldDir newDir : InodeId}
    {oldBase newBase : Name} {room : Bool}
    (h : newDir.device = oldDir.device) :
    ∀ e ∈ (rename c oldDir oldBase newDir newBase room).entries,
      ∀ e' ∈ (rename c oldDir oldBase newDir newBase room).entries,
        e.1.device = e'.1.device := by
  have hdir : ∀ e ∈ (rename c oldDir oldBase newDir newBase room).entries,
      e.1.device = oldDir.device := by
    intro e he
    rcases List.mem_pair.mp he with rfl | rfl
    · rfl
    · exact h
  exact fun e he e' he' => (hdir e he).trans (hdir e' he').symm

theorem one_device (hcall : s.call rm.op = some (s', .ok ())) : s' = s ∨
    ∀ e ∈ rm.entries, ∀ e' ∈ rm.entries, e.1.device = e'.1.device := by
  cases rm with
  | unlink c dir base =>
    right
    intro e he e' he'
    rw [List.mem_singleton.mp he, List.mem_singleton.mp he']
  | rmdir c dir base =>
    right
    intro e he e' he'
    rw [List.mem_singleton.mp he, List.mem_singleton.mp he']
  | rename c oldDir oldBase newDir newBase room =>
    rcases DirFs.sysRename_cases hcall with ⟨hsame, -⟩ | ⟨n, old, s₁, hm, -⟩
    · exact .inl hsame
    · exact .inr (rename_one_device hm.device)

/-- A removal frees the data of the inode it removed and of no other. -/
theorem spares (hmounts : s.mounts.Ok)
    (hroots : ∀ id root, s.mounts.mountedRootAt id = some root →
      (s.inode root).Live)
    (hno : ¬ rm.Uncovers s) (hcall : s.call rm.op = some (s', .ok ())) :
    DirFs.Spares (rm.Concerns s) s s' := by
  cases rm with
  | unlink c dir base =>
    obtain ⟨n, id, s₁, hf, ht, hfile, hrem, rfl⟩ := DirFs.sysUnlink_ok hcall
    have hid : id = beside dir n := by
      rcases DirFs.target_cases hmounts ht with ⟨-, hid⟩ | hroot
      · exact hid
      · exact absurd (hroots _ id hroot).1 hfile
    apply (DirFs.spares_removeEntry hrem).trans
    apply DirFs.spares_setLinks
    rw [hid]
    exact concerns_named (List.mem_singleton_self _) hf
  | rmdir c dir base =>
    obtain ⟨n, id, hf, ht, hdrop⟩ := DirFs.sysRmdir_ok hcall
    have hid : id = beside dir n := by
      rcases DirFs.target_cases hmounts ht with ⟨-, hid⟩ | hroot
      · exact hid
      · refine absurd ⟨n, hf, ?_⟩ hno
        unfold MountTable.isMountPoint
        rw [hroot]
        rfl
    apply (DirFs.dropDirectory_spares hdrop).1.mono
    intro x hx
    rcases hx with rfl | rfl
    · exact concerns_dir (List.mem_singleton_self _)
    · rw [hid]
      exact concerns_named (List.mem_singleton_self _) hf
  | rename c oldDir oldBase newDir newBase room =>
    rcases DirFs.sysRename_cases hcall with
      ⟨rfl, -⟩ | ⟨number, old, s₁, hm, -, hdis, hsplice⟩
    · exact DirFs.Spares.refl _ _
    · have hold : (oldDir, oldBase) ∈
          (rename c oldDir oldBase newDir newBase room).entries :=
        List.mem_cons_self
      have hnew : (newDir, newBase) ∈
          (rename c oldDir oldBase newDir newBase room).entries :=
        List.mem_cons_of_mem _ List.mem_cons_self
      have hend : DirFs.Spares
          ((rename c oldDir oldBase newDir newBase room).Concerns s) s₁ s' := by
        apply (DirFs.splice_spares hsplice).mono
        intro x hx
        rcases hx with rfl | rfl
        · exact concerns_dir hold
        · exact concerns_dir hnew
      refine DirFs.Spares.trans ?_ hend
      rcases DirFs.displace_ok hdis with ⟨-, rfl⟩ | ⟨n, id, hf, ht, hcleared⟩
      · exact DirFs.Spares.refl _ _
      · have hid : id = beside newDir n := by
          rcases DirFs.target_cases hmounts ht with ⟨-, hid⟩ | hroot
          · exact hid
          · refine absurd ⟨n, hf, ?_, ?_⟩ hno
            · intro hsame
              rw [hm.found, ← hf] at hsame
              exact hm.other hsame.symm
            · unfold MountTable.isMountPoint
              rw [hroot]
              rfl
        rcases hcleared with ⟨-, hdrop⟩ | ⟨-, s₂, v, hrem, rfl⟩
        · apply (DirFs.dropDirectory_spares hdrop).1.mono
          intro x hx
          rcases hx with rfl | rfl
          · exact concerns_dir hnew
          · rw [hid]
            exact concerns_named hnew hf
        · apply (DirFs.spares_removeEntry hrem).trans
          apply DirFs.spares_setLinks
          rw [hid]
          exact concerns_named hnew hf

/-- A removal over a mount point takes the mounted root away. -/
theorem uncovers_root (hmounts : s.mounts.Ok)
    (hroots : ∀ id root, s.mounts.mountedRootAt id = some root →
      (s.inode root).Live)
    (hyes : rm.Uncovers s) (hcall : s.call rm.op = some (s', .ok ())) :
    ∃ root, ¬ rm.Concerns s root ∧
      (s'.inode root).linkCount ≠ (s.inode root).linkCount := by
  -- The target of a covered entry is the root, and not its own directory.
  have hcross : ∀ {dir id : InodeId} {n : InodeNumber},
      s.mounts.isMountPoint (beside dir n) = true → s.target dir n = some id →
      s.mounts.mountedRootAt (beside dir n) = some id ∧ id ≠ dir := by
    intro dir id n hpoint ht
    rcases DirFs.target_cases hmounts ht with ⟨hfree, -⟩ | hroot
    · rw [hfree] at hpoint
      cases hpoint
    · refine ⟨hroot, fun heq => ?_⟩
      exact DirFs.root_device hmounts hroot (by rw [heq]; rfl)
  cases rm with
  | unlink c dir base => exact absurd hyes id
  | rmdir c dir base =>
    obtain ⟨n, hn, hpoint⟩ := hyes
    obtain ⟨n', id, hf, ht, hdrop⟩ := DirFs.sysRmdir_ok hcall
    obtain rfl : n = n' := Option.some.inj (hn.symm.trans hf)
    obtain ⟨hroot, hne⟩ := hcross hpoint ht
    refine ⟨id, ?_, ?_⟩
    · refine not_concerns_root hmounts ?_ (List.mem_singleton_self _) hroot
      intro e he e' he'
      rw [List.mem_singleton.mp he, List.mem_singleton.mp he']
    · rw [(DirFs.dropDirectory_spares hdrop).2 hne]
      exact fun heq => (hroots _ id hroot).2 heq.symm
  | rename c oldDir oldBase newDir newBase room =>
    obtain ⟨n, hn, hother, hpoint⟩ := hyes
    rcases DirFs.sysRename_cases hcall with
      ⟨-, hsame⟩ | ⟨number, old, s₁, hm, -, hdis, hsplice⟩
    · obtain ⟨number, hold, hnew⟩ := hsame rfl
      rw [hn] at hnew
      rw [hnew] at hother
      exact absurd hold hother
    · rcases DirFs.displace_ok hdis with ⟨hnone, -⟩ | ⟨n', id, hf, ht, hcleared⟩
      · rw [hn] at hnone
        cases hnone
      · obtain rfl : n = n' := Option.some.inj (hn.symm.trans hf)
        obtain ⟨hroot, hne⟩ := hcross hpoint ht
        have hdev := DirFs.root_device hmounts hroot
        have hlive := hroots _ id hroot
        rcases hcleared with ⟨-, hdrop⟩ | ⟨hfile, -⟩
        · refine ⟨id, ?_, ?_⟩
          · exact not_concerns_root hmounts (rename_one_device hm.device)
              (List.mem_cons_of_mem _ List.mem_cons_self) hroot
          · have hold : id ≠ oldDir := by
              intro heq
              rw [heq] at hdev
              exact hdev hm.device.symm
            rw [(DirFs.splice_spares hsplice).links id fun hx =>
                hx.elim hold hne, (DirFs.dropDirectory_spares hdrop).2 hne]
            exact fun heq => hlive.2 heq.symm
        · exact absurd hlive.1 hfile

end Removal

/-- A removal keeps to its frame if and only if no entry that covers a
mounted root goes for good. -/
theorem removal_framed_iff (z z' : ZonedFs) (rm : Removal)
    (given : InodeId → List (BitVec 16)) (hmounts : z.dirs.mounts.Ok)
    (hroots : ∀ id root, z.dirs.mounts.mountedRootAt id = some root →
      (z.dirs.inode root).Live)
    (hcall : z.Calls rm.op given z') :
    z.Framed rm z' ↔ ¬ rm.Uncovers z.dirs := by
  constructor
  · intro hframed hyes
    obtain ⟨root, hout, hne⟩ :=
      Removal.uncovers_root hmounts hroots hyes hcall.call
    exact hne (hframed.links root hout)
  · intro hno
    have hspares := Removal.spares hmounts hroots hno hcall.call
    have hgiven : ∀ id, ¬ rm.Concerns z.dirs id → given id = [] := by
      intro id hid
      by_contra hne
      have hgrown := hcall.asked id hne
      rw [hspares.blocks id hid] at hgrown
      exact Nat.lt_irrefl _ hgrown
    constructor
    case links => exact hspares.links
    case used =>
      intro id _
      rw [hspares.used]
    case freeable =>
      intro id hid
      unfold DirFs.Freeable
      rw [hspares.used, hspares.links id hid]
    case zones =>
      intro id hid
      rw [hcall.zones, hgiven id hid, List.append_nil]
    case marked =>
      intro dev x hne
      have hor := hcall.marked dev x
      cases hold : z.marked dev x with
      | true =>
        rw [hold, hor.mpr (.inl hold)] at hne
        exact absurd rfl hne
      | false =>
        have hnew : z'.marked dev x = true := by
          simpa [hold] using hne
        rcases hor.mp hnew with hbad | ⟨id, hdev, hx⟩
        · rw [hold] at hbad
          cases hbad
        · refine ⟨id, ?_, hdev, ?_⟩
          · by_contra hid
            rw [hgiven id hid] at hx
            cases hx
          · rw [hcall.zones]
            exact List.mem_append_right _ hx
    case covered =>
      intro e he n root _ hroot _
      rcases Removal.one_device hcall.call with hsame | hone
      · rw [hsame]
      · exact hspares.links root
          (Removal.not_concerns_root hmounts hone he hroot)

-- ======== a mounted disk

namespace DirFs

def floppyRoot : InodeId := ⟨⟨0x21c#16⟩, rootInodeNumber⟩

/-- Two directories in a line, with an empty disk mounted on the second. -/
def mounted : DirFs where
  inode := fun id =>
    if id = floppyRoot then lineInode 1 1 else (line 2).inode id
  used := fun id => id = floppyRoot || (line 2).used id
  mounts := ⟨[some ⟨disk, place 1, none⟩,
    some ⟨floppyRoot.device, floppyRoot, some (place 2)⟩]⟩

theorem mounted_ok : mounted.mounts.Ok := by
  have hboot : MountTable.Ok ⟨[some ⟨disk, place 1, none⟩, none]⟩ := by
    have hhas : ∀ m, MountTable.Has ⟨[some ⟨disk, place 1, none⟩, none]⟩ m →
        m = ⟨disk, place 1, none⟩ := by
      intro m hm
      rcases List.mem_pair.mp hm with hm | hm
      · exact Option.some.inj hm
      · cases hm
    have hpoint : ∀ m p, MountTable.Has ⟨[some ⟨disk, place 1, none⟩, none]⟩ m →
        m.mountPointInode ≠ some p := by
      intro m p hm
      rw [hhas m hm]
      intro hp
      cases hp
    constructor
    case root =>
      intro m hm
      rw [hhas m hm]
      rfl
    case device =>
      intro m hm
      rw [hhas m hm]
      decide
    case once =>
      intro m m' hm hm' _
      rw [hhas m hm, hhas m' hm']
    case covered => exact fun m p hm hp => absurd hp (hpoint m p hm)
    case outside => exact fun m p hm hp => absurd hp (hpoint m p hm)
    case coveredOnce =>
      intro m m' p hm hm' _ _
      rw [hhas m hm, hhas m' hm']
  exact @MountTable.Ok.sysMount _ _ hboot floppyRoot.device (by decide) true
    (place 2) (by decide) (by rfl)

theorem mounted_live (id root : InodeId)
    (h : mounted.mounts.mountedRootAt id = some root) :
    (mounted.inode root).Live := by
  obtain ⟨m, hm, hpoint, rfl⟩ := mounted_ok.mountedRootAt_iff.mp h
  rcases List.mem_pair.mp hm with hm | hm
  · rw [Option.some.inj hm] at hpoint
    cases hpoint
  · rw [Option.some.inj hm]
    exact ⟨rfl, by decide⟩

end DirFs

def ZonedFs.bare (s : DirFs) : ZonedFs := ⟨s, fun _ => [], fun _ _ => false⟩

theorem ZonedFs.bare_calls {s s' : DirFs} {op : DirOp}
    (h : s.call op = some (s', .ok ())) :
    (ZonedFs.bare s).Calls op (fun _ => []) (ZonedFs.bare s') where
  call := h
  asked := fun _ hne => absurd rfl hne
  free := nofun
  zones := fun _ => rfl
  marked := fun _ _ => by simp [bare]

def DirFs.after (s : DirFs) (op : DirOp) : DirFs := (s.step op).getD s

/-- A directory under a mounted disk gets another name. -/
theorem removal_framed_rename :
    DirFs.mounted.call (.rename DirFs.superuser (DirFs.place 1) ['a']
        (DirFs.place 1) ['b'] false)
      = some (DirFs.mounted.after (.rename DirFs.superuser (DirFs.place 1) ['a']
        (DirFs.place 1) ['b'] false), .ok ()) ∧
    (ZonedFs.bare DirFs.mounted).Framed
      (.rename DirFs.superuser (DirFs.place 1) ['a'] (DirFs.place 1) ['b'] false)
      (ZonedFs.bare (DirFs.mounted.after (.rename DirFs.superuser
        (DirFs.place 1) ['a'] (DirFs.place 1) ['b'] false))) := by
  have hcall : DirFs.mounted.call (.rename DirFs.superuser (DirFs.place 1) ['a']
        (DirFs.place 1) ['b'] false)
      = some (DirFs.mounted.after (.rename DirFs.superuser (DirFs.place 1) ['a']
        (DirFs.place 1) ['b'] false), .ok ()) := rfl
  refine ⟨hcall, ?_⟩
  refine (removal_framed_iff _ _ (.rename DirFs.superuser (DirFs.place 1) ['a']
    (DirFs.place 1) ['b'] false) _ DirFs.mounted_ok DirFs.mounted_live
    (ZonedFs.bare_calls hcall)).mpr ?_
  intro hyes
  obtain ⟨n, hn, -⟩ := hyes
  have hfree : (DirFs.mounted.inode (DirFs.place 1)).find ['b'] = none := rfl
  rw [show (ZonedFs.bare DirFs.mounted).dirs = DirFs.mounted from rfl, hfree]
    at hn
  cases hn

/-- `rmdir` of the mount point removes its name and takes the links of the
mounted root. -/
theorem rmdir_takes_mounted_root : ∃ z', (ZonedFs.bare DirFs.mounted).Calls
        (Removal.rmdir DirFs.superuser (DirFs.place 1) ['a']).op (fun _ => []) z' ∧
      (z'.dirs.inode (DirFs.place 1)).find ['a'] = none ∧
      (z'.dirs.inode DirFs.floppyRoot).linkCount = 0#8 ∧
      ¬ (ZonedFs.bare DirFs.mounted).Framed
        (.rmdir DirFs.superuser (DirFs.place 1) ['a']) z' := by
  have hcall : DirFs.mounted.call (.rmdir DirFs.superuser (DirFs.place 1) ['a'])
      = some (DirFs.mounted.after (.rmdir DirFs.superuser (DirFs.place 1) ['a']),
        .ok ()) := rfl
  refine ⟨_, ZonedFs.bare_calls hcall, rfl, rfl, ?_⟩
  intro hframed
  have hlinks := hframed.links DirFs.floppyRoot ?_
  · revert hlinks
    show ¬ (_ : BitVec 8) = _
    decide
  · intro hcon
    obtain ⟨e, he, hor⟩ := hcon
    rw [List.mem_singleton.mp he] at hor
    rcases hor with hor | hor
    · revert hor
      decide
    · revert hor
      decide

end LinuxRs.Fs
