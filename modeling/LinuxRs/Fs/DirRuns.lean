/-
Runs of directory calls: the link counts stay exact and the directories
stay a tree, as long as every call is plain.
-/
import LinuxRs.Fs.DirMoves

namespace LinuxRs.Fs.DirFs

open LinuxRs.Lib
open NameTree (Proper beside)

variable {s s' : DirFs} {r : Except FsErrno Unit}

theorem unchanged {e : Except FsErrno Unit}
    (h : some (s, e) = some (s', r)) : s' = s :=
  (Prod.mk.inj (Option.some.inj h)).1.symm

/-- A call that leaves `..` of all directories alone and makes none. -/
structure Calm (s s' : DirFs) : Prop where
  ok : s'.Ok
  live : ∀ p, (s'.inode p).Live → (s.inode p).Live
  same : ∀ p, (s.inode p).Live →
    (s'.inode p).find dotdot = (s.inode p).find dotdot

theorem Ok.calm (h : s.Ok) (heq : s' = s) : Calm s s' := by
  subst heq
  exact ⟨h, fun _ hp => hp, fun _ _ => rfl⟩

-- ======== a replaced name

/-- The state of `rename` after the name at the new place went, if there
was one. -/
structure Displaced (s s' : DirFs) (dir : InodeId) (base : Name) : Prop where
  ok : s'.Ok
  dirLive : (s'.inode dir).Live
  live : ∀ p, (s'.inode p).Live → (s.inode p).Live
  kept : ∀ p n x, (s.inode p).Live → (s.inode p).find n = some x → Proper n →
    (s'.inode p).Live
  look : ∀ p n, (s'.inode p).find n
    = if p = dir ∧ n = base then none else (s.inode p).find n
  fileType : ∀ p, (s'.inode p).fileType = (s.inode p).fileType

theorem Displaced.up {dir : InodeId} {base : Name}
    (h : Displaced s s' dir base) (hbase : Proper base) (p : InodeId) :
    (s'.inode p).find dotdot = (s.inode p).find dotdot := by
  rw [h.look, if_neg fun hb => hbase.2 hb.2.symm]

theorem Displaced.calm {dir : InodeId} {base : Name}
    (h : Displaced s s' dir base) (hbase : Proper base) : Calm s s' :=
  ⟨h.ok, h.live, fun p _ => h.up hbase p⟩

section Displace

variable {dir id : InodeId} {base : Name} {m : InodeNumber} {i : TreeInode}

variable (h : s.Ok) (hlive : (s.inode dir).Live) (hbase : Proper base)

include h hlive in
theorem Ok.displaced_none (hfree : (s.inode dir).find base = none) :
    Displaced s s dir base := by
  refine ⟨h, hlive, fun p hp => hp, fun p n x hp _ _ => hp, fun p n => ?_,
    fun p => rfl⟩
  split
  next hb => rw [hb.1, hb.2, hfree]
  next => rfl

include h hlive in
theorem Ok.displaced_file (hf : (s.inode dir).find base = some m)
    (hfile : (s.inode (beside dir m)).fileType ≠ .directory)
    (hi : (s.inode dir).removeEntry base = some i) :
    Displaced s ((s.setInode dir i).setLinks (beside dir m)
      (((s.setInode dir i).inode (beside dir m)).linkCount - 1#8)) dir base := by
  have hsame := removeEntry_same hi
  have hkeep : ((s.setInode dir i).inode (beside dir m)).fileType
      ≠ .directory := by
    rw [fileType_setInode hsame.1]
    exact hfile
  have hl : ∀ v p, (((s.setInode dir i).setLinks (beside dir m) v).inode p).Live
      ↔ (s.inode p).Live := fun v p =>
    (live_setLinks (.inl hkeep) p).trans (live_setInode hsame p)
  refine ⟨h.unlink hlive hf hfile hi, (hl _ dir).mpr hlive,
    fun p hp => (hl _ p).mp hp, fun p n x hp _ _ => (hl _ p).mpr hp,
    fun p n => ?_, fun p => ?_⟩
  · rw [find_setLinks, h.shape.find_setInode_removed hlive hi]
  · rw [fileType_setLinks, fileType_setInode hsame.1]

include h hlive hbase in
theorem Ok.displaced_dir (hf : (s.inode dir).find base = some m)
    (hdir : (s.inode (beside dir m)).fileType = .directory)
    (hempty : (s.inode (beside dir m)).isEmptyDirectory = true)
    (hdrop : Dropped s s' dir base (beside dir m) i) :
    Displaced s s' dir base := by
  have hl := h.live_dropped hlive hbase hf hdir hdrop
  have hne := (h.parent_of_named hlive hbase hf hdir).2.1
  refine ⟨h.dropDirectory hlive hbase hf hdir hdrop hempty,
    (hl dir).mpr ⟨hlive, hne.symm⟩, fun p hp => ((hl p).mp hp).1,
    fun p n x hp hx hn => (hl p).mpr ⟨hp, ?_⟩, h.find_dropped hlive hdrop,
    fileType_dropped hdrop⟩
  intro heq
  subst heq
  rcases TreeInode.find_of_empty hempty hx with hdot | hdot
  · exact hn.1 hdot
  · exact hn.2 hdot

include h hlive hbase in
/-- What stood at the new name is gone, file or empty directory. -/
theorem Ok.displace {oldIsDir : Bool}
    (huncovered : oldIsDir = true → ∀ m, (s.inode dir).find base = some m →
      s.mounts.mountedRootAt (beside dir m) = none ∨
        (s.inode (s.mounts.cross (beside dir m))).isEmptyDirectory = false)
    (hcall : s.displace dir base oldIsDir = some (s', .ok ())) :
    Displaced s s' dir base ∧ (((s.inode dir).find base = none ∧ s' = s) ∨
        (oldIsDir = true → (s'.inode dir).linkCount ≠ 255#8)) := by
  unfold DirFs.displace at hcall
  split at hcall
  next hnone =>
    cases hcall
    exact ⟨h.displaced_none hlive hnone, .inl ⟨hnone, rfl⟩⟩
  next m hf =>
    split at hcall
    next => cases hcall
    next id ht =>
      dsimp only at hcall
      split at hcall
      next => cases hcall
      next hnotdir =>
        split at hcall
        next => cases hcall
        next hisdir =>
          split at hcall
          next => cases hcall
          next hfull =>
            split at hcall
            next hd =>
              have hd : (s.inode id).fileType = .directory := by simpa using hd
              have hempty : (s.inode id).isEmptyDirectory = true := by
                simpa [hd] using hfull
              have hold : oldIsDir = true := by simpa [hd] using hisdir
              have hid : id = beside dir m := by
                apply h.shape.target_uncovered ht
                rcases huncovered hold m hf with hnone | hfull
                · exact hnone
                · rw [← h.shape.target_eq ht, hempty] at hfull
                  cases hfull
              subst hid
              have hpar := h.parent_of_named hlive hbase hf hd
              split at hcall
              next => cases hcall
              next s₁ hs₁ =>
                cases hcall
                obtain ⟨i, hdrop⟩ := dropped hpar.2.1 hs₁
                refine ⟨h.displaced_dir hlive hbase hf hd hempty hdrop,
                  .inr fun _ => ?_⟩
                rw [hdrop.parent]
                intro hmax
                have hpred := links_pred hlive.2
                rw [show (s.inode dir).linkCount - 1#8 = 255#8 from hmax] at hpred
                have hlt := (s.inode dir).linkCount.isLt
                simp only [BitVec.toNat_ofNat] at hpred
                omega
            next hd =>
              have hd : (s.inode id).fileType ≠ .directory := by simpa using hd
              have hold : oldIsDir ≠ true := by
                intro hold
                exact hnotdir ⟨hold, by simpa using hd⟩
              have hid := h.shape.target_file ht hd
              subst hid
              split at hcall
              next => cases hcall
              next s₁ hs₁ =>
                cases hcall
                obtain ⟨i, hi, rfl⟩ := Option.map_eq_some_iff.mp hs₁
                exact ⟨h.displaced_file hlive hf hd hi,
                  .inr fun hyes => absurd hyes hold⟩

theorem displace_error {oldIsDir : Bool} {e : FsErrno}
    (hcall : s.displace dir base oldIsDir = some (s', .error e)) : s' = s := by
  unfold DirFs.displace at hcall
  dsimp only at hcall
  repeat' split at hcall
  all_goals cases hcall <;> rfl

end Displace

-- ======== the rename

/-- What a `rename` that changes something has checked and found. -/
structure Moving (s : DirFs) (c : Caller) (oldDir : InodeId) (oldBase : Name)
    (newDir : InodeId) (newBase : Name) (number : InodeNumber)
    (old : InodeId) : Prop where
  oldLive : (s.inode oldDir).Live
  newLive : (s.inode newDir).Live
  oldProper : Proper oldBase
  newProper : Proper newBase
  device : newDir.device = oldDir.device
  found : (s.inode oldDir).find oldBase = some number
  target : s.target oldDir number = some old
  other : (s.inode newDir).find newBase ≠ some number

theorem proper_of_not_bad {base : Name} (h : ¬ badName base) : Proper base :=
  ⟨fun heq => h (.inr (.inl heq)), fun heq => h (.inr (.inr heq))⟩

theorem live_of_not_bad {c : Caller} {dir : InodeId} {base : Name}
    (hs : ¬ (base ≠ [] ∧ s.searchable c dir = false)) (h : ¬ badName base) :
    (s.inode dir).Live := by
  apply live_of_searchable (c := c)
  cases hd : s.searchable c dir with
  | true => rfl
  | false => exact absurd ⟨fun heq => h (.inl heq), hd⟩ hs

theorem eq_of_number {p q : InodeId} (hdev : q.device = p.device)
    (hnum : p.inodeNumber = q.inodeNumber) : q = p := by
  rw [← NameTree.beside_eq hdev, ← hnum, NameTree.beside_self]

theorem refused {e : FsErrno} {P : Prop}
    (h : some (s, Except.error e) = some (s', r)) :
    s' = s ∧ (r = .ok () → P) := by
  cases h
  exact ⟨rfl, fun hr => nomatch hr⟩

/-- A `rename` changes nothing, or displaces what is there and splices. -/
theorem sysRename_cases {c : Caller} {oldDir newDir : InodeId}
    {oldBase newBase : Name} {room : Bool}
    (hcall : s.sysRename c oldDir oldBase newDir newBase room = some (s', r)) :
    (s' = s ∧ (r = .ok () → ∃ number,
      (s.inode oldDir).find oldBase = some number ∧
      (s.inode newDir).find newBase = some number)) ∨
    ∃ number old s₁, Moving s c oldDir oldBase newDir newBase number old ∧
      ((s.inode old).fileType = .directory →
        oldDir.inodeNumber ≠ newDir.inodeNumber →
        s.ancestorCheck old number maxPathDepth newDir = some (.ok ())) ∧
      s.displace newDir newBase ((s.inode old).fileType = .directory)
        = some (s₁, .ok ()) ∧
      s₁.splice old number oldDir oldBase newDir newBase
        (((s.inode old).fileType = .directory) &&
          !(decide (oldDir.inodeNumber = newDir.inodeNumber))) room
        = some (s', r) := by
  unfold sysRename at hcall
  rw [ite_eq_iff] at hcall
  rcases hcall with ⟨-, hcall⟩ | ⟨hs₁, hcall⟩
  · exact .inl (refused hcall)
  rw [ite_eq_iff] at hcall
  rcases hcall with ⟨-, hcall⟩ | ⟨hob, hcall⟩
  · exact .inl (refused hcall)
  rw [ite_eq_iff] at hcall
  rcases hcall with ⟨-, hcall⟩ | ⟨hs₂, hcall⟩
  · exact .inl (refused hcall)
  rw [ite_eq_iff] at hcall
  rcases hcall with ⟨-, hcall⟩ | ⟨hnb, hcall⟩
  · exact .inl (refused hcall)
  rw [ite_eq_iff] at hcall
  rcases hcall with ⟨-, hcall⟩ | ⟨hdev, hcall⟩
  · exact .inl (refused hcall)
  rw [ite_eq_iff] at hcall
  rcases hcall with ⟨-, hcall⟩ | ⟨-, hcall⟩
  · exact .inl (refused hcall)
  split at hcall
  next => exact .inl (refused hcall)
  next number hf =>
    split at hcall
    next => cases hcall
    next old ht =>
      dsimp only at hcall
      split at hcall
      next hself =>
        refine .inl ⟨unchanged hcall, fun _ => ⟨number, hf, ?_⟩⟩
        rw [← hself.2, eq_of_number (not_not.mp hdev).symm
          (of_decide_eq_true hself.1)]
        exact hf
      next =>
        split at hcall
        next hdone =>
          exact .inl ⟨unchanged hcall, fun _ => ⟨number, hf, hdone⟩⟩
        next hother =>
          split at hcall
          next => cases hcall
          next => exact .inl (refused hcall)
          next hcheck =>
            split at hcall
            next => cases hcall
            next s₁ e hdis =>
              obtain rfl := displace_error hdis
              exact .inl (refused hcall)
            next s₁ hdis =>
              refine .inr ⟨number, old, s₁, ⟨?_, ?_, ?_, ?_, ?_,
                hf, ht, hother⟩, ?_, hdis, hcall⟩
              · exact live_of_not_bad hs₁ hob
              · exact live_of_not_bad hs₂ hnb
              · exact proper_of_not_bad hob
              · exact proper_of_not_bad hnb
              · exact (not_not.mp hdev).symm
              · intro hd hne
                simpa [hd, hne] using hcheck

/-- An `unlink` changes nothing, or takes the name of a file. -/
theorem sysUnlink_cases {c : Caller} {dir : InodeId} {base : Name}
    (hcall : s.sysUnlink c dir base = some (s', r)) :
    (s' = s ∧ r ≠ .ok ()) ∨ ∃ n id s₁, ¬ s.searchable c dir = false ∧
      (s.inode dir).find base = some n ∧ s.target dir n = some id ∧
      (s.inode id).fileType ≠ .directory ∧ s.removeEntry dir base = some s₁ ∧
      s' = s₁.setLinks id ((s₁.inode id).linkCount - 1#8) := by
  unfold sysUnlink at hcall
  rw [ite_eq_iff] at hcall
  rcases hcall with ⟨-, hcall⟩ | ⟨hs, hcall⟩
  · exact .inl (refused hcall)
  rw [ite_eq_iff] at hcall
  rcases hcall with ⟨-, hcall⟩ | ⟨-, hcall⟩
  · exact .inl (refused hcall)
  split at hcall
  next => exact .inl (refused hcall)
  next n hf =>
    split at hcall
    next => cases hcall
    next id ht =>
      split at hcall
      next => exact .inl (refused hcall)
      next hfile =>
        split at hcall
        next => exact .inl (refused hcall)
        next s₁ hrem =>
          exact .inr ⟨n, id, s₁, fun hb => hs (.inr hb), hf, ht, hfile, hrem,
            unchanged hcall⟩

/-- An `rmdir` changes nothing, or drops an empty directory. -/
theorem sysRmdir_cases {c : Caller} {dir : InodeId} {base : Name}
    (hcall : s.sysRmdir c dir base = some (s', r)) :
    (s' = s ∧ r ≠ .ok ()) ∨ ∃ n id, ¬ s.searchable c dir = false ∧
      (s.inode dir).find base = some n ∧ s.target dir n = some id ∧
      (s.inode id).fileType = .directory ∧
      ¬ (s.inode id).isEmptyDirectory = false ∧
      s.dropDirectory dir base id = some s' := by
  unfold sysRmdir at hcall
  rw [ite_eq_iff] at hcall
  rcases hcall with ⟨-, hcall⟩ | ⟨hs, hcall⟩
  · exact .inl (refused hcall)
  rw [ite_eq_iff] at hcall
  rcases hcall with ⟨-, hcall⟩ | ⟨-, hcall⟩
  · exact .inl (refused hcall)
  split at hcall
  next => exact .inl (refused hcall)
  next n hf =>
    split at hcall
    next => cases hcall
    next id ht =>
      split at hcall
      next => exact .inl (refused hcall)
      next hdir =>
        split at hcall
        next => exact .inl (refused hcall)
        next hempty =>
          split at hcall
          next => exact .inl (refused hcall)
          next s₁ hdrop =>
            obtain rfl := unchanged hcall
            exact .inr ⟨n, id, fun hb => hs (.inr hb), hf, ht,
              not_not.mp hdir, hempty, hdrop⟩

/-- The calls that keep the counts exact: no count at its limit goes up,
`mkdir` gets the block for the dots, and a directory that goes or changes
its parent has a proper name and is no mount point. -/
def Plain (s : DirFs) : DirOp → Prop
  | .link _ oldDir oldBase _ _ _ =>
    ∀ number, (s.inode oldDir).find oldBase = some number →
      (s.inode (beside oldDir number)).linkCount ≠ 255#8
  | .mkdir _ dir _ _ _ _ own =>
    (s.inode dir).linkCount ≠ 255#8 ∧ own = true
  | .rmdir _ dir base =>
    ∀ number, (s.inode dir).find base = some number →
      (Proper base ∧ s.mounts.mountedRootAt (beside dir number) = none) ∨
      (s.inode (s.mounts.cross (beside dir number))).isEmptyDirectory = false
  | .rename _ oldDir oldBase newDir newBase _ =>
    ∀ number, (s.inode oldDir).find oldBase = some number → (oldDir ≠ newDir →
        s.mounts.mountedRootAt (beside oldDir number) = none ∧
        ((s.inode newDir).find newBase = none →
          (s.inode (beside oldDir number)).fileType = .directory →
          (s.inode newDir).linkCount ≠ 255#8)) ∧
      ∀ m, (s.inode newDir).find newBase = some m →
        s.mounts.mountedRootAt (beside newDir m) = none ∨
        (s.inode (s.mounts.cross (beside newDir m))).isEmptyDirectory = false
  | _ => True

section Rename

variable {c : Caller} {oldDir newDir old : InodeId} {oldBase newBase : Name}
  {number : InodeNumber} {room : Bool}

/-- The moved inode is in order at its new place, whichever of the kinds of
move it is. -/
theorem Ok.splice {s₁ : DirFs} (h : s.Ok)
    (hm : Moving s c oldDir oldBase newDir newBase number old)
    (hdis : Displaced s s₁ newDir newBase)
    (haway : (s.inode old).fileType = .directory →
      oldDir.inodeNumber ≠ newDir.inodeNumber → old = beside oldDir number ∧
        newDir ≠ old ∧ (s₁.inode newDir).linkCount ≠ 255#8)
    (hcall : s₁.splice old number oldDir oldBase newDir newBase
      (((s.inode old).fileType = .directory) &&
        !(decide (oldDir.inodeNumber = newDir.inodeNumber))) room
      = some (s', r)) :
    Calm s s' ∨ (s'.Ok ∧ Reparent s s' old newDir ∧
      (s.inode old).fileType = .directory ∧
      oldDir.inodeNumber ≠ newDir.inodeNumber) := by
  have hol := hdis.kept oldDir oldBase number hm.oldLive hm.found hm.oldProper
  have hf : (s₁.inode oldDir).find oldBase = some number := by
    rw [hdis.look, if_neg fun hb => hm.other (by rw [← hb.1, ← hb.2, hm.found])]
    exact hm.found
  have hfree : (s₁.inode newDir).find newBase = none := by
    rw [hdis.look, if_pos ⟨rfl, rfl⟩]
  unfold DirFs.splice at hcall
  split at hcall
  next =>
    rw [unchanged hcall]
    exact .inl (hdis.calm hm.newProper)
  next s₂ hs₂ =>
    obtain ⟨i, hi, rfl⟩ := Option.map_eq_some_iff.mp hs₂
    obtain ⟨j, hj⟩ := TreeInode.removeEntry_isSome (find_old_name hf hfree hi)
    rw [removeEntry_eq hj] at hcall
    have hsw := hdis.ok.swap hol hdis.dirLive hm.device hf hfree hi hj
    have htype := hdis.fileType (beside oldDir number)
    dsimp only at hcall
    split at hcall
    next hmoves =>
      have hmoves : (s.inode old).fileType = .directory ∧
          oldDir.inodeNumber ≠ newDir.inodeNumber := by simpa using hmoves
      obtain ⟨rfl, hnd, hmax⟩ := haway hmoves.1 hmoves.2
      obtain ⟨hok, hre⟩ := hdis.ok.spliceAway hol hdis.dirLive hm.device hf
        hfree hm.oldProper hm.newProper (htype.trans hmoves.1)
        (fun heq => hmoves.2 (by rw [heq])) hnd hmax hsw hcall
      refine .inr ⟨hok, ⟨hm.device, hm.newLive, ?_, hre.up, ?_⟩, hmoves⟩
      · exact fun p hp => (hre.live p hp).imp_right (hdis.live p)
      · exact fun p hp => (hre.same p hp).trans (hdis.up hm.newProper p)
    next hmoves =>
      rw [unchanged hcall]
      suffices hok : DirFs.Ok ((s₁.setInode newDir i).setInode oldDir j) by
        refine .inl ⟨hok, ?_, ?_⟩
        · exact fun p hp => hdis.live p ((hsw.live p).mp hp)
        · intro p _
          rw [hsw.look, if_neg fun hb => hm.newProper.2 hb.2.symm,
            if_neg fun hb => hm.oldProper.2 hb.2.symm]
          exact hdis.up hm.newProper p
      by_cases hd : (s₁.inode (beside oldDir number)).fileType = .directory
      · -- A directory that stays with its parent.
        refine hdis.ok.spliceHere hol hf hfree hm.oldProper hm.newProper hd ?_
          hsw
        apply eq_of_number hm.device
        by_contra hnum
        have hfile : (s.inode old).fileType ≠ .directory := by
          intro hod
          exact hmoves (by simpa using ⟨hod, hnum⟩)
        apply hfile
        rw [h.shape.target_file hm.target hfile, ← htype]
        exact hd
      · exact hdis.ok.spliceFile hol hdis.dirLive hm.device hf hfree hi hd hj

/-- The directory that a `rename` moves and its new parent, with the check
that the move passed. -/
def Moved (s : DirFs) (op : DirOp) (d q : InodeId) : Prop :=
  ∃ c oldDir oldBase newBase room,
    op = .rename c oldDir oldBase q newBase room ∧ d.device = oldDir.device ∧
    (s.inode oldDir).find oldBase = some d.inodeNumber ∧
    s.ancestorCheck d d.inodeNumber maxPathDepth q = some (.ok ())

/-- A plain `rename` moves one directory at most. -/
theorem Ok.rename (h : s.Ok)
    (hplain : Plain s (.rename c oldDir oldBase newDir newBase room))
    (hcall : s.sysRename c oldDir oldBase newDir newBase room = some (s', r)) :
    Calm s s' ∨ (s'.Ok ∧ ∃ d, Reparent s s' d newDir ∧
      Moved s (.rename c oldDir oldBase newDir newBase room) d newDir) := by
  rcases sysRename_cases hcall with ⟨hsame, -⟩ | ⟨number, old, s₁, hm, hcheck,
    hdis, hsplice⟩
  · exact .inl (h.calm hsame)
  · obtain ⟨haway, hcover⟩ := hplain number hm.found
    obtain ⟨hd, hlinks⟩ := h.displace hm.newLive hm.newProper
      (fun _ => hcover) hdis
    have hold : oldDir.inodeNumber ≠ newDir.inodeNumber →
        old = beside oldDir number := fun hnum =>
      h.shape.target_uncovered hm.target
        (haway fun heq => hnum (by rw [heq])).1
    have hready : (s.inode old).fileType = .directory →
        oldDir.inodeNumber ≠ newDir.inodeNumber → old = beside oldDir number ∧
          newDir ≠ old ∧ (s₁.inode newDir).linkCount ≠ 255#8 := by
      intro hdir hnum
      refine ⟨hold hnum, ?_, ?_⟩
      · intro heq
        have hstart := hcheck hdir hnum
        unfold maxPathDepth ancestorCheck at hstart
        rw [if_pos ⟨by rw [heq], by rw [heq, hold hnum]; rfl⟩] at hstart
        cases hstart
      · rcases hlinks with ⟨hnone, rfl⟩ | hlinks
        · exact (haway fun heq => hnum (by rw [heq])).2 hnone
            (hold hnum ▸ hdir)
        · exact hlinks (by simpa using hdir)
    rcases h.splice hm hd hready hsplice with hcalm | ⟨hok, hre, hdir, hnum⟩
    · exact .inl hcalm
    · obtain rfl := hold hnum
      exact .inr ⟨hok, _, hre, c, oldDir, oldBase, newBase, room, rfl, rfl,
        hm.found, hcheck hdir hnum⟩

end Rename

-- ======== the other calls

section Calls

variable {c : Caller} {dir : InodeId} {base : Name} {mode : BitVec 12}
  {fresh : Option InodeNumber} {room own : Bool}

theorem live_of_not_false (hs : ¬ s.searchable c dir = false) :
    (s.inode dir).Live :=
  live_of_searchable (c := c) (by simpa using hs)

theorem setLinks_withFresh (s : DirFs) (id : InodeId) (f : TreeInode)
    (v : BitVec 8) : (s.withFresh id f).setLinks id v
      = s.withFresh id { f with linkCount := v } := by
  unfold setLinks
  rw [withFresh_self]
  unfold withFresh setInode
  rw [Function.update_idem]

/-- What an allocation comes to: nothing, or a fresh inode with its name. -/
theorem allocAndLink_cases {name : Name} {fileType : InodeType}
    {links : BitVec 8} {r : Except FsErrno InodeNumber}
    (hcall : s.allocAndLink c dir name fileType mode links fresh room
      = some (s', r)) :
    (s' = s ∧ r = .error .nospc) ∨ ∃ number : InodeNumber, number ≠ 0#16 ∧
      s.used (beside dir number) = false ∧
      ((s' = s.withFresh (beside dir number)
          { fill c fileType mode links with linkCount := 0#8 } ∧
        r = .error .error) ∨
      ∃ i, ((s.withFresh (beside dir number)
          (fill c fileType mode links)).inode dir).addEntry name number room
          = some i ∧
        s' = (s.withFresh (beside dir number)
          (fill c fileType mode links)).setInode dir i ∧ r = .ok number) := by
  unfold allocAndLink at hcall
  split at hcall
  next =>
    cases hcall
    exact .inl ⟨rfl, rfl⟩
  next number =>
    dsimp only at hcall
    split at hcall
    next => cases hcall
    next hnew =>
      have hnew : s.used ⟨dir.device, number⟩ = false ∧ number ≠ 0#16 := by
        simpa using hnew
      refine .inr ⟨number, hnew.2, hnew.1, ?_⟩
      split at hcall
      next s₁ hs₁ =>
        cases hcall
        obtain ⟨i, hi, rfl⟩ := Option.map_eq_some_iff.mp hs₁
        exact .inr ⟨i, hi, rfl, rfl⟩
      next =>
        cases hcall
        exact .inl ⟨setLinks_withFresh .., rfl⟩

theorem allocAndLink_eq {name : Name} {fileType : InodeType}
    {links : BitVec 8} {number : InodeNumber} {i : TreeInode}
    (hnum : number ≠ 0#16) (hunused : s.used (beside dir number) = false)
    (hi : ((s.withFresh (beside dir number)
      (fill c fileType mode links)).inode dir).addEntry name number room
        = some i) :
    s.allocAndLink c dir name fileType mode links (some number) room
      = some ((s.withFresh (beside dir number)
          (fill c fileType mode links)).setInode dir i, .ok number) := by
  have hadd := addEntry_eq hi
  unfold withFresh NameTree.beside at hadd
  unfold allocAndLink
  dsimp only
  rw [if_neg, hadd]
  · rfl
  · intro hor
    rcases hor with hu | hz
    · rw [show s.used ⟨dir.device, number⟩ = false from hunused] at hu
      cases hu
    · exact hnum hz

variable (h : s.Ok)

include h in
theorem Ok.calm_dead {x : InodeId} {f : TreeInode} {b : Bool}
    (hzero : (s.inode x).linkCount = 0#8) (hlinks : f.linkCount = 0#8)
    (hentries : f.entries = []) :
    Calm s { s.setInode x f with used := Function.update s.used x b } := by
  have hne : ∀ p, ((s.setInode x f).inode p).Live ∨ (s.inode p).Live →
      p ≠ x := by
    intro p hp heq
    subst heq
    rw [setInode_self] at hp
    rcases hp with hp | hp
    · exact hp.2 hlinks
    · exact hp.2 hzero
  refine ⟨h.made_and_lost hzero hlinks hentries, ?_, ?_⟩
  · intro p hp
    have hp : ((s.setInode x f).inode p).Live := hp
    rw [setInode_of_ne (hne p (.inl hp))] at hp
    exact hp
  · intro p hp
    rw [setInode_of_ne (hne p (.inr hp))]

include h in
/-- A made file moves no directory. -/
theorem Ok.calm_made (hlive : (s.inode dir).Live)
    (hfree : (s.inode dir).find base = none) {number : InodeNumber}
    (hc : number ≠ 0#16) (hunused : s.used (beside dir number) = false)
    {f i : TreeInode} (hfile : f.fileType ≠ .directory)
    (hone : f.linkCount = 1#8) (hentries : f.entries = [])
    (hi : (s.inode dir).addEntry base number room = some i) :
    Calm s ((s.withFresh (beside dir number) f).setInode dir i) := by
  have hne := h.fresh_ne hunused hlive
  have hsame : (s.withFresh (beside dir number) f).inode dir = s.inode dir :=
    withFresh_of_ne hne
  have hbase := h.shape.proper_of_free hlive hfree
  refine ⟨h.made hlive hfree hc hunused hfile hone hentries hi, ?_, ?_⟩
  · intro p hp
    rw [← hsame] at hi
    have hp := (live_setInode (addEntry_same hi) p).mp hp
    have hpx : p ≠ beside dir number := by
      intro heq
      subst heq
      rw [withFresh_self] at hp
      exact hfile hp.1
    rw [withFresh_of_ne hpx] at hp
    exact hp
  · intro p hp
    rw [← hsame] at hi hfree
    rw [find_setInode_added hfree hc hi, if_neg fun hb => hbase.2 hb.2.symm,
      withFresh_of_ne (h.fresh_ne hunused hp)]

include h in
theorem Ok.createNode {fileType : InodeType} (hfile : fileType ≠ .directory)
    (hlive : (s.inode dir).Live) (hfree : (s.inode dir).find base = none)
    (hcall : s.createNode c dir base fileType mode fresh room = some (s', r)) :
    Calm s s' := by
  unfold DirFs.createNode at hcall
  cases halloc : s.allocAndLink c dir base fileType mode 1#8 fresh room with
  | none =>
    rw [halloc] at hcall
    cases hcall
  | some answer =>
    obtain ⟨s₁, e⟩ := answer
    have hstate : s' = s₁ := by
      rw [halloc] at hcall
      cases e with
      | error e => exact unchanged hcall
      | ok number => exact unchanged hcall
    subst hstate
    rcases allocAndLink_cases halloc with ⟨rfl, -⟩ | ⟨number, hnum, hunused,
      ⟨rfl, -⟩ | ⟨i, hi, rfl, -⟩⟩
    · exact h.calm rfl
    · exact h.calm_dead (h.shape.free _ (.inl hunused)) rfl rfl
    · rw [withFresh_of_ne (h.fresh_ne hunused hlive)] at hi
      exact h.calm_made hlive hfree hnum hunused hfile rfl rfl hi

include h in
theorem Ok.creat
    (hcall : s.sysCreat c dir base mode fresh room = some (s', r)) :
    Calm s s' := by
  unfold sysCreat at hcall
  split at hcall
  next => exact h.calm (unchanged hcall)
  next =>
    split at hcall
    next => exact h.calm (unchanged hcall)
    next hs =>
      split at hcall
      next => exact h.calm (unchanged hcall)
      next hfree =>
        split at hcall
        next => exact h.calm (unchanged hcall)
        next =>
          exact h.createNode (by decide) (live_of_not_false hs)
            (by simpa using hfree) hcall

include h in
/-- Making a node keeps the tree and adds no directory. -/
theorem Ok.mknod {fileType : InodeType}
    (hcall : s.sysMknod c dir base fileType mode fresh room = some (s', r)) :
    Calm s s' := by
  unfold sysMknod at hcall
  split at hcall
  next => exact h.calm (unchanged hcall)
  next =>
    split at hcall
    next => exact h.calm (unchanged hcall)
    next hs =>
      split at hcall
      next => exact h.calm (unchanged hcall)
      next =>
        split at hcall
        next => exact h.calm (unchanged hcall)
        next hfree =>
          split at hcall
          next => exact h.calm (unchanged hcall)
          next htype =>
            refine h.createNode (fun heq => htype ?_)
              (live_of_not_false fun hb => hs (.inr hb))
              (by simpa using hfree) hcall
            rw [heq]
            decide

omit h in
/-- The three entries of a new directory, and its parent's link. -/
theorem createDirectory_eq {number : InodeNumber} {i i₂ i₃ : TreeInode}
    (hne : dir ≠ beside dir number)
    (halloc : s.allocAndLink c dir base .directory mode 2#8 fresh room
      = some ((s.withFresh (beside dir number)
          (fill c .directory mode 2#8)).setInode dir i, .ok number))
    (hlinks : i.linkCount = (s.inode dir).linkCount)
    (hi₂ : (fill c .directory mode 2#8).addEntry dot number own = some i₂)
    (hi₃ : i₂.addEntry dotdot dir.inodeNumber own = some i₃) :
    s.createDirectory c dir base mode fresh room own
      = some (((((s.withFresh (beside dir number)
          (fill c .directory mode 2#8)).setInode dir i).setInode
          (beside dir number) i₂).setInode (beside dir number) i₃).setLinks dir
          ((s.inode dir).linkCount + 1#8), .ok ()) := by
  have hnew : ((s.withFresh (beside dir number)
      (fill c .directory mode 2#8)).setInode dir i).inode
      (beside dir number) = fill c .directory mode 2#8 := by
    rw [setInode_of_ne hne.symm, withFresh_self]
  rw [← hnew] at hi₂
  unfold createDirectory
  rw [halloc]
  dsimp only
  rw [show (⟨dir.device, number⟩ : InodeId) = beside dir number from rfl,
    addEntry_eq hi₂]
  dsimp only
  rw [addEntry_eq (by rw [setInode_self]; exact hi₃)]
  dsimp only
  rw [setInode_of_ne hne, setInode_of_ne hne, setInode_self, hlinks]

include h in
/-- A plain `mkdir` adds one directory at most. -/
theorem Ok.makeDirectory
    (hplain : Plain s (.mkdir c dir base mode fresh room own))
    (hcall : s.sysMkdir c dir base mode fresh room own = some (s', r)) :
    Calm s s' ∨ (s'.Ok ∧ ∃ d, Reparent s s' d dir ∧ ¬ (s.inode d).Live) := by
  obtain ⟨hmax, rfl⟩ := hplain
  unfold sysMkdir at hcall
  split at hcall
  next => exact .inl (h.calm (unchanged hcall))
  next hs =>
    split at hcall
    next => exact .inl (h.calm (unchanged hcall))
    next =>
      split at hcall
      next => exact .inl (h.calm (unchanged hcall))
      next hfree =>
        have hlive := live_of_not_false fun hb => hs (.inr hb)
        have hfree : (s.inode dir).find base = none := by simpa using hfree
        cases halloc : s.allocAndLink c dir base .directory mode 2#8 fresh
          room with
        | none =>
          unfold createDirectory at hcall
          rw [halloc] at hcall
          cases hcall
        | some answer =>
          obtain ⟨s₁, e⟩ := answer
          have hlost : ∀ e', e = .error e' → s' = s₁ := by
            intro e' he
            unfold createDirectory at hcall
            rw [halloc, he] at hcall
            exact unchanged hcall
          rcases allocAndLink_cases halloc with ⟨rfl, he⟩ | ⟨number, hnum,
            hunused, ⟨rfl, he⟩ | ⟨i, hi, rfl, rfl⟩⟩
          · exact .inl (h.calm (hlost _ he))
          · rw [hlost _ he]
            exact .inl (h.calm_dead (h.shape.free _ (.inl hunused)) rfl rfl)
          · have hne := h.fresh_ne hunused hlive
            rw [withFresh_of_ne hne] at hi
            obtain ⟨i₂, hi₂⟩ := addEntry_of_room
              (fill c .directory mode 2#8) dot number
            obtain ⟨i₃, hi₃⟩ := addEntry_of_room i₂ dotdot dir.inodeNumber
            obtain ⟨t, ht, hok, hre⟩ := h.mkdir hlive hnum hunused rfl rfl rfl
              hfree hmax hi hi₂ hi₃
            rw [createDirectory_eq hne halloc (addEntry_same hi).2 hi₂ hi₃,
              ← ht] at hcall
            obtain rfl := unchanged hcall
            refine .inr ⟨hok, _, hre, fun hl => ?_⟩
            exact h.fresh_ne hunused hl rfl

theorem calm_link {old : InodeId} {v : BitVec 8} {i : TreeInode}
    (hok : DirFs.Ok ((s.setInode dir i).setLinks old v))
    (hfree : (s.inode dir).find base = none) (hnum : old.inodeNumber ≠ 0#16)
    (hi : (s.inode dir).addEntry base old.inodeNumber room = some i)
    (hfile : (s.inode old).fileType ≠ .directory)
    (hbase : Proper base) : Calm s ((s.setInode dir i).setLinks old v) := by
  have hsame := addEntry_same hi
  have hkeep : ((s.setInode dir i).inode old).fileType ≠ .directory := by
    rw [fileType_setInode hsame.1]
    exact hfile
  refine ⟨hok, ?_, ?_⟩
  · intro p hp
    exact (live_setInode hsame p).mp ((live_setLinks (.inl hkeep) p).mp hp)
  · intro p _
    rw [find_setLinks, find_setInode_added hfree hnum hi,
      if_neg fun hb => hbase.2 hb.2.symm]

include h in
theorem Ok.linkCall {oldDir : InodeId} {oldBase : Name}
    (hplain : Plain s (.link c oldDir oldBase dir base room))
    (hcall : s.sysLink c oldDir oldBase dir base room = some (s', r)) :
    Calm s s' := by
  unfold sysLink at hcall
  rw [ite_eq_iff] at hcall
  rcases hcall with ⟨-, hcall⟩ | ⟨-, hcall⟩
  · exact h.calm (unchanged hcall)
  rw [ite_eq_iff] at hcall
  rcases hcall with ⟨-, hcall⟩ | ⟨hsold, hcall⟩
  · exact h.calm (unchanged hcall)
  split at hcall
  next => exact h.calm (unchanged hcall)
  next number hf =>
    split at hcall
    next => cases hcall
    next old ht =>
      rw [ite_eq_iff] at hcall
      rcases hcall with ⟨-, hcall⟩ | ⟨hfile, hcall⟩
      · exact h.calm (unchanged hcall)
      rw [ite_eq_iff] at hcall
      rcases hcall with ⟨-, hcall⟩ | ⟨hs, hcall⟩
      · exact h.calm (unchanged hcall)
      rw [ite_eq_iff] at hcall
      rcases hcall with ⟨-, hcall⟩ | ⟨hdev, hcall⟩
      · exact h.calm (unchanged hcall)
      rw [ite_eq_iff] at hcall
      rcases hcall with ⟨-, hcall⟩ | ⟨-, hcall⟩
      · exact h.calm (unchanged hcall)
      rw [ite_eq_iff] at hcall
      rcases hcall with ⟨-, hcall⟩ | ⟨hfree, hcall⟩
      · exact h.calm (unchanged hcall)
      split at hcall
      next => exact h.calm (unchanged hcall)
      next s₁ hs₁ =>
        obtain ⟨i, hi, rfl⟩ := Option.map_eq_some_iff.mp hs₁
        have hold := h.shape.target_file ht hfile
        have hside : beside dir old.inodeNumber = old :=
          NameTree.beside_eq (not_not.mp hdev).symm
        have hlinks := h.links_of_named (live_of_not_false hsold) hf
        rw [← hold] at hlinks
        have hlive := live_of_not_false fun hb => hs (.inr hb)
        have hfree : (s.inode dir).find base = none := by
          simpa using hfree
        have hnum := (h.shape.used_of_links hlinks).2
        have hlink := h.link (c := old.inodeNumber) hlive hfree
          hnum (by rw [hside]; exact hfile) (by rw [hside]; exact hlinks)
          (by rw [hside, hold]; exact hplain number hf) hi
        rw [hside] at hlink
        rw [unchanged hcall]
        exact calm_link hlink hfree hnum hi hfile
          (h.shape.proper_of_free hlive hfree)

include h in
theorem Ok.unlinkCall
    (hcall : s.sysUnlink c dir base = some (s', r)) : Calm s s' := by
  rcases sysUnlink_cases hcall with
    ⟨hsame, -⟩ | ⟨n, id, s₁, hs, hf, ht, hfile, hrem, rfl⟩
  · exact h.calm hsame
  · obtain ⟨i, hi, rfl⟩ := Option.map_eq_some_iff.mp hrem
    obtain rfl := h.shape.target_file ht hfile
    have hlive := live_of_not_false hs
    exact (h.displaced_file hlive hf hfile hi).calm
      (h.shape.proper_of_file hlive hf hfile)

include h in
theorem Ok.removeDirectory (hplain : Plain s (.rmdir c dir base))
    (hcall : s.sysRmdir c dir base = some (s', r)) : Calm s s' := by
  rcases sysRmdir_cases hcall with
    ⟨hsame, -⟩ | ⟨n, id, hs, hf, ht, hdir, hempty, hdrop⟩
  · exact h.calm hsame
  · have hlive := live_of_not_false hs
    rcases hplain n hf with ⟨hbase, hfree⟩ | hfull
    · obtain rfl := h.shape.target_uncovered ht hfree
      obtain ⟨-, hne, -, -⟩ := h.parent_of_named hlive hbase hf hdir
      obtain ⟨i, hdropped⟩ := dropped hne hdrop
      exact (h.displaced_dir hlive hbase hf hdir (by simpa using hempty)
        hdropped).calm hbase
    · rw [← h.shape.target_eq ht] at hfull
      exact absurd hfull hempty

include h in
theorem Ok.evictCall {id : InodeId} (hcall : s.evict id = some (s', r)) :
    Calm s s' := by
  unfold DirFs.evict at hcall
  split at hcall
  next hdead =>
    rw [unchanged hcall]
    exact h.calm_dead hdead.2 hdead.2 rfl
  next => cases hcall

theorem Ok.effect (h : s.Ok) {op : DirOp} (hplain : Plain s op)
    (hstep : s.step op = some s') :
    Calm s s' ∨ (s'.Ok ∧ ∃ d q, Reparent s s' d q ∧
      (¬ (s.inode d).Live ∨ Moved s op d q)) := by
  obtain ⟨⟨s₁, r⟩, hcall, rfl⟩ := Option.map_eq_some_iff.mp hstep
  cases op with
  | creat c dir base mode fresh room => exact .inl (h.creat hcall)
  | mknod c dir base fileType mode fresh room => exact .inl (h.mknod hcall)
  | link c oldDir oldBase dir base room => exact .inl (h.linkCall hplain hcall)
  | unlink c dir base => exact .inl (h.unlinkCall hcall)
  | mkdir c dir base mode fresh room own =>
    refine (h.makeDirectory hplain hcall).imp_right fun hmade => ?_
    obtain ⟨hok, d, hre, hnew⟩ := hmade
    exact ⟨hok, d, dir, hre, .inl hnew⟩
  | rmdir c dir base => exact .inl (h.removeDirectory hplain hcall)
  | rename c oldDir oldBase newDir newBase room =>
    refine (h.rename hplain hcall).imp_right fun hmove => ?_
    obtain ⟨hok, d, hre, hmoved⟩ := hmove
    exact ⟨hok, d, newDir, hre, .inr hmoved⟩
  | evict id => exact .inl (h.evictCall hcall)

theorem Ok.step (h : s.Ok) {op : DirOp} (hplain : Plain s op)
    (hstep : s.step op = some s') : s'.Ok := by
  rcases h.effect hplain hstep with hcalm | ⟨hok, -⟩
  · exact hcalm.ok
  · exact hok

end Calls

end LinuxRs.Fs.DirFs
