/-
Every directory call keeps a consistent file system consistent, as long
as it is plain: no count wraps, `mkdir` gets the block for its dots,
`rmdir` is not asked for a dot, and no mount point is removed or moved.
-/
import LinuxRs.Fs.LinkCount

namespace LinuxRs.Fs.DirFs

open Function (update update_self update_of_ne)

open LinuxRs.Lib
open NameTree (Proper beside)

variable {s s' : DirFs} {more : InodeId → Int} {dir : InodeId} {base : Name}
  {c : InodeNumber} {room : Bool} {i : TreeInode}

-- ======== names across mounts

/-- What a name leads to is its inode, or the root that is mounted there. -/
theorem target_eq_cross (h : s.mounts.Ok) {id : InodeId}
    (ht : s.target dir c = some id) : id = s.mounts.cross (beside dir c) := by
  unfold target at ht
  split at ht
  next found hfound =>
    obtain rfl := Option.some.inj ht
    cases hfs : (s.mounts.findFs dir.device).isSome with
    | true =>
      have hres := h.resolveInode
        (show (s.mounts.findFs (beside dir c).device).isSome from hfs)
      have heq : Outcome.found found = .found (s.mounts.cross (beside dir c)) :=
        hfound.symm.trans hres
      cases heq
      rfl
    | false =>
      have hnone : s.mounts.findFs dir.device = none := by
        simpa using hfs
      unfold MountTable.resolveInode at hfound
      split at hfound
      next => cases hfound
      next =>
        simp only [MountTable.resolveInodeLoop, hnone] at hfound
        cases hfound
  next => cases ht

theorem Shape.target_eq (h : s.Shape) {id : InodeId}
    (ht : s.target dir c = some id) : id = s.mounts.cross (beside dir c) :=
  target_eq_cross h.mounts ht

theorem Shape.target_uncovered (h : s.Shape) {id : InodeId}
    (ht : s.target dir c = some id)
    (hfree : s.mounts.mountedRootAt (beside dir c) = none) :
    id = beside dir c := by
  rw [h.target_eq ht, MountTable.cross_of_uncovered hfree]

theorem Shape.target_file (h : s.Shape) {id : InodeId}
    (ht : s.target dir c = some id)
    (hfile : (s.inode id).fileType ≠ .directory) : id = beside dir c := by
  have hid := h.target_eq ht
  unfold MountTable.cross at hid
  cases hr : s.mounts.mountedRootAt (beside dir c) with
  | none =>
    rw [hr] at hid
    exact hid
  | some r =>
    rw [hr, Option.getD_some] at hid
    exact absurd (h.roots _ r hr).1 (hid ▸ hfile)

theorem Shape.proper_of_free (h : s.Shape) (hlive : (s.inode dir).Live)
    (hfree : (s.inode dir).find base = none) : Proper base := by
  constructor
  · intro heq
    have hself := h.tree.self dir hlive
    rw [heq] at hfree
    rw [show s.tree.look dir dot = none from hfree] at hself
    cases hself
  · intro heq
    obtain ⟨q, hq⟩ := h.tree.dotdot_isSome (d := dir) hlive
    rw [heq] at hfree
    rw [show s.tree.look dir dotdot = none from hfree] at hq
    cases hq

theorem Shape.proper_of_file (h : s.Shape) (hlive : (s.inode dir).Live)
    (hf : (s.inode dir).find base = some c)
    (hfile : (s.inode (beside dir c)).fileType ≠ .directory) :
    Proper base := by
  constructor
  · intro heq
    have hself := h.tree.self dir hlive
    rw [heq] at hf
    rw [show s.tree.look dir dot = some c from hf] at hself
    rw [Option.some.inj hself, NameTree.beside_self] at hfile
    exact hfile hlive.1
  · intro heq
    rw [heq] at hf
    have hup := h.tree.live_up (d := dir) hlive hf
    exact hfile hup.1

-- ======== small edits

theorem addEntry_eq (hi : (s.inode dir).addEntry base c room = some i) :
    s.addEntry dir base c room = some (s.setInode dir i) := by
  unfold DirFs.addEntry
  rw [hi]
  rfl

theorem removeEntry_eq (hi : (s.inode dir).removeEntry base = some i) :
    s.removeEntry dir base = some (s.setInode dir i) := by
  unfold DirFs.removeEntry
  rw [hi]
  rfl

theorem live_setInode (h : i.fileType = (s.inode dir).fileType ∧
      i.linkCount = (s.inode dir).linkCount) (p : InodeId) :
    ((s.setInode dir i).inode p).Live ↔ (s.inode p).Live := by
  by_cases hp : p = dir
  · subst hp
    rw [setInode_self]
    exact live_congr h
  · rw [setInode_of_ne hp]

theorem fileType_setInode (h : i.fileType = (s.inode dir).fileType)
    (p : InodeId) :
    ((s.setInode dir i).inode p).fileType = (s.inode p).fileType := by
  by_cases hp : p = dir
  · subst hp
    rw [setInode_self, h]
  · rw [setInode_of_ne hp]

theorem Body.edit (h : s.Body) (hmounts : s'.mounts = s.mounts)
    (hlive : ∀ p, (s'.inode p).Live ↔ (s.inode p).Live)
    (hnamed : ∀ p, (s'.inode p).Live → (s'.inode p).WellNamed)
    (hfree : ∀ id, s'.used id = false ∨ id.inodeNumber = 0#16 →
      (s'.inode id).linkCount = 0#8) : s'.Body where
  mounts := by
    rw [hmounts]
    exact h.mounts
  roots := by
    intro id r hr
    rw [hmounts] at hr
    exact (hlive r).mpr (h.roots id r hr)
  root := fun p hp => (hlive _).mpr (h.root p ((hlive p).mp hp))
  named := hnamed
  free := hfree

theorem Body.rename_in (h : s.Body)
    (hsame : i.fileType = (s.inode dir).fileType ∧
      i.linkCount = (s.inode dir).linkCount)
    (hnamed : i.WellNamed) : (s.setInode dir i).Body := by
  refine h.edit rfl (live_setInode hsame) ?_ ?_
  · intro p hp
    by_cases hpd : p = dir
    · subst hpd
      rw [setInode_self]
      exact hnamed
    · rw [setInode_of_ne hpd] at hp ⊢
      exact h.named p hp
  · intro id hid
    rw [links_setInode hsame.2]
    exact h.free id hid

theorem Body.addEntry (h : s.Body) (hlive : (s.inode dir).Live)
    (hfree : (s.inode dir).find base = none)
    (hi : (s.inode dir).addEntry base c room = some i) :
    (s.setInode dir i).Body :=
  h.rename_in (addEntry_same hi) ((h.named dir hlive).addEntry hi hfree)

theorem Body.removeEntry (h : s.Body) (hlive : (s.inode dir).Live)
    (hi : (s.inode dir).removeEntry base = some i) : (s.setInode dir i).Body :=
  h.rename_in (removeEntry_same hi) ((h.named dir hlive).removeEntry hi)

theorem find_setInode_added (hfree : (s.inode dir).find base = none)
    (hc : c ≠ 0#16) (hi : (s.inode dir).addEntry base c room = some i)
    (p : InodeId) (n : Name) : ((s.setInode dir i).inode p).find n
      = if p = dir ∧ n = base then some c else (s.inode p).find n := by
  by_cases hp : p = dir
  · subst hp
    rw [setInode_self, TreeInode.find_addEntry hi hc hfree]
    simp only [true_and]
  · rw [setInode_of_ne hp, if_neg fun hb => hp hb.1]

theorem Body.find_setInode_removed (h : s.Body) (hlive : (s.inode dir).Live)
    (hi : (s.inode dir).removeEntry base = some i) (p : InodeId) (n : Name) :
    ((s.setInode dir i).inode p).find n
      = if p = dir ∧ n = base then none else (s.inode p).find n := by
  by_cases hp : p = dir
  · subst hp
    rw [setInode_self, (h.named p hlive).find_removeEntry hi]
    simp only [true_and]
  · rw [setInode_of_ne hp, if_neg fun hb => hp hb.1]

theorem Shape.nameFile (h : s.Shape) (hlive : (s.inode dir).Live)
    (hfree : (s.inode dir).find base = none) (hc : c ≠ 0#16)
    (hfile : (s.inode (beside dir c)).fileType ≠ .directory)
    (hi : (s.inode dir).addEntry base c room = some i) :
    (s.setInode dir i).Shape := by
  have hsame := addEntry_same hi
  refine ⟨h.addEntry hlive hfree hi, ?_⟩
  refine h.tree.addFile (show s.tree.look dir base = none from hfree) hfile
    ?_ ?_ ?_ ?_
  · exact live_setInode hsame
  · intro p
    show ((s.setInode dir i).inode p).fileType = _ ↔ _
    rw [fileType_setInode hsame.1]
    rfl
  · intro n
    show ((s.setInode dir i).inode dir).find n = _
    rw [setInode_self]
    exact TreeInode.find_addEntry hi hc hfree n
  · intro p n hp
    show ((s.setInode dir i).inode p).find n = _
    rw [setInode_of_ne hp]
    rfl

/-- Taking away the name of a file moves no directory. -/
theorem Shape.unnameFile (h : s.Shape) (hlive : (s.inode dir).Live)
    (hf : (s.inode dir).find base = some c)
    (hfile : (s.inode (beside dir c)).fileType ≠ .directory)
    (hi : (s.inode dir).removeEntry base = some i) :
    (s.setInode dir i).Shape := by
  have hsame := removeEntry_same hi
  have hlive' := live_setInode hsame
  refine ⟨h.removeEntry hlive hi, ?_⟩
  refine h.tree.dropName (h.proper_of_file hlive hf hfile) hf ?_ ?_ ?_ ?_ ?_
    ?_ ?_
  · exact fun p hp => (hlive' p).mp hp
  · exact fun hp => hfile ((hlive' _).mp hp).1
  · exact fun p _ hp => (hlive' p).mpr hp
  · exact fun hp => absurd hp.1 hfile
  · intro p
    show ((s.setInode dir i).inode p).fileType = _ ↔ _
    rw [fileType_setInode hsame.1]
    rfl
  · intro n
    show ((s.setInode dir i).inode dir).find n = _
    rw [setInode_self]
    exact (h.named dir hlive).find_removeEntry hi n
  · intro p n hp
    show ((s.setInode dir i).inode p).find n = _
    rw [setInode_of_ne hp]
    rfl

theorem fileType_setLinks (a : InodeId) (v : BitVec 8) (p : InodeId) :
    ((s.setLinks a v).inode p).fileType = (s.inode p).fileType := by
  by_cases hp : p = a
  · subst hp
    rw [setLinks_self]
  · rw [setLinks_of_ne hp]

theorem find_setLinks (a : InodeId) (v : BitVec 8) (p : InodeId) (n : Name) :
    ((s.setLinks a v).inode p).find n = (s.inode p).find n := by
  by_cases hp : p = a
  · subst hp
    rw [setLinks_self]
    rfl
  · rw [setLinks_of_ne hp]

theorem live_setLinks {a : InodeId} {v : BitVec 8}
    (hkeep : (s.inode a).fileType ≠ .directory ∨
      ((s.inode a).linkCount ≠ 0#8 ∧ v ≠ 0#8)) (p : InodeId) :
    ((s.setLinks a v).inode p).Live ↔ (s.inode p).Live := by
  by_cases hp : p = a
  · subst hp
    rw [setLinks_self]
    unfold TreeInode.Live
    rcases hkeep with hf | ⟨hl, hv⟩
    · simp [hf]
    · simp [hl, hv]
  · rw [setLinks_of_ne hp]

theorem Body.setLinks (h : s.Body) {a : InodeId} {v : BitVec 8}
    (hkeep : (s.inode a).fileType ≠ .directory ∨
      ((s.inode a).linkCount ≠ 0#8 ∧ v ≠ 0#8))
    (hused : s.used a = true ∧ a.inodeNumber ≠ 0#16) :
    (s.setLinks a v).Body := by
  refine h.edit rfl (live_setLinks hkeep) ?_ ?_
  · intro p hp
    have hnamed := h.named p ((live_setLinks hkeep p).mp hp)
    by_cases hpa : p = a
    · subst hpa
      rw [setLinks_self]
      exact hnamed
    · rw [setLinks_of_ne hpa]
      exact hnamed
  · intro id hid
    have hne : id ≠ a := by
      intro heq
      subst heq
      rcases hid with hu | hz
      · rw [show (s.setLinks id v).used id = s.used id from rfl, hused.1] at hu
        cases hu
      · exact hused.2 hz
    rw [setLinks_of_ne hne]
    exact h.free id hid

theorem tree_setLinks {a : InodeId} {v : BitVec 8}
    (hkeep : (s.inode a).fileType ≠ .directory ∨
      ((s.inode a).linkCount ≠ 0#8 ∧ v ≠ 0#8)) :
    (s.setLinks a v).tree = s.tree := by
  unfold DirFs.tree
  simp only [live_setLinks hkeep, fileType_setLinks, find_setLinks]

theorem Shape.setLinks (h : s.Shape) {a : InodeId} {v : BitVec 8}
    (hkeep : (s.inode a).fileType ≠ .directory ∨
      ((s.inode a).linkCount ≠ 0#8 ∧ v ≠ 0#8))
    (hused : s.used a = true ∧ a.inodeNumber ≠ 0#16) :
    (s.setLinks a v).Shape := by
  refine ⟨h.toBody.setLinks hkeep hused, ?_⟩
  rw [tree_setLinks hkeep]
  exact h.tree

/-- An inode without links may be anything. -/
theorem Ok.replaceDead (h : s.Ok) {x : InodeId}
    (hzero : (s.inode x).linkCount = 0#8) (hdead : ¬ i.Live) {b : Bool}
    (hfree : b = false ∨ x.inodeNumber = 0#16 → i.linkCount = 0#8) :
    DirFs.Shape { s.setInode x i with used := update s.used x b } := by
  have hlive : ∀ p, ((s.setInode x i).inode p).Live ↔ (s.inode p).Live := by
    intro p
    by_cases hp : p = x
    · subst hp
      rw [setInode_self]
      exact ⟨fun hl => absurd hl hdead, fun hl => absurd hzero hl.2⟩
    · rw [setInode_of_ne hp]
  constructor
  case toBody =>
    refine h.shape.edit rfl hlive ?_ ?_
    · intro p hp
      have hpx : p ≠ x := by
        intro heq
        subst heq
        exact ((hlive p).mp hp).2 hzero
      rw [setInode_of_ne hpx]
      exact h.shape.named p ((hlive p).mp hp)
    · intro id hid
      by_cases hix : id = x
      · subst hix
        simp only [update_self] at hid
        rw [setInode_self]
        exact hfree hid
      · simp only [update_of_ne hix] at hid
        rw [setInode_of_ne hix]
        exact h.shape.free id hid
  case tree =>
    refine h.shape.tree.forget (x := x) (fun hl => hl.2 hzero) ?_ hlive ?_ ?_
    · exact fun p n hp hdev => h.unnamed hzero hp hdev
    · intro p hp
      show ((s.setInode x i).inode p).fileType = _ ↔ _
      rw [setInode_of_ne hp]
      rfl
    · intro p n hp
      show ((s.setInode x i).inode p).find n = _
      rw [setInode_of_ne hp]
      rfl

-- ======== files come and go

theorem links_succ {v : BitVec 8} (h : v ≠ 255#8) :
    (v + 1#8).toNat = v.toNat + 1 ∧ v + 1#8 ≠ 0#8 := by
  have hlt := v.isLt
  have hne : v.toNat ≠ 255 := fun heq => h (BitVec.eq_of_toNat_eq heq)
  have hadd : (v + 1#8).toNat = v.toNat + 1 := by
    rw [BitVec.toNat_add, BitVec.toNat_ofNat]
    omega
  refine ⟨hadd, fun hzero => ?_⟩
  rw [hzero] at hadd
  simp at hadd

theorem links_pred {v : BitVec 8} (h : v ≠ 0#8) :
    (v - 1#8).toNat + 1 = v.toNat := by
  have hlt := v.isLt
  have hne : v.toNat ≠ 0 := fun heq => h (BitVec.eq_of_toNat_eq heq)
  rw [BitVec.toNat_sub, BitVec.toNat_ofNat]
  omega

theorem Counts.congr {more' : InodeId → Int} (h : s.Counts more)
    (heq : ∀ id, more id = more' id) : s.Counts more' := by
  intro id hid
  rw [h id hid, heq]

theorem Ok.unlink (h : s.Ok) (hlive : (s.inode dir).Live)
    (hf : (s.inode dir).find base = some c)
    (hfile : (s.inode (beside dir c)).fileType ≠ .directory)
    (hi : (s.inode dir).removeEntry base = some i) :
    DirFs.Ok ((s.setInode dir i).setLinks (beside dir c)
      (((s.setInode dir i).inode (beside dir c)).linkCount - 1#8)) := by
  have hne : beside dir c ≠ dir := fun heq => hfile (heq ▸ hlive.1)
  have hlinks := h.links_of_named hlive hf
  have htype : ((s.setInode dir i).inode (beside dir c)).fileType
      ≠ .directory := by
    rw [setInode_of_ne hne]
    exact hfile
  constructor
  · exact (h.shape.unnameFile hlive hf hfile hi).setLinks (.inl htype)
      (h.shape.used_of_links hlinks)
  · refine ((h.counts.removeEntry hlive (h.shape.named dir hlive) hi hf).setLinks
      (.inl htype)).congr fun id => ?_
    rw [setInode_of_ne hne]
    have hpred := links_pred hlinks
    split <;> omega

theorem Ok.link (h : s.Ok) (hlive : (s.inode dir).Live)
    (hfree : (s.inode dir).find base = none) (hc : c ≠ 0#16)
    (hfile : (s.inode (beside dir c)).fileType ≠ .directory)
    (hlinks : (s.inode (beside dir c)).linkCount ≠ 0#8)
    (hmax : (s.inode (beside dir c)).linkCount ≠ 255#8)
    (hi : (s.inode dir).addEntry base c room = some i) :
    DirFs.Ok ((s.setInode dir i).setLinks (beside dir c)
      (((s.setInode dir i).inode (beside dir c)).linkCount + 1#8)) := by
  have hne : beside dir c ≠ dir := fun heq => hfile (heq ▸ hlive.1)
  have htype : ((s.setInode dir i).inode (beside dir c)).fileType
      ≠ .directory := by
    rw [setInode_of_ne hne]
    exact hfile
  constructor
  · exact (h.shape.nameFile hlive hfree hc hfile hi).setLinks (.inl htype)
      (h.shape.used_of_links hlinks)
  · refine ((h.counts.addEntry hlive hi).setLinks (.inl htype)).congr
      fun id => ?_
    rw [setInode_of_ne hne]
    have hsucc := (links_succ hmax).1
    split <;> omega

theorem Ok.counts_dead (h : s.Ok) {x : InodeId}
    (hzero : (s.inode x).linkCount = 0#8) (hentries : i.entries = [])
    {b : Bool} : DirFs.Counts { s.setInode x i with used := update s.used x b }
      (fun id => - if id = x then (i.linkCount.toNat : Int) else 0) :=
  (h.counts.fresh hzero hentries).congr fun id => by
    split <;> omega

theorem Ok.made_and_lost (h : s.Ok) {x : InodeId}
    (hzero : (s.inode x).linkCount = 0#8) {b : Bool}
    (hlinks : i.linkCount = 0#8) (hentries : i.entries = []) :
    DirFs.Ok { s.setInode x i with used := update s.used x b } := by
  constructor
  · exact h.replaceDead hzero (fun hl => hl.2 hlinks) fun _ => hlinks
  · refine (h.counts_dead hzero hentries).congr fun id => ?_
    rw [hlinks]
    simp

/-- A file is made: one name, one link. -/
theorem Ok.made (h : s.Ok) (hlive : (s.inode dir).Live)
    (hfree : (s.inode dir).find base = none) (hc : c ≠ 0#16)
    (hunused : s.used (beside dir c) = false) {f : TreeInode}
    (hfile : f.fileType ≠ .directory) (hone : f.linkCount = 1#8)
    (hentries : f.entries = [])
    (hi : (s.inode dir).addEntry base c room = some i) :
    DirFs.Ok (DirFs.setInode { s.setInode (beside dir c) f with
        used := update s.used (beside dir c) true } dir i) := by
  have hzero := h.shape.free _ (.inl hunused)
  have hne : dir ≠ beside dir c := by
    intro heq
    apply hlive.2
    rw [heq]
    exact hzero
  have hsame : ∀ p : InodeId, p ≠ beside dir c →
      (DirFs.inode { s.setInode (beside dir c) f with
        used := update s.used (beside dir c) true } p) = s.inode p :=
    fun p hp => setInode_of_ne hp
  have hshape := h.replaceDead hzero (fun hl => hfile hl.1)
    (b := true) (i := f) (fun hor => by
      rcases hor with hb | hz
      · cases hb
      · exact absurd hz hc)
  have hlive' := hlive
  have hi' := hi
  rw [← hsame dir hne] at hlive' hi' hfree
  constructor
  · refine hshape.nameFile hlive' hfree hc ?_ hi'
    rw [setInode_self]
    exact hfile
  · refine ((h.counts_dead hzero hentries).addEntry hlive' hi').congr
      fun id => ?_
    rw [hone]
    simp only [BitVec.toNat_ofNat]
    split <;> simp

-- ======== an empty directory goes

/-- An empty directory names its parent, and itself. -/
theorem Shape.names_empty (h : s.Shape) {d : InodeId}
    (hd : (s.inode d).Live) (hempty : (s.inode d).isEmptyDirectory = true)
    (hup : (s.inode d).find dotdot = some dir.inodeNumber)
    (hne : dir.inodeNumber ≠ d.inodeNumber) {x : InodeNumber}
    (hx : x ≠ 0#16) (hxd : x ≠ d.inodeNumber) :
    (s.inode d).names x = if x = dir.inodeNumber then 1 else 0 := by
  have hself : (s.inode d).find dot = some d.inodeNumber := h.tree.self d hd
  split
  next hxp =>
    subst hxp
    refine (h.named d hd).names_eq_one hup fun m hm => ?_
    rcases TreeInode.find_of_empty hempty hm with rfl | rfl
    · rw [hself] at hm
      exact absurd (Option.some.inj hm).symm hne
    · rfl
  next hxp =>
    refine (h.named d hd).names_eq_zero hx fun m hm => ?_
    rcases TreeInode.find_of_empty hempty hm with rfl | rfl
    · rw [hself] at hm
      exact hxd (Option.some.inj hm).symm
    · rw [hup] at hm
      exact hxp (Option.some.inj hm).symm

/-- A directory that has lost its name, its links and the link of its
parent. -/
structure Dropped (s s' : DirFs) (dir : InodeId) (base : Name)
    (id : InodeId) (i : TreeInode) : Prop where
  entry : (s.inode dir).removeEntry base = some i
  state : s' = ((s.setInode dir i).setLinks id 0#8).setLinks dir
    ((s.inode dir).linkCount - 1#8)
  parent : s'.inode dir = { i with linkCount := (s.inode dir).linkCount - 1#8 }
  gone : s'.inode id = { s.inode id with linkCount := 0#8 }
  rest : ∀ p, p ≠ dir → p ≠ id → s'.inode p = s.inode p

theorem dropped {id : InodeId} (hne : id ≠ dir)
    (hdrop : s.dropDirectory dir base id = some s') :
    ∃ i, Dropped s s' dir base id i := by
  obtain ⟨s₁, hs₁, rfl⟩ := Option.map_eq_some_iff.mp hdrop
  obtain ⟨i, hi, rfl⟩ := Option.map_eq_some_iff.mp hs₁
  have hlast : ((s.setInode dir i).setLinks id 0#8).inode dir = i := by
    rw [setLinks_of_ne hne.symm, setInode_self]
  dsimp only
  rw [hlast, (removeEntry_same hi).2]
  refine ⟨i, hi, rfl, ?_, ?_, ?_⟩
  · rw [setLinks_self, hlast]
  · rw [setLinks_of_ne hne, setLinks_self, setInode_of_ne hne]
  · intro p hp hpd
    rw [setLinks_of_ne hp, setLinks_of_ne hpd, setInode_of_ne hp]

section DropDirectory

variable (h : s.Ok) (hlive : (s.inode dir).Live) (hbase : Proper base)
  (hf : (s.inode dir).find base = some c)
  (hdir : (s.inode (beside dir c)).fileType = .directory)

include h hlive hf hdir in
theorem Ok.live_of_named : (s.inode (beside dir c)).Live :=
  ⟨hdir, h.links_of_named hlive hf⟩

include h hlive hbase hf hdir in
/-- The parent of a named directory is the one that names it, and counts
it. -/
theorem Ok.parent_of_named :
    (s.inode (beside dir c)).find dotdot = some dir.inodeNumber ∧
      beside dir c ≠ dir ∧ c ≠ dir.inodeNumber ∧
      2 ≤ (s.inode dir).linkCount.toNat := by
  have hd := h.live_of_named hlive hf hdir
  have hup : (s.inode (beside dir c)).find dotdot = some dir.inodeNumber :=
    (h.shape.tree.child dir base c hlive hf hbase hdir).1
  have hnum : c ≠ dir.inodeNumber := by
    intro heq
    subst heq
    exact h.shape.tree.irrefl dir base hlive hbase hf
  have hne : beside dir c ≠ dir := by
    intro heq
    apply hnum
    rw [← heq, NameTree.beside_number]
  have hdirnum := (h.shape.used_of_links hlive.2).2
  refine ⟨hup, hne, hnum, ?_⟩
  -- Without the entries of the child, `.` still names the parent.
  have hrefs : (s.setLinks (beside dir c) 0#8).refs dir + _ = _ :=
    refs_setInode s (beside dir c) _ dir
  have hpos : 0 < (s.setLinks (beside dir c) 0#8).refs dir := by
    have hsame : (s.setLinks (beside dir c) 0#8).inode dir = s.inode dir :=
      setLinks_of_ne hne.symm
    refine refs_pos (p := dir) (n := dot) ?_ rfl ?_
    · rw [hsame]
      exact hlive
    · rw [hsame]
      exact h.shape.tree.self dir hlive
  have hnames := TreeInode.names_pos hup
  have hcount := h.linksExact dir hdirnum
  rw [if_pos (by rfl), if_pos (by rfl), TreeInode.live_names, if_pos hd,
    TreeInode.live_names, if_neg fun hb => hb.2 rfl] at hrefs
  omega

include h hlive hbase hf hdir in
theorem Ok.links_pred_ne : (s.inode dir).linkCount - 1#8 ≠ 0#8 := by
  obtain ⟨-, -, -, htwo⟩ := h.parent_of_named hlive hbase hf hdir
  intro hzero
  have hpred := links_pred hlive.2
  rw [hzero] at hpred
  simp only [BitVec.toNat_ofNat] at hpred
  omega

section State

variable (hdrop : Dropped s s' dir base (beside dir c) i)

include h hlive hbase hf hdir hdrop

theorem Ok.live_dropped (p : InodeId) :
    (s'.inode p).Live ↔ (s.inode p).Live ∧ p ≠ beside dir c := by
  obtain ⟨-, hne, -, -⟩ := h.parent_of_named hlive hbase hf hdir
  by_cases hpd : p = dir
  · subst hpd
    rw [hdrop.parent]
    refine ⟨fun _ => ⟨hlive, hne.symm⟩, fun _ => ⟨?_, ?_⟩⟩
    · rw [← hlive.1, ← (removeEntry_same hdrop.entry).1]
    · exact h.links_pred_ne hlive hbase hf hdir
  · by_cases hpc : p = beside dir c
    · subst hpc
      rw [hdrop.gone]
      exact ⟨fun hl => absurd rfl hl.2, fun hl => absurd rfl hl.2⟩
    · rw [hdrop.rest p hpd hpc]
      exact ⟨fun hl => ⟨hl, hpc⟩, fun hl => hl.1⟩

omit hbase hf hdir in
theorem Ok.find_dropped (p : InodeId) (n : Name) : (s'.inode p).find n
      = if p = dir ∧ n = base then none else (s.inode p).find n := by
  by_cases hpd : p = dir
  · subst hpd
    rw [hdrop.parent]
    simp only [true_and]
    exact (h.shape.named p hlive).find_removeEntry hdrop.entry n
  · rw [if_neg fun hb => hpd hb.1]
    by_cases hpc : p = beside dir c
    · subst hpc
      rw [hdrop.gone]
      rfl
    · rw [hdrop.rest p hpd hpc]

omit h hlive hbase hf hdir in
theorem fileType_dropped (p : InodeId) :
    (s'.inode p).fileType = (s.inode p).fileType := by
  by_cases hpd : p = dir
  · subst hpd
    rw [hdrop.parent, ← (removeEntry_same hdrop.entry).1]
  · by_cases hpc : p = beside dir c
    · subst hpc
      rw [hdrop.gone]
    · rw [hdrop.rest p hpd hpc]

theorem Ok.body_dropped : s'.Body := by
  have hlive' := h.live_dropped hlive hbase hf hdir hdrop
  have hroot := (h.shape.tree.child dir base c hlive hf hbase hdir).2
  constructor
  case mounts =>
    rw [hdrop.state]
    exact h.shape.mounts
  case roots =>
    intro id r hr
    rw [hdrop.state] at hr
    refine (hlive' r).mpr ⟨h.shape.roots id r hr, fun heq => hroot ?_⟩
    have hone := h.shape.mounts.number_of_mountedRootAt hr
    rw [heq] at hone
    exact hone
  case root =>
    intro p hp
    refine (hlive' _).mpr ⟨h.shape.root p ((hlive' p).mp hp).1, ?_⟩
    intro heq
    apply hroot
    rw [← NameTree.beside_number p rootInodeNumber, heq,
      NameTree.beside_number]
  case named =>
    intro p hp
    have hp' := (hlive' p).mp hp
    by_cases hpd : p = dir
    · subst hpd
      rw [hdrop.parent]
      have hnamed := (h.shape.named p hlive).removeEntry hdrop.entry
      exact hnamed
    · rw [hdrop.rest p hpd hp'.2]
      exact h.shape.named p hp'.1
  case free =>
    intro id hid
    have hused : s'.used = s.used := by
      rw [hdrop.state]
      rfl
    rw [hused] at hid
    by_cases hpd : id = dir
    · subst hpd
      exact absurd (h.shape.free id hid) hlive.2
    · by_cases hpc : id = beside dir c
      · subst hpc
        rw [hdrop.gone]
      · rw [hdrop.rest id hpd hpc]
        exact h.shape.free id hid

variable (hempty : (s.inode (beside dir c)).isEmptyDirectory = true)

include hempty

theorem Ok.shape_dropped : s'.Shape := by
  have hlive' := h.live_dropped hlive hbase hf hdir hdrop
  have hfind := h.find_dropped hlive hdrop
  refine ⟨h.body_dropped hlive hbase hf hdir hdrop, ?_⟩
  refine h.shape.tree.dropName hbase hf ?_ ?_ ?_ ?_ ?_ ?_ ?_
  · exact fun p hp => ((hlive' p).mp hp).1
  · exact fun hp => ((hlive' _).mp hp).2 rfl
  · exact fun p hpc hp => (hlive' p).mpr ⟨hp, hpc⟩
  · intro _ n x hx hn
    rcases TreeInode.find_of_empty hempty hx with hdot | hdot
    · exact hn.1 hdot
    · exact hn.2 hdot
  · intro p
    show (s'.inode p).fileType = _ ↔ (s.inode p).fileType = _
    rw [fileType_dropped hdrop]
  · intro n
    show (s'.inode dir).find n = _
    rw [hfind]
    simp only [true_and]
    rfl
  · intro p n hpd
    show (s'.inode p).find n = _
    rw [hfind, if_neg fun hb => hpd hb.1]
    rfl

/-- No entry names a dropped directory. -/
theorem Ok.refs_dropped : s'.refs (beside dir c) = 0 := by
  have hshape := h.shape_dropped hlive hbase hf hdir hdrop hempty
  refine refs_eq_zero (TreeInode.ne_zero_of_find hf) hshape.named
    fun p n hdev hp hpn => ?_
  have hp' := (h.live_dropped hlive hbase hf hdir hdrop p).mp hp
  have hside : beside p c = beside dir c := by
    unfold NameTree.beside
    rw [hdev]
    rfl
  by_cases hn : Proper n
  · rw [h.find_dropped hlive hdrop] at hpn
    split at hpn
    next => cases hpn
    next hother =>
      exact hother (h.shape.tree.namer_unique hp'.1 hlive hdev hn hbase hpn hf
        (show s.tree.isDir (beside p c) from hside ▸ hdir))
  · have hcases : n = dot ∨ n = dotdot := by
      by_contra hnot
      exact hn ⟨fun heq => hnot (.inl heq), fun heq => hnot (.inr heq)⟩
    rcases hcases with rfl | rfl
    · have hself := hshape.tree.self p hp
      rw [show s'.tree.look p dot = some c from hpn] at hself
      apply hp'.2
      rw [← hside, Option.some.inj hself, NameTree.beside_self]
    · have hup' := hshape.tree.live_up (d := p) hp hpn
      rw [NameTree.beside_number, hside] at hup'
      exact ((h.live_dropped hlive hbase hf hdir hdrop _).mp hup').2 rfl

/-- An empty directory is dropped with its name, its dots and the link of its
parent. -/
theorem Ok.dropDirectory : s'.Ok := by
  refine ⟨h.shape_dropped hlive hbase hf hdir hdrop hempty, fun id hid => ?_⟩
  by_cases hidc : id = beside dir c
  · subst hidc
    rw [hdrop.gone, h.refs_dropped hlive hbase hf hdir hdrop hempty]
    simp
  · have hd := h.live_of_named hlive hf hdir
    obtain ⟨hup, hne, hnum, -⟩ := h.parent_of_named hlive hbase hf hdir
    have hlinks := h.links_pred_ne hlive hbase hf hdir
    have hi := hdrop.entry
    have hlast : ((s.setInode dir i).setLinks (beside dir c) 0#8).inode dir
        = i := by
      rw [setLinks_of_ne hne.symm, setInode_self]
    have hsame := (removeEntry_same hi).2
    have hcounts := ((h.counts.removeEntry hlive (h.shape.named dir hlive) hi
      hf).kill (d := beside dir c) (by
        rw [setInode_of_ne hne]
        exact hd)).setLinks (a := dir) (v := (s.inode dir).linkCount - 1#8)
        (.inr ⟨by rw [hlast, hsame]; exact hlive.2, hlinks⟩) id hid
    rw [← hdrop.state, hlast, hsame, setInode_of_ne hne] at hcounts
    rw [hcounts]
    simp only [if_neg hidc]
    have hpred := links_pred hlive.2
    by_cases hdev : (beside dir c).device = id.device
    · have hidnum : id.inodeNumber ≠ c := by
        intro heq
        apply hidc
        rw [eq_beside_iff]
        exact ⟨hdev, heq.symm⟩
      have hnames := h.shape.names_empty hd hempty hup
        (fun heq => hnum heq.symm) hid hidnum
      rw [if_pos hdev, hnames]
      by_cases hidd : id = dir
      · subst hidd
        simp only [if_true]
        omega
      · have hnn : id.inodeNumber ≠ dir.inodeNumber := by
          intro heq
          apply hidd
          rw [← NameTree.beside_eq (p := dir) (q := id) hdev.symm, heq,
            NameTree.beside_self]
        rw [if_neg hidd, if_neg hnn]
        simp
    · have hidd : id ≠ dir := fun heq => hdev (by rw [heq]; rfl)
      rw [if_neg hdev, if_neg hidd]
      simp

end State

end DropDirectory

end LinuxRs.Fs.DirFs
