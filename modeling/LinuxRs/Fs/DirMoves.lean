/-
The two calls that change the tree of directories: `mkdir`, which hangs a
new directory into it, and `rename`, which takes one name away and adds
another.

Both edit several inodes in a row. The directories (`Body`) and the
counts are followed from edit to edit; what the tree looks like is only
asked at the end, when every name is in its place.
-/
import LinuxRs.Fs.DirCalls

namespace LinuxRs.Fs.DirFs

open LinuxRs.Lib
open NameTree (Proper beside)

variable {s s' : DirFs} {more : InodeId → Int} {dir : InodeId} {base : Name}
  {c : InodeNumber} {room : Bool} {i : TreeInode}

/-- One directory gets another `..`; the others keep theirs. -/
structure Reparent (s s' : DirFs) (d q : InodeId) : Prop where
  device : q.device = d.device
  parent : (s.inode q).Live
  live : ∀ p, (s'.inode p).Live → p = d ∨ (s.inode p).Live
  up : (s'.inode d).find dotdot = some q.inodeNumber
  same : ∀ p, p ≠ d → (s'.inode p).find dotdot = (s.inode p).find dotdot

-- ======== an addition

theorem addEntry_of_room (inode : TreeInode) (name : Name)
    (number : InodeNumber) : ∃ i, inode.addEntry name number true = some i := by
  unfold TreeInode.addEntry
  split
  next => exact ⟨_, rfl⟩
  next => exact ⟨_, if_pos (.inl rfl)⟩

theorem addEntry_in_hole {inode k : TreeInode} {name m : Name}
    {number : InodeNumber} (hk : inode.removeEntry name = some k) :
    ∃ i, k.addEntry m number false = some i := by
  obtain ⟨a, e, b, -, -, -, rfl⟩ := TreeInode.removeEntry_cases hk
  unfold TreeInode.addEntry
  split
  next => exact ⟨_, rfl⟩
  next hnone =>
    have hno := List.findIdx?_eq_none_iff.mp hnone ⟨0#16, []⟩ (by simp)
    simp at hno

theorem find_nil {f : TreeInode} (h : f.entries = []) (n : Name) :
    f.find n = none := by
  rw [TreeInode.find_eq, h]
  rfl

theorem wellNamed_nil {f : TreeInode} (h : f.entries = []) : f.WellNamed := by
  intro n
  rw [h]
  exact Nat.zero_le 1

section Mkdir

variable {f i₂ i₃ : TreeInode} {own : Bool}

/-- The state with the new directory, still without entries and name. -/
def withFresh (s : DirFs) (id : InodeId) (f : TreeInode) : DirFs :=
  { s.setInode id f with used := Function.update s.used id true }

@[simp] theorem withFresh_self (s : DirFs) (id : InodeId) (f : TreeInode) :
    (s.withFresh id f).inode id = f :=
  setInode_self ..

theorem withFresh_of_ne {id p : InodeId} {f : TreeInode} (h : p ≠ id) :
    (s.withFresh id f).inode p = s.inode p :=
  setInode_of_ne h

variable (h : s.Ok) (hlive : (s.inode dir).Live) (hc : c ≠ 0#16)
  (hunused : s.used (beside dir c) = false)
  (hdir : f.fileType = .directory) (htwo : f.linkCount = 2#8)
  (hentries : f.entries = [])

include h hunused in
theorem Ok.fresh_ne {p : InodeId} (hp : (s.inode p).Live) :
    p ≠ beside dir c := by
  intro heq
  apply hp.2
  rw [heq]
  exact h.shape.free _ (.inl hunused)

include hdir htwo in
theorem live_withFresh (s : DirFs) (x p : InodeId) :
    ((s.withFresh x f).inode p).Live ↔ p = x ∨ (s.inode p).Live := by
  by_cases hp : p = x
  · subst hp
    rw [withFresh_self]
    refine ⟨fun _ => .inl rfl, fun _ => ⟨hdir, ?_⟩⟩
    rw [htwo]
    decide
  · rw [withFresh_of_ne hp]
    exact ⟨.inr, fun hor => hor.resolve_left hp⟩

include h hlive hc hdir htwo hentries in
/-- A fresh inode with the type of a directory is one more directory, still
empty. -/
theorem Ok.body_withFresh : (s.withFresh (beside dir c) f).Body := by
  have hl := live_withFresh hdir htwo s (beside dir c)
  constructor
  case mounts => exact h.shape.mounts
  case roots => exact fun id r hr => (hl r).mpr (.inr (h.shape.roots id r hr))
  case root =>
    intro p hp
    refine (hl _).mpr (.inr ?_)
    rcases (hl p).mp hp with rfl | hp
    · exact h.shape.root dir hlive
    · exact h.shape.root p hp
  case named =>
    intro p hp
    by_cases hpc : p = beside dir c
    · subst hpc
      rw [withFresh_self]
      exact wellNamed_nil hentries
    · rw [withFresh_of_ne hpc]
      exact h.shape.named p (((hl p).mp hp).resolve_left hpc)
  case free =>
    intro id hid
    by_cases hidc : id = beside dir c
    · subst hidc
      rcases hid with hu | hz
      · have htrue : (s.withFresh (beside dir c) f).used (beside dir c) = true :=
          Function.update_self ..
        rw [htrue] at hu
        cases hu
      · exact absurd hz hc
    · rw [withFresh_of_ne hidc]
      have hsame : (s.withFresh (beside dir c) f).used id = s.used id :=
        Function.update_of_ne hidc ..
      rw [hsame] at hid
      exact h.shape.free id hid

/-- The directory has its name and its dots; the parent does not count it
yet. -/
structure Made (s s' : DirFs) (dir : InodeId) (c : InodeNumber)
    (base : Name) : Prop where
  body : s'.Body
  live : ∀ p, (s'.inode p).Live ↔ p = beside dir c ∨ (s.inode p).Live
  types : ∀ p, (s'.inode p).fileType = .directory ↔
    p = beside dir c ∨ (s.inode p).fileType = .directory
  links : (s'.inode dir).linkCount = (s.inode dir).linkCount
  fresh : ∀ n, (s'.inode (beside dir c)).find n =
    if n = dotdot then some dir.inodeNumber
    else if n = dot then some c else none
  look : ∀ p n, p ≠ beside dir c → (s'.inode p).find n =
    if p = dir ∧ n = base then some c else (s.inode p).find n
  counts : s'.Counts fun id => if id = dir then 1 else 0

include h hlive hc hunused hdir htwo hentries in
/-- The name and both dots are entered, one after the other. -/
theorem Ok.made_entries (hfree : (s.inode dir).find base = none)
    (hi : (s.inode dir).addEntry base c room = some i)
    (hi2 : f.addEntry dot c own = some i₂)
    (hi3 : i₂.addEntry dotdot dir.inodeNumber own = some i₃) :
    Made s ((((s.withFresh (beside dir c) f).setInode dir i).setInode
      (beside dir c) i₂).setInode (beside dir c) i₃) dir c base := by
  have hne := h.fresh_ne hunused hlive
  have hdirnum := (h.shape.used_of_links hlive.2).2
  have hlive0 := live_withFresh hdir htwo s (beside dir c)
  -- Entry by entry, from the fresh directory on.
  have hold : ∀ p, p ≠ beside dir c →
      (s.withFresh (beside dir c) f).inode p = s.inode p :=
    fun p hp => withFresh_of_ne hp
  have hnew0 : (s.withFresh (beside dir c) f).inode (beside dir c) = f :=
    withFresh_self ..
  have hbody0 := h.body_withFresh hlive hc hdir htwo hentries
  have hcount0 : (s.withFresh (beside dir c) f).Counts fun id =>
      - if id = beside dir c then (f.linkCount.toNat : Int) else 0 :=
    h.counts_dead (h.shape.free _ (.inl hunused)) hentries
  generalize s.withFresh (beside dir c) f = s0 at *
  rw [← hold dir hne] at hi hfree hlive
  have hbody1 := hbody0.addEntry hlive hfree hi
  have hlive1 := live_setInode (addEntry_same hi)
  have hlook1 := find_setInode_added hfree hc hi
  have hnew1 : (s0.setInode dir i).inode (beside dir c) = f := by
    rw [setInode_of_ne hne.symm, hnew0]
  have hcount1 := hcount0.addEntry hlive hi
  generalize hs1 : s0.setInode dir i = s1 at *
  rw [← hnew1] at hi2
  have hln1 : (s1.inode (beside dir c)).Live :=
    (hlive1 _).mpr ((hlive0 _).mpr (.inl rfl))
  have hfree1 : ∀ n, (s1.inode (beside dir c)).find n = none := by
    intro n
    rw [hnew1]
    exact find_nil hentries n
  have hbody2 := hbody1.addEntry hln1 (hfree1 dot) hi2
  have hlive2 := live_setInode (addEntry_same hi2)
  have hlook2 := find_setInode_added (hfree1 dot) hc hi2
  have hcount2 := hcount1.addEntry hln1 hi2
  have hnew2 : (s1.setInode (beside dir c) i₂).inode (beside dir c) = i₂ :=
    setInode_self ..
  generalize hs2 : s1.setInode (beside dir c) i₂ = s2 at *
  rw [← hnew2] at hi3
  have hln2 : (s2.inode (beside dir c)).Live := (hlive2 _).mpr hln1
  have hfree2 : (s2.inode (beside dir c)).find dotdot = none := by
    rw [hlook2, if_neg fun hb => absurd hb.2 (by decide)]
    exact hfree1 dotdot
  have hlook3 := find_setInode_added hfree2 hdirnum hi3
  refine ⟨hbody2.addEntry hln2 hfree2 hi3, fun p => ?_, fun p => ?_, ?_,
    fun n => ?_, fun p n hp => ?_,
    (hcount2.addEntry hln2 hi3).congr fun id => ?_⟩
  · rw [live_setInode (addEntry_same hi3), hlive2, hlive1, hlive0]
  · rw [fileType_setInode (addEntry_same hi3).1, ← hs2,
      fileType_setInode (addEntry_same hi2).1, ← hs1,
      fileType_setInode (addEntry_same hi).1]
    by_cases hp : p = beside dir c
    · rw [hp, hnew0]
      exact ⟨fun _ => .inl rfl, fun _ => hdir⟩
    · rw [hold p hp]
      exact ⟨.inr, fun hor => hor.resolve_left hp⟩
  · rw [setInode_of_ne hne, ← hs2, setInode_of_ne hne, ← hs1, setInode_self,
      (addEntry_same hi).2, hold dir hne]
  · have hside : ¬ (beside dir c = dir ∧ n = base) := fun hb => hne hb.1.symm
    rw [hlook3, hlook2, hlook1, if_neg hside, hnew0, find_nil hentries]
    simp only [true_and]
  · rw [hlook3, hlook2, hlook1, if_neg fun hb => hp hb.1,
      if_neg fun hb => hp hb.1, hold p hp]
  · show - (if id = beside dir c then (f.linkCount.toNat : Int) else 0)
      + (if id = beside dir c then 1 else 0)
      + (if id = beside dir c then 1 else 0) + (if id = dir then 1 else 0)
      = if id = dir then 1 else 0
    rw [htwo]
    by_cases hidc : id = beside dir c
    · subst hidc
      simp only [if_neg hne.symm, if_true]
      rfl
    · simp only [if_neg hidc]
      omega

include h hlive hunused in
/-- The new directory is a leaf of the tree. -/
theorem Made.tree {s' : DirFs} (hm : Made s s' dir c base)
    (hfree : (s.inode dir).find base = none) : s'.tree.Ok := by
  have hne := h.fresh_ne hunused hlive
  have hzero := h.shape.free _ (.inl hunused)
  have hroot : c ≠ rootInodeNumber := by
    intro heq
    apply (h.shape.root dir hlive).2
    rw [← heq]
    exact hzero
  refine h.shape.tree.addDir hlive (NameTree.beside_device dir c)
    (h.shape.proper_of_free hlive hfree) hroot hfree ?_ ?_ hm.live hm.types ?_ ?_
    ?_
  · exact fun p n hp hdev => h.unnamed hzero hp hdev
  · exact fun hl => hl.2 hzero
  · intro n
    refine (hm.fresh n).trans ?_
    by_cases hn : n = dot
    · rw [hn]
      rfl
    · rw [if_neg hn]
      simp only [if_neg hn]
  · intro n
    refine (hm.look dir n hne).trans ?_
    simp only [true_and]
    rfl
  · intro p n hp hpd
    exact (hm.look p n hp).trans (if_neg fun hb => hpd hb.1)

include h hlive hc hunused hdir htwo hentries in
/-- With its link counted in the parent, the new directory is in order. -/
theorem Ok.mkdir (hfree : (s.inode dir).find base = none)
    (hmax : (s.inode dir).linkCount ≠ 255#8)
    (hi : (s.inode dir).addEntry base c room = some i)
    (hi₂ : f.addEntry dot c own = some i₂)
    (hi₃ : i₂.addEntry dotdot dir.inodeNumber own = some i₃) :
    ∃ t, t = ((((s.withFresh (beside dir c) f).setInode dir i).setInode
        (beside dir c) i₂).setInode (beside dir c) i₃).setLinks dir
          ((s.inode dir).linkCount + 1#8) ∧
      t.Ok ∧ Reparent s t (beside dir c) dir := by
  refine ⟨_, rfl, ?_⟩
  have hm := h.made_entries hlive hc hunused hdir htwo hentries hfree hi hi₂ hi₃
  have htree := hm.tree h hlive hunused hfree
  generalize DirFs.setInode _ (beside dir c) i₃ = s3 at hm htree ⊢
  have hproper := h.shape.proper_of_free hlive hfree
  have hsucc := links_succ hmax
  have hkeep : (s3.inode dir).linkCount ≠ 0#8 ∧
      (s.inode dir).linkCount + 1#8 ≠ 0#8 := by
    rw [hm.links]
    exact ⟨hlive.2, hsucc.2⟩
  have hused := hm.body.used_of_links hkeep.1
  refine ⟨⟨⟨hm.body.setLinks (.inr hkeep) hused, ?_⟩, ?_⟩, rfl, hlive, ?_, ?_,
    ?_⟩
  · rw [tree_setLinks (.inr hkeep)]
    exact htree
  · refine (hm.counts.setLinks (.inr hkeep)).congr fun id => ?_
    rw [hm.links, hsucc.1]
    split <;> omega
  · intro p hp
    exact (hm.live p).mp ((live_setLinks (.inr hkeep) p).mp hp)
  · rw [find_setLinks, hm.fresh, if_pos rfl]
  · intro p hp
    rw [find_setLinks, hm.look p _ hp, if_neg fun hb => hproper.2 hb.2.symm]

end Mkdir

-- ======== a new place

/-- One name comes and one goes, for the same inode; nothing else changes. -/
structure Swap (s s' : DirFs) (oldDir : InodeId) (oldBase : Name)
    (newDir : InodeId) (newBase : Name) (c : InodeNumber) : Prop where
  body : s'.Body
  counts : s'.Counts fun _ => 0
  live : ∀ p, (s'.inode p).Live ↔ (s.inode p).Live
  fileType : ∀ p, (s'.inode p).fileType = (s.inode p).fileType
  links : ∀ p, (s'.inode p).linkCount = (s.inode p).linkCount
  look : ∀ p n, (s'.inode p).find n =
    if p = newDir ∧ n = newBase then some c
    else if p = oldDir ∧ n = oldBase then none else (s.inode p).find n

section Splice

variable {oldDir newDir : InodeId} {oldBase newBase : Name} {j : TreeInode}

variable (h : s.Ok) (hol : (s.inode oldDir).Live)
  (hnl : (s.inode newDir).Live) (hdev : newDir.device = oldDir.device)
  (hf : (s.inode oldDir).find oldBase = some c)
  (hfree : (s.inode newDir).find newBase = none)
  (hi : (s.inode newDir).addEntry newBase c room = some i)

include hf hfree hi in
theorem find_old_name :
    ((s.setInode newDir i).inode oldDir).find oldBase = some c := by
  rw [find_setInode_added hfree (TreeInode.ne_zero_of_find hf) hi]
  split
  next => rfl
  next => exact hf

include h hol hnl hdev hf hfree hi in
/-- The new name is there and the old one is gone. -/
theorem Ok.swap
    (hj : ((s.setInode newDir i).inode oldDir).removeEntry oldBase = some j) :
    Swap s ((s.setInode newDir i).setInode oldDir j) oldDir oldBase newDir
      newBase c := by
  have hc := TreeInode.ne_zero_of_find hf
  have hi' := addEntry_same hi
  have hj' := removeEntry_same hj
  have hbody := h.shape.addEntry hnl hfree hi
  have hl := (live_setInode hi' oldDir).mpr hol
  have hfold := find_old_name hf hfree hi
  constructor
  case body => exact hbody.removeEntry hl hj
  case counts =>
    have hside : beside newDir c = beside oldDir c := by
      unfold NameTree.beside
      rw [hdev]
    refine ((h.counts.addEntry hnl hi).removeEntry hl (hbody.named _ hl) hj
      hfold).congr fun id => ?_
    rw [hside]
    omega
  case live =>
    intro p
    rw [live_setInode hj', live_setInode hi']
  case fileType =>
    intro p
    rw [fileType_setInode hj'.1, fileType_setInode hi'.1]
  case links =>
    intro p
    rw [links_setInode hj'.2, links_setInode hi'.2]
  case look =>
    intro p n
    rw [hbody.find_setInode_removed hl hj, find_setInode_added hfree hc hi]
    by_cases hp : p = newDir ∧ n = newBase
    · have hno : ¬ (p = oldDir ∧ n = oldBase) := by
        intro hb
        rw [← hb.1, ← hb.2, hp.1, hp.2, hfree] at hf
        cases hf
      simp only [if_pos hp, if_neg hno]
    · simp only [if_neg hp]

include h hol hnl hdev hf hfree hi in
theorem Ok.spliceFile
    (hfile : (s.inode (beside oldDir c)).fileType ≠ .directory)
    (hj : ((s.setInode newDir i).inode oldDir).removeEntry oldBase = some j) :
    DirFs.Ok ((s.setInode newDir i).setInode oldDir j) := by
  have hside : beside newDir c = beside oldDir c := by
    unfold NameTree.beside
    rw [hdev]
  have hi' := addEntry_same hi
  have hshape := h.shape.nameFile hnl hfree (TreeInode.ne_zero_of_find hf)
    (hside ▸ hfile) hi
  refine ⟨hshape.unnameFile ((live_setInode hi' oldDir).mpr hol)
    (find_old_name hf hfree hi) ?_ hj,
    (h.swap hol hnl hdev hf hfree hi hj).counts⟩
  rw [fileType_setInode hi'.1]
  exact hfile

section Directory

variable (hob : Proper oldBase) (hnb : Proper newBase)
  (hdir : (s.inode (beside oldDir c)).fileType = .directory)

include h hol hf hfree hob hnb hdir in
theorem Ok.spliceHere (hpar : newDir = oldDir)
    (hsw : Swap s s' oldDir oldBase newDir newBase c) : s'.Ok := by
  subst hpar
  obtain ⟨hup, hne, -, -⟩ := h.parent_of_named hol hob hf hdir
  refine ⟨⟨hsw.body, ?_⟩, hsw.counts⟩
  refine h.shape.tree.move (d := beside newDir c)
    (h.live_of_named hol hf hdir) hol hol rfl rfl hob hnb hne.symm hf hfree
    hsw.live (fun p => ?_) fun p n => ?_
  · show (s'.inode p).fileType = _ ↔ _
    rw [hsw.fileType]
    rfl
  · show (s'.inode p).find n = _
    rw [hsw.look]
    by_cases hd : p = beside newDir c ∧ n = dotdot
    · have hno : ∀ m, Proper m → ¬ (p = newDir ∧ n = m) :=
        fun m hm hb => hm.2 (hb.2 ▸ hd.2)
      rw [if_neg (hno _ hnb), if_neg (hno _ hob), if_neg (hno _ hnb),
        if_neg (hno _ hob), if_pos hd, hd.1, hd.2]
      exact hup
    · rw [if_neg hd]
      rfl

include h hol hnl hdev hf hfree hob hnb hdir in
/-- A directory that changes its parent takes its `..` and the link along. -/
theorem Ok.spliceAway (hpar : newDir ≠ oldDir)
    (hnd : newDir ≠ beside oldDir c)
    (hmax : (s.inode newDir).linkCount ≠ 255#8)
    (hsw : Swap s s' oldDir oldBase newDir newBase c) {t : DirFs}
    {r : Except FsErrno Unit}
    (hre : s'.rewire (beside oldDir c) oldDir newDir = some (t, r)) :
    t.Ok ∧ Reparent s t (beside oldDir c) newDir := by
  obtain ⟨hup, hne, -, htwo⟩ := h.parent_of_named hol hob hf hdir
  have hd := h.live_of_named hol hf hdir
  have hnewnum := (h.shape.used_of_links hnl.2).2
  have hpred : (s.inode oldDir).linkCount - 1#8 ≠ 0#8 := by
    intro hzero
    have hpred := links_pred hol.2
    rw [hzero] at hpred
    simp only [BitVec.toNat_ofNat] at hpred
    omega
  have hsucc := links_succ hmax
  -- `..` goes.
  have hup' : (s'.inode (beside oldDir c)).find dotdot
      = some oldDir.inodeNumber := by
    rw [hsw.look, if_neg fun hb => hnb.2 hb.2.symm,
      if_neg fun hb => hob.2 hb.2.symm]
    exact hup
  have hd' := (hsw.live _).mpr hd
  obtain ⟨k, hk⟩ := TreeInode.removeEntry_isSome hup'
  have hk' := removeEntry_same hk
  have hbody₁ := hsw.body.removeEntry hd' hk
  have hlook₁ := hsw.body.find_setInode_removed hd' hk
  have hcount₁ := hsw.counts.removeEntry hd' (hsw.body.named _ hd') hk hup'
  have hlive₁ := live_setInode hk'
  have hd₁ := (hlive₁ _).mpr hd'
  have hself₁ : (s'.setInode (beside oldDir c) k).inode (beside oldDir c) = k :=
    setInode_self ..
  have htype₁ := fileType_setInode (s := s') hk'.1
  have hlinks₁ : ∀ p, ((s'.setInode (beside oldDir c) k).inode p).linkCount
      = (s'.inode p).linkCount := fun p => links_setInode hk'.2
  unfold rewire at hre
  rw [removeEntry_eq hk] at hre
  dsimp only at hre
  generalize s'.setInode (beside oldDir c) k = s₁ at *
  -- A new one comes, into the hole.
  have hfree₁ : (s₁.inode (beside oldDir c)).find dotdot = none := by
    rw [hlook₁, if_pos ⟨rfl, rfl⟩]
  obtain ⟨l, hl⟩ : ∃ l, (s₁.inode (beside oldDir c)).addEntry dotdot
      newDir.inodeNumber false = some l := by
    rw [hself₁]
    exact addEntry_in_hole hk
  have hl' := addEntry_same hl
  rw [addEntry_eq hl] at hre
  have hbody₂ := hbody₁.addEntry hd₁ hfree₁ hl
  have hlook₂ := find_setInode_added hfree₁ hnewnum hl
  have hcount₂ := hcount₁.addEntry hd₁ hl
  have hlive₂ := live_setInode hl'
  have htype₂ := fileType_setInode (s := s₁) hl'.1
  have hlinks₂ : ∀ p, ((s₁.setInode (beside oldDir c) l).inode p).linkCount
      = (s₁.inode p).linkCount := fun p => links_setInode hl'.2
  dsimp only at hre
  generalize s₁.setInode (beside oldDir c) l = s₂ at *
  have hlinks : ∀ p, (s₂.inode p).linkCount = (s.inode p).linkCount := by
    intro p
    rw [hlinks₂, hlinks₁, hsw.links]
  -- The links move from the old parent to the new one.
  obtain ⟨rfl, rfl⟩ := Prod.mk.inj (Option.some.inj hre)
  have hkeep₃ : (s₂.inode oldDir).linkCount ≠ 0#8 ∧
      (s₂.inode oldDir).linkCount - 1#8 ≠ 0#8 := by
    rw [hlinks]
    exact ⟨hol.2, hpred⟩
  have hbody₃ := hbody₂.setLinks (.inr hkeep₃)
    (hbody₂.used_of_links hkeep₃.1)
  have hcount₃ := hcount₂.setLinks (.inr hkeep₃)
  have htree₃ := tree_setLinks (.inr hkeep₃)
  have hlook₃ := find_setLinks (s := s₂) oldDir
    ((s₂.inode oldDir).linkCount - 1#8)
  have hlive₃ := live_setLinks (.inr hkeep₃)
  have hnew₃ : ((s₂.setLinks oldDir ((s₂.inode oldDir).linkCount - 1#8)).inode
      newDir).linkCount = (s.inode newDir).linkCount := by
    rw [setLinks_of_ne hpar, hlinks]
  generalize s₂.setLinks oldDir ((s₂.inode oldDir).linkCount - 1#8) = s₃ at *
  have hkeep₄ : (s₃.inode newDir).linkCount ≠ 0#8 ∧
      (s₃.inode newDir).linkCount + 1#8 ≠ 0#8 := by
    rw [hnew₃]
    exact ⟨hnl.2, hsucc.2⟩
  have hup₂ : ∀ p, (s₂.inode p).find dotdot = if p = beside oldDir c then
      some newDir.inodeNumber else (s.inode p).find dotdot := by
    intro p
    rw [hlook₂, hlook₁, hsw.look]
    by_cases hp : p = beside oldDir c
    · rw [if_pos ⟨hp, rfl⟩, if_pos hp]
    · rw [if_neg fun hb => hp hb.1, if_neg fun hb => hp hb.1,
        if_neg fun hb => hnb.2 hb.2.symm, if_neg fun hb => hob.2 hb.2.symm,
        if_neg hp]
  refine ⟨⟨⟨hbody₃.setLinks (.inr hkeep₄) (hbody₃.used_of_links hkeep₄.1), ?_⟩,
    ?_⟩, hdev, hnl, ?_, ?_, ?_⟩
  · rw [tree_setLinks (.inr hkeep₄), htree₃]
    refine h.shape.tree.move (d := beside oldDir c) hd hol hnl rfl hdev hob hnb
      hnd hf hfree (fun p => ?_) (fun p => ?_) fun p n => ?_
    · show (s₂.inode p).Live ↔ (s.inode p).Live
      rw [hlive₂, hlive₁, hsw.live]
    · show (s₂.inode p).fileType = _ ↔ (s.inode p).fileType = _
      rw [htype₂, htype₁, hsw.fileType]
    · show (s₂.inode p).find n = _
      rw [hlook₂, hlook₁, hsw.look]
      by_cases hb : p = beside oldDir c ∧ n = dotdot
      · have hno : ∀ q m, Proper m → ¬ (p = q ∧ n = m) :=
          fun q m hm hc => hm.2 (hc.2 ▸ hb.2)
        rw [if_pos hb, if_neg (hno _ _ hnb), if_neg (hno _ _ hob), if_pos hb]
      · simp only [if_neg hb]
        rfl
  · refine (hcount₃.setLinks (.inr hkeep₄)).congr fun id => ?_
    rw [hlinks, hnew₃, hsucc.1]
    have hside : beside (beside oldDir c) newDir.inodeNumber = newDir := by
      rw [NameTree.beside_beside]
      exact NameTree.beside_eq hdev
    have hback : beside (beside oldDir c) oldDir.inodeNumber = oldDir := rfl
    rw [hside, hback]
    have hlow := links_pred hol.2
    by_cases ho : id = oldDir
    · subst ho
      simp only [if_true, if_neg hpar.symm]
      omega
    · simp only [if_neg ho]
      split <;> omega
  · intro p hp
    have hp₃ := (hlive₃ p).mp ((live_setLinks (.inr hkeep₄) p).mp hp)
    rw [hlive₂, hlive₁, hsw.live] at hp₃
    exact .inr hp₃
  · rw [find_setLinks, hlook₃, hup₂, if_pos rfl]
  · intro p hp
    rw [find_setLinks, hlook₃, hup₂, if_neg hp]

end Directory

end Splice

end LinuxRs.Fs.DirFs
