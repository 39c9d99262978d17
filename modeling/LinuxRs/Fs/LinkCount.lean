/-
Link counts (kernel/src/syscall/handler/fs/path.rs, the directory
operations of kernel/src/fs/minix.rs).

# What is counted

`refs` is the number of entries in live directories, the dots included,
that name an inode. A directory that `rmdir` took out of the tree keeps
its dots on disk until it is evicted; they count no more.

# How the calls are followed

A call changes names and counts one after the other, and in between they
disagree. `Counts` carries the difference: how many entries name an inode
beyond its count. Each edit moves the difference by what it does, and at
the end of a call it is zero again. The shape of the tree (`Shape`) is
followed beside it, since what `rmdir` may forget depends on who names
whom.

# Where it goes wrong

The counts are `u8` and wrap; `rmdir` takes its last name as it comes,
`.` included; and the inode behind a name is looked up across mounts, so
`rmdir` and `rename` of a mount point edit the wrong inode. `Plain` rules
these out and is all that is needed.
-/
import Mathlib.Algebra.Order.BigOperators.Group.Finset
import LinuxRs.Lib.Run
import LinuxRs.Lib.Count
import LinuxRs.Fs.DirEntries
import LinuxRs.Fs.NameTree

namespace LinuxRs.Fs

open Function (update update_idem update_self update_of_ne)

open LinuxRs.Lib
open NameTree (Proper beside)

noncomputable instance : Fintype InodeNumber :=
  Fintype.ofInjective BitVec.toFin fun _ _ h => BitVec.eq_of_toFin_eq h

instance (inode : TreeInode) : Decidable inode.Live :=
  inferInstanceAs (Decidable (_ ∧ _))

-- ======== the counts

def TreeInode.live_names (inode : TreeInode) (x : InodeNumber) : Nat :=
  if inode.Live then inode.names x else 0

namespace DirFs

noncomputable def refs (s : DirFs) (id : InodeId) : Nat :=
  ∑ p : InodeNumber, (s.inode (beside id p)).live_names id.inodeNumber

def tree (s : DirFs) : NameTree where
  live := fun p => (s.inode p).Live
  isDir := fun p => (s.inode p).fileType = .directory
  look := fun p n => (s.inode p).find n

/-- The directories one by one: well named, with a live root on every
device in use and under every mount. An inode the bitmap has free has no
links. -/
structure Body (s : DirFs) : Prop where
  mounts : s.mounts.Ok
  roots : ∀ id r, s.mounts.mountedRootAt id = some r → (s.inode r).Live
  root : ∀ p, (s.inode p).Live → (s.inode (beside p rootInodeNumber)).Live
  named : ∀ p, (s.inode p).Live → (s.inode p).WellNamed
  free : ∀ id, s.used id = false ∨ id.inodeNumber = 0#16 →
    (s.inode id).linkCount = 0#8

/-- Everything but the counts: the directories, and the tree they form. -/
structure Shape (s : DirFs) : Prop extends Body s where
  tree : s.tree.Ok

/-- The link counts, up to a difference: `more id` entries name an inode
beyond its count. -/
def Counts (s : DirFs) (more : InodeId → Int) : Prop :=
  ∀ id, id.inodeNumber ≠ 0#16 →
    (s.refs id : Int) = (s.inode id).linkCount.toNat + more id

/-- The tree is one, and every link is counted. -/
structure Ok (s : DirFs) : Prop where
  shape : s.Shape
  counts : s.Counts fun _ => 0

/-- Every link count is the number of entries that name the inode. -/
def LinksExact (s : DirFs) : Prop :=
  ∀ id, id.inodeNumber ≠ 0#16 → (s.inode id).linkCount.toNat = s.refs id

theorem Ok.linksExact {s : DirFs} (h : s.Ok) : s.LinksExact := by
  intro id hid
  have hcount := h.counts id hid
  dsimp only at hcount
  omega

-- ======== one inode

@[simp] theorem setInode_self (s : DirFs) (a : InodeId) (i : TreeInode) :
    (s.setInode a i).inode a = i :=
  update_self ..

theorem setInode_of_ne {s : DirFs} {a p : InodeId} {i : TreeInode}
    (h : p ≠ a) : (s.setInode a i).inode p = s.inode p :=
  update_of_ne h ..

@[simp] theorem setInode_setInode (s : DirFs) (a : InodeId) (i j : TreeInode) :
    (s.setInode a i).setInode a j = s.setInode a j := by
  unfold setInode
  rw [update_idem]

@[simp] theorem setLinks_self (s : DirFs) (a : InodeId) (v : BitVec 8) :
    (s.setLinks a v).inode a = { s.inode a with linkCount := v } :=
  update_self ..

theorem setLinks_of_ne {s : DirFs} {a p : InodeId} {v : BitVec 8}
    (h : p ≠ a) : (s.setLinks a v).inode p = s.inode p :=
  update_of_ne h ..

/-- A changed directory names an inode as often as its live entries do, the
others as before. -/
theorem refs_setInode (s : DirFs) (a : InodeId) (i : TreeInode)
    (id : InodeId) :
    (s.setInode a i).refs id
        + (if a.device = id.device then
            (s.inode a).live_names id.inodeNumber else 0)
      = s.refs id
        + (if a.device = id.device then i.live_names id.inodeNumber else 0) := by
  unfold refs
  by_cases hdev : a.device = id.device
  · simp only [if_pos hdev]
    have hside : beside id a.inodeNumber = a := NameTree.beside_eq hdev
    have hupd : ∀ p : InodeNumber, (s.setInode a i).inode (beside id p)
        = update (fun p => s.inode (beside id p)) a.inodeNumber i p := by
      intro p
      by_cases hp : p = a.inodeNumber
      · subst hp
        rw [hside, setInode_self, update_self]
      · rw [update_of_ne hp]
        apply setInode_of_ne
        intro heq
        exact hp (by rw [← heq, NameTree.beside_number])
    simp only [hupd]
    have := sum_update (fun p => s.inode (beside id p))
      (fun inode => inode.live_names id.inodeNumber) a.inodeNumber i
    rw [hside] at this
    exact this
  · simp only [if_neg hdev, Nat.add_zero]
    refine Finset.sum_congr rfl fun p _ => ?_
    rw [setInode_of_ne]
    intro heq
    exact hdev (by rw [← heq, NameTree.beside_device])

theorem refs_pos {s : DirFs} {p id : InodeId} {n : Name}
    (hlive : (s.inode p).Live) (hdev : p.device = id.device)
    (hf : (s.inode p).find n = some id.inodeNumber) : 0 < s.refs id := by
  have hp : beside id p.inodeNumber = p := NameTree.beside_eq hdev
  have hterm : 0 < (s.inode (beside id p.inodeNumber)).live_names
      id.inodeNumber := by
    rw [hp, TreeInode.live_names, if_pos hlive]
    exact TreeInode.names_pos hf
  exact Nat.lt_of_lt_of_le hterm
    (Finset.single_le_sum
      (f := fun q => (s.inode (beside id q)).live_names id.inodeNumber)
      (fun q _ => Nat.zero_le _) (Finset.mem_univ p.inodeNumber))

theorem refs_eq_zero {s : DirFs} {id : InodeId} (hid : id.inodeNumber ≠ 0#16)
    (hnamed : ∀ p, (s.inode p).Live → (s.inode p).WellNamed)
    (hno : ∀ p n, p.device = id.device → (s.inode p).Live →
      (s.inode p).find n ≠ some id.inodeNumber) : s.refs id = 0 := by
  refine Finset.sum_eq_zero fun p _ => ?_
  unfold TreeInode.live_names
  split
  next hlive =>
    exact (hnamed _ hlive).names_eq_zero hid fun m => hno _ m rfl hlive
  next => rfl

-- ======== consequences

variable {s : DirFs}

theorem Ok.links_of_named (h : s.Ok) {p : InodeId} {n : Name}
    {c : InodeNumber} (hlive : (s.inode p).Live)
    (hf : (s.inode p).find n = some c) :
    (s.inode (beside p c)).linkCount ≠ 0#8 := by
  have hpos : 0 < s.refs (beside p c) := refs_pos hlive rfl hf
  have hcount := h.counts (beside p c) (TreeInode.ne_zero_of_find hf)
  intro hzero
  rw [hzero] at hcount
  simp at hcount
  omega

theorem Ok.unnamed (h : s.Ok) {x : InodeId}
    (hzero : (s.inode x).linkCount = 0#8) {p : InodeId} {n : Name}
    (hlive : (s.inode p).Live) (hdev : p.device = x.device) :
    (s.inode p).find n ≠ some x.inodeNumber := by
  intro hf
  apply h.links_of_named hlive hf
  rw [NameTree.beside_eq hdev.symm]
  exact hzero

theorem live_of_searchable {c : Caller} {dir : InodeId}
    (h : s.searchable c dir = true) : (s.inode dir).Live := by
  unfold searchable allowed checkPermissionAs at h
  rw [Bool.and_eq_true, decide_eq_true_eq] at h
  refine ⟨h.1, fun hzero => ?_⟩
  rw [if_pos hzero] at h
  exact absurd h.2 (by decide)

theorem Body.used_of_links (h : s.Body) {id : InodeId}
    (hlinks : (s.inode id).linkCount ≠ 0#8) :
    s.used id = true ∧ id.inodeNumber ≠ 0#16 := by
  constructor
  · cases hu : s.used id with
    | true => rfl
    | false => exact absurd (h.free id (.inl hu)) hlinks
  · exact fun hzero => hlinks (h.free id (.inr hzero))

-- ======== one edit each

theorem addEntry_same {i i' : TreeInode} {name : Name} {c : InodeNumber}
    {room : Bool} (h : i.addEntry name c room = some i') :
    i'.fileType = i.fileType ∧ i'.linkCount = i.linkCount := by
  obtain ⟨a, hole, b, -, -, -, rfl⟩ := TreeInode.addEntry_cases h
  exact ⟨rfl, rfl⟩

theorem removeEntry_same {i i' : TreeInode} {name : Name}
    (h : i.removeEntry name = some i') :
    i'.fileType = i.fileType ∧ i'.linkCount = i.linkCount := by
  obtain ⟨a, e, b, -, -, -, rfl⟩ := TreeInode.removeEntry_cases h
  exact ⟨rfl, rfl⟩

theorem live_congr {i i' : TreeInode}
    (h : i'.fileType = i.fileType ∧ i'.linkCount = i.linkCount) :
    i'.Live ↔ i.Live := by
  unfold TreeInode.Live
  rw [h.1, h.2]

theorem links_setInode {dir id : InodeId} {i : TreeInode}
    (h : i.linkCount = (s.inode dir).linkCount) :
    ((s.setInode dir i).inode id).linkCount = (s.inode id).linkCount := by
  by_cases hid : id = dir
  · subst hid
    rw [setInode_self, h]
  · rw [setInode_of_ne hid]

theorem eq_beside_iff {dir id : InodeId} {c : InodeNumber} :
    id = beside dir c ↔ dir.device = id.device ∧ c = id.inodeNumber := by
  constructor
  · intro h
    rw [h]
    exact ⟨rfl, rfl⟩
  · intro h
    rw [h.2, NameTree.beside_eq h.1.symm]

variable {more : InodeId → Int} {dir : InodeId} {name : Name}
  {c : InodeNumber} {room : Bool} {i : TreeInode}

/-- A new entry is one name more than the links say. -/
theorem Counts.addEntry (h : s.Counts more) (hlive : (s.inode dir).Live)
    (hi : (s.inode dir).addEntry name c room = some i) :
    (s.setInode dir i).Counts
      (fun id => more id + if id = beside dir c then 1 else 0) := by
  intro id hid
  have hsame := addEntry_same hi
  have hrefs := refs_setInode s dir i id
  have hcount := h id hid
  have hnames := TreeInode.names_addEntry hi hid
  rw [links_setInode hsame.2]
  simp only [TreeInode.live_names, if_pos hlive,
    if_pos ((live_congr hsame).mpr hlive)] at hrefs
  simp only [eq_beside_iff]
  by_cases hdev : dir.device = id.device
  · simp only [if_pos hdev] at hrefs
    by_cases hc : c = id.inodeNumber
    · rw [if_pos ⟨hdev, hc⟩]
      rw [if_pos hc] at hnames
      omega
    · rw [if_neg fun hb => hc hb.2]
      rw [if_neg hc] at hnames
      omega
  · simp only [if_neg hdev] at hrefs
    rw [if_neg fun hb => hdev hb.1]
    omega

/-- A removed entry is one name less. -/
theorem Counts.removeEntry (h : s.Counts more) (hlive : (s.inode dir).Live)
    (hnamed : (s.inode dir).WellNamed)
    (hi : (s.inode dir).removeEntry name = some i)
    (hf : (s.inode dir).find name = some c) :
    (s.setInode dir i).Counts
      (fun id => more id - if id = beside dir c then 1 else 0) := by
  intro id hid
  have hsame := removeEntry_same hi
  have hrefs := refs_setInode s dir i id
  have hcount := h id hid
  have hnames := hnamed.names_removeEntry hi hf hid
  rw [links_setInode hsame.2]
  simp only [TreeInode.live_names, if_pos hlive,
    if_pos ((live_congr hsame).mpr hlive)] at hrefs
  simp only [eq_beside_iff]
  by_cases hdev : dir.device = id.device
  · simp only [if_pos hdev] at hrefs
    by_cases hc : c = id.inodeNumber
    · rw [if_pos ⟨hdev, hc⟩]
      rw [if_pos hc] at hnames
      omega
    · rw [if_neg fun hb => hc hb.2]
      rw [if_neg hc] at hnames
      omega
  · simp only [if_neg hdev] at hrefs
    rw [if_neg fun hb => hdev hb.1]
    omega

/-- A new link count moves the difference by as much. -/
theorem Counts.setLinks (h : s.Counts more) {a : InodeId} {v : BitVec 8}
    (hlive : (s.inode a).fileType ≠ .directory ∨
      ((s.inode a).linkCount ≠ 0#8 ∧ v ≠ 0#8)) :
    (s.setLinks a v).Counts (fun id => more id +
      if id = a then ((s.inode a).linkCount.toNat : Int) - v.toNat else 0) := by
  intro id hid
  have hrefs : (s.setLinks a v).refs id + _ = _ := refs_setInode s a _ id
  have hcount := h id hid
  have hsame : ({ s.inode a with linkCount := v } : TreeInode).live_names
      id.inodeNumber = (s.inode a).live_names id.inodeNumber := by
    unfold TreeInode.live_names
    rcases hlive with hf | ⟨hl, hv⟩
    · rw [if_neg fun hb => hf hb.1, if_neg fun hb => hf hb.1]
    · by_cases hd : (s.inode a).fileType = .directory
      · rw [if_pos ⟨hd, hv⟩, if_pos ⟨hd, hl⟩]
        rfl
      · rw [if_neg fun hb => hd hb.1, if_neg fun hb => hd hb.1]
  rw [hsame] at hrefs
  by_cases hia : id = a
  · subst hia
    simp only [setLinks_self, if_true]
    omega
  · rw [setLinks_of_ne hia]
    simp only [if_neg hia]
    omega

/-- A directory without links names nothing: its entries count no more. -/
theorem Counts.kill (h : s.Counts more) {d : InodeId}
    (hlive : (s.inode d).Live) :
    (s.setLinks d 0#8).Counts (fun id => more id +
      (if id = d then ((s.inode d).linkCount.toNat : Int) else 0) -
      if d.device = id.device then ((s.inode d).names id.inodeNumber : Int)
      else 0) := by
  intro id hid
  have hrefs : (s.setLinks d 0#8).refs id + _ = _ := refs_setInode s d _ id
  have hcount := h id hid
  have hdead : ({ s.inode d with linkCount := 0#8 } : TreeInode).live_names
      id.inodeNumber = 0 := if_neg fun hb => hb.2 rfl
  rw [hdead, TreeInode.live_names, if_pos hlive] at hrefs
  by_cases hid' : id = d
  · subst hid'
    simp only [setLinks_self, if_true] at hrefs ⊢
    simp only [BitVec.toNat_ofNat]
    omega
  · rw [setLinks_of_ne hid']
    simp only [if_neg hid']
    split <;> rename_i hdev
    · simp only [if_pos hdev] at hrefs
      omega
    · simp only [if_neg hdev] at hrefs
      omega

/-- A new inode is counted where its entries are. -/
theorem Counts.fresh (h : s.Counts more) {new : InodeId}
    (hzero : (s.inode new).linkCount = 0#8) (hentries : i.entries = []) :
    (s.setInode new i).Counts (fun id => more id -
      if id = new then (i.linkCount.toNat : Int) else 0) := by
  intro id hid
  have hrefs := refs_setInode s new i id
  have hcount := h id hid
  have hold : (s.inode new).live_names id.inodeNumber = 0 :=
    if_neg fun hb => hb.2 hzero
  have hnew : i.live_names id.inodeNumber = 0 := by
    unfold TreeInode.live_names TreeInode.names
    rw [hentries]
    simp
  rw [hold, hnew] at hrefs
  by_cases hid' : id = new
  · subst hid'
    simp only [setInode_self, if_true]
    rw [hzero] at hcount
    simp only [BitVec.toNat_ofNat] at hcount
    omega
  · rw [setInode_of_ne hid']
    simp only [if_neg hid']
    omega

end DirFs

end LinuxRs.Fs
