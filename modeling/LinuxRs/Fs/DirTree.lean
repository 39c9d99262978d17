/-
What the directory calls guarantee over whole runs: exact link counts,
and a tree in which `..` leads up to a root.

# Link counts

Plain calls keep them exact. The counts are `u8` and wrap at 255, `rmdir`
takes `.` for its last name, and a mount point can be removed or moved:
those are the calls that `Plain` leaves out.

# The tree

`rename` refuses to move a directory below itself by walking up from the
new parent, but it gives up after `MAX_PATH_DEPTH` steps, and the walk
crosses a mount point to what is mounted there. `Shallow` asks that
neither hides the moved directory.
-/
import LinuxRs.Fs.DirRuns

namespace LinuxRs.Fs

open LinuxRs.Lib
open LinuxRs.Driver (DevNum)
open NameTree (Proper beside)

namespace NameTree

variable {t : NameTree} {d : InodeId}

theorem ascend_succ {q : InodeId} {p : InodeNumber} (k : Nat)
    (hp : t.look q dotdot = some p) :
    t.ascend (k + 1) q = t.ascend k (beside q p) := by
  simp only [ascend, hp, Option.bind_some]

theorem ascend_concat {x y : InodeId} {p : InodeNumber} (k : Nat)
    (hx : t.ascend k x = some y) (hy : t.look y dotdot = some p) :
    t.ascend (k + 1) x = some (beside y p) := by
  induction k generalizing x with
  | zero =>
    obtain rfl := Option.some.inj hx
    rw [ascend_succ 0 hy]
    rfl
  | succ k ih =>
    obtain ⟨q, hq, hrest⟩ := Option.bind_eq_some_iff.mp hx
    rw [ascend_succ (k + 1) hq]
    exact ih hrest

theorem ascend_self (hself : t.look d dotdot = some d.inodeNumber) (k : Nat) :
    t.ascend k d = some d := by
  induction k with
  | zero => rfl
  | succ k ih =>
    rw [ascend_succ k hself, beside_self]
    exact ih

theorem Ok.live_ascend (h : t.Ok) {x y : InodeId} (hx : t.live x) (k : Nat)
    (hy : t.ascend k x = some y) : t.live y := by
  induction k generalizing x with
  | zero =>
    obtain rfl := Option.some.inj hy
    exact hx
  | succ k ih =>
    obtain ⟨p, hp, hrest⟩ := Option.bind_eq_some_iff.mp hy
    exact ih (h.live_up hx hp) hrest

theorem Climbs.acyclic (h : t.Ok) {x : InodeId} (hclimb : t.Climbs x)
    (hx : t.live x) (hroot : x.inodeNumber ≠ rootInodeNumber) (k : Nat) :
    t.ascend (k + 1) x ≠ some x := by
  induction hclimb with
  | root d hd => exact absurd hd hroot
  | step d p hp _ ih =>
    intro hloop
    have hlive := h.live_up hx hp
    rw [ascend_succ k hp] at hloop
    by_cases hpr : (beside d p).inodeNumber = rootInodeNumber
    · -- From a root there is no way down.
      have htop := h.top _ hlive hpr
      rw [← hpr] at htop
      rw [ascend_self htop] at hloop
      rw [Option.some.inj hloop] at hpr
      exact hroot hpr
    · exact ih hlive hpr (ascend_concat k hloop hp)

end NameTree

namespace DirFs

variable {s s' : DirFs}

-- ======== going up

/-- Every live directory reaches a root by `..`. -/
def Rooted (s : DirFs) : Prop :=
  ∀ d, (s.inode d).Live → s.tree.Climbs d

/-- The moves that the ancestor check judges rightly: a new parent below
the moved directory is less than `MAX_PATH_DEPTH` levels below it, with no
mount point on the way. -/
def Shallow (s : DirFs) : DirOp → Prop
  | .rename _ oldDir oldBase newDir _ _ =>
    ∀ number, (s.inode oldDir).find oldBase = some number →
      ∀ k, s.tree.ascend k newDir = some (beside oldDir number) →
        k < maxPathDepth ∧ ∀ j ≤ k, ∀ p, s.tree.ascend j newDir = some p →
          s.mounts.mountedRootAt p = none
  | _ => True

/-- The check walks up by `..`: where it passes, the directory is not among
the ancestors it came to. -/
theorem Shape.ancestorCheck (h : s.Shape) {d : InodeId} (steps : Nat)
    {q : InodeId}
    (hcheck : s.ancestorCheck d d.inodeNumber steps q = some (.ok ()))
    {k : Nat} (hk : k < steps)
    (hfree : ∀ j ≤ k, ∀ p, s.tree.ascend j q = some p →
      s.mounts.mountedRootAt p = none) :
    s.tree.ascend k q ≠ some d := by
  induction steps generalizing q k with
  | zero => omega
  | succ steps ih =>
    unfold DirFs.ancestorCheck at hcheck
    split at hcheck
    next => cases hcheck
    next hne =>
      have hqd : q ≠ d := fun heq => hne (by rw [heq]; exact ⟨rfl, rfl⟩)
      split at hcheck
      next => cases hcheck
      next =>
        split at hcheck
        next => cases hcheck
        next parent hp =>
          have hp : s.tree.look q dotdot = some parent := hp
          split at hcheck
          next hself =>
            rw [NameTree.ascend_self (hself ▸ hp)]
            exact fun heq => hqd (Option.some.inj heq)
          next =>
            cases k with
            | zero => exact fun heq => hqd (Option.some.inj heq)
            | succ k =>
              rw [NameTree.ascend_succ k hp]
              split at hcheck
              next => cases hcheck
              next next ht =>
                have hnext := h.target_uncovered ht
                  (hfree 1 (by omega) _ (NameTree.ascend_succ 0 hp))
                subst hnext
                refine ih hcheck (by omega) fun j hj p hjp => ?_
                apply hfree (j + 1) (by omega)
                rw [NameTree.ascend_succ j hp]
                exact hjp

theorem Ok.not_below (h : s.Ok) {op : DirOp} (hshallow : Shallow s op)
    {d q : InodeId} (hq : (s.inode q).Live)
    (hmove : ¬ (s.inode d).Live ∨ Moved s op d q) (k : Nat) :
    s.tree.ascend k q ≠ some d := by
  intro hk
  rcases hmove with hdead | ⟨c, oldDir, oldBase, newBase, room, rfl, hdev, hf,
    hcheck⟩
  · exact hdead (h.shape.tree.live_ascend (x := q) hq k hk)
  · have hd : beside oldDir d.inodeNumber = d := NameTree.beside_eq hdev
    obtain ⟨hlt, hfree⟩ := hshallow d.inodeNumber hf k (by rw [hd]; exact hk)
    exact h.shape.ancestorCheck maxPathDepth hcheck hlt hfree hk

theorem Ok.rooted_step (h : s.Ok) (hr : s.Rooted) {op : DirOp}
    (hplain : Plain s op) (hshallow : Shallow s op)
    (hstep : s.step op = some s') : s'.Rooted := by
  intro p hp
  rcases h.effect hplain hstep with hcalm | ⟨-, d, q, hre, hmove⟩
  · have hp := hcalm.live p hp
    exact (hr p hp).congr h.shape.tree hp hcalm.same
  · have hnot := h.not_below hshallow hre.parent hmove
    have hq := hr q hre.parent
    rcases hre.live p hp with rfl | hp
    · refine .step p _ hre.up ?_
      rw [NameTree.beside_eq hre.device]
      exact hq.avoid hnot hre.same
    · exact hq.move hnot hre.device hre.same hre.up (hr p hp)

/-- Within the depth of the check, `rename` puts no directory below itself. -/
theorem Ok.renamed_not_below (h : s.Ok) (hr : s.Rooted) {c : Caller}
    {oldDir newDir : InodeId} {oldBase newBase : Name} {room : Bool}
    {number : InodeNumber}
    (hplain : Plain s (.rename c oldDir oldBase newDir newBase room))
    (hshallow : Shallow s (.rename c oldDir oldBase newDir newBase room))
    (hcall : s.sysRename c oldDir oldBase newDir newBase room
      = some (s', .ok ()))
    (hf : (s.inode oldDir).find oldBase = some number)
    (hdir : (s.inode (beside oldDir number)).fileType = .directory)
    (hother : (s.inode newDir).find newBase ≠ some number) (k : Nat) :
    s.tree.ascend k newDir ≠ some (beside oldDir number) := by
  rcases sysRename_cases hcall with ⟨-, hdone⟩ | ⟨number', old, s₁, hm, hcheck,
    -, -⟩
  · obtain ⟨number', hf', hsame⟩ := hdone rfl
    rw [hf] at hf'
    obtain rfl := Option.some.inj hf'
    exact absurd hsame hother
  · have hnum : number' = number := by
      have hf' := hm.found
      rw [hf] at hf'
      exact (Option.some.inj hf').symm
    subst hnum
    by_cases hpar : oldDir.inodeNumber = newDir.inodeNumber
    · -- Under the same parent: the child would be above its parent.
      obtain rfl := eq_of_number hm.device hpar
      obtain ⟨hup, -, -, -⟩ := h.parent_of_named hm.oldLive hm.oldProper hf hdir
      have hlive := h.live_of_named hm.oldLive hf hdir
      have hroot := (h.shape.tree.child _ _ _ hm.oldLive hf hm.oldProper hdir).2
      have hloop := (hr _ hlive).acyclic h.shape.tree hlive hroot k
      rw [NameTree.ascend_succ k (show s.tree.look _ dotdot = _ from hup)] at hloop
      exact hloop
    · have hne : oldDir ≠ newDir := fun heq => hpar (by rw [heq])
      have hold := h.shape.target_uncovered hm.target
        ((hplain number' hf).1 hne).1
      subst hold
      have hmoved : Moved s (.rename c oldDir oldBase newDir newBase room)
          (beside oldDir number') newDir :=
        ⟨c, oldDir, oldBase, newBase, room, rfl, rfl, hf, hcheck hdir hpar⟩
      exact h.not_below hshallow hm.newLive (.inr hmoved) k

-- ======== a line of directories

def disk : DevNum := ⟨0x301#16⟩

def place (k : Nat) : InodeId := ⟨disk, BitVec.ofNat 16 k⟩

/-- Directory number `k` of a line of `n`, each the only child of the one
before it. -/
def lineInode (n : Nat) (k : Nat) : TreeInode where
  fileType := .directory
  flags := 0o777#12
  userId := 0#16
  groupId := 0#8
  linkCount := if k < n then 3#8 else 2#8
  entries := [⟨BitVec.ofNat 16 k, dot⟩, ⟨BitVec.ofNat 16 (max 1 (k - 1)), dotdot⟩]
    ++ if k < n then [⟨BitVec.ofNat 16 (k + 1), ['a']⟩] else []

/-- The inodes of a line of `n` directories. -/
def inLine (n : Nat) (id : InodeId) : Prop :=
  id.device = disk ∧ 0 < id.inodeNumber.toNat ∧ id.inodeNumber.toNat ≤ n

instance (n : Nat) (id : InodeId) : Decidable (inLine n id) :=
  inferInstanceAs (Decidable (_ ∧ _ ∧ _))

/-- A disk with the directories 1 to `n` in a line, mounted as the root. -/
def line (n : Nat) : DirFs where
  inode := fun id => if inLine n id then lineInode n id.inodeNumber.toNat
    else ⟨.regular, 0#12, 0#16, 0#8, 0#8, []⟩
  used := fun id => inLine n id
  mounts := ⟨[some ⟨disk, place 1, none⟩]⟩

def superuser : Caller := ⟨0#16, 0#16, 0#12⟩

def deepen (n : Nat) : DirOp :=
  .mkdir superuser (place n) ['a'] 0o777#12 (some (BitVec.ofNat 16 (n + 1)))
    true true

theorem place_toNat {k : Nat} (hk : k < 65536) :
    (place k).inodeNumber.toNat = k := by
  simp only [place, BitVec.toNat_ofNat]
  omega

theorem place_ne {j k : Nat} (hj : j < 65536) (hk : k < 65536) (hne : j ≠ k) :
    place j ≠ place k := by
  intro heq
  apply hne
  rw [← place_toNat hj, ← place_toNat hk, heq]

theorem ofNat_ne_zero {k : Nat} (hk : k < 65536) (hpos : 0 < k) :
    BitVec.ofNat 16 k ≠ 0#16 := by
  intro heq
  have hnat := congrArg BitVec.toNat heq
  simp only [BitVec.toNat_ofNat] at hnat
  omega

theorem inLine_iff {n : Nat} (hn : n < 65536) (id : InodeId) :
    inLine n id ↔ ∃ k, 0 < k ∧ k ≤ n ∧ id = place k := by
  constructor
  · intro ⟨hdev, hpos, hle⟩
    refine ⟨_, hpos, hle, ?_⟩
    unfold place
    rw [← hdev, BitVec.ofNat_toNat, BitVec.setWidth_eq]
  · intro ⟨k, hpos, hle, heq⟩
    subst heq
    unfold inLine
    rw [place_toNat (by omega)]
    exact ⟨rfl, hpos, hle⟩

theorem inLine_succ {n : Nat} (hn : n < 65535) (id : InodeId) :
    inLine (n + 1) id ↔ id = place (n + 1) ∨ inLine n id := by
  rw [inLine_iff (by omega), inLine_iff (by omega)]
  constructor
  · intro ⟨k, hpos, hle, heq⟩
    rcases Nat.lt_or_ge n k with hlt | hge
    · obtain rfl : k = n + 1 := by omega
      exact .inl heq
    · exact .inr ⟨k, hpos, hge, heq⟩
  · intro hor
    rcases hor with heq | ⟨k, hpos, hle, heq⟩
    · exact ⟨n + 1, by omega, Nat.le_refl _, heq⟩
    · exact ⟨k, hpos, by omega, heq⟩

theorem line_inode {n k : Nat} (hn : n < 65536) (hpos : 0 < k) (hle : k ≤ n) :
    (line n).inode (place k) = lineInode n k := by
  have hk : k < 65536 := by omega
  unfold line
  dsimp only
  rw [if_pos ((inLine_iff hn _).mpr ⟨k, hpos, hle, rfl⟩), place_toNat hk]

theorem line_outside {n : Nat} {id : InodeId} (h : ¬ inLine n id) :
    (line n).inode id = ⟨.regular, 0#12, 0#16, 0#8, 0#8, []⟩ :=
  if_neg h

theorem line_allowed {n k : Nat} (hn : n < 65536) (hpos : 0 < k) (hle : k ≤ n)
    (mask : BitVec 12) : (line n).allowed superuser (place k) mask = true := by
  unfold allowed checkPermissionAs
  rw [line_inode hn hpos hle, if_neg]
  · simp [superuser]
  · unfold lineInode
    dsimp only
    split <;> decide

theorem line_searchable {n k : Nat} (hn : n < 65536) (hpos : 0 < k)
    (hle : k ≤ n) : (line n).searchable superuser (place k) = true := by
  unfold searchable
  rw [line_allowed hn hpos hle, line_inode hn hpos hle]
  rfl

theorem lineInode_find {n k : Nat} (hk : k < 65535) (hpos : 0 < k) (m : Name) :
    (lineInode n k).find m = if m = dot then some (BitVec.ofNat 16 k)
      else if m = dotdot then some (BitVec.ofNat 16 (max 1 (k - 1)))
      else if m = ['a'] ∧ k < n then some (BitVec.ofNat 16 (k + 1)) else none := by
  have h₁ := ofNat_ne_zero (k := k) (by omega) hpos
  have h₂ := ofNat_ne_zero (k := max 1 (k - 1)) (by omega) (by omega)
  have h₃ := ofNat_ne_zero (k := k + 1) (by omega) (by omega)
  unfold TreeInode.find lineInode
  dsimp only
  by_cases hkn : k < n
  · simp only [if_pos hkn, List.cons_append, List.nil_append,
      List.findSome?_cons, List.findSome?_nil, if_neg h₁, if_neg h₂, if_neg h₃]
    by_cases hd : m = dot
    · subst hd
      simp
    · by_cases hdd : m = dotdot
      · subst hdd
        simp [hd, Ne.symm hd]
      · simp only [if_neg hd, if_neg hdd, if_neg (Ne.symm hd),
          if_neg (Ne.symm hdd)]
        by_cases ha : m = ['a']
        · subst ha
          simp [hkn]
        · simp [ha, Ne.symm ha]
  · simp only [if_neg hkn, List.append_nil,
      List.findSome?_cons, List.findSome?_nil, if_neg h₁, if_neg h₂]
    by_cases hd : m = dot
    · subst hd
      simp
    · by_cases hdd : m = dotdot
      · subst hdd
        simp [hd, Ne.symm hd]
      · simp only [if_neg hd, if_neg hdd, if_neg (Ne.symm hd),
          if_neg (Ne.symm hdd)]
        simp [hkn]

theorem lineInode_addEntry {n : Nat} (hn : n < 65535) (hpos : 0 < n) :
    (lineInode n n).addEntry ['a'] (BitVec.ofNat 16 (n + 1)) true
      = some { lineInode (n + 1) n with linkCount := 2#8 } := by
  have h₁ := ofNat_ne_zero (k := n) (by omega) hpos
  have h₂ := ofNat_ne_zero (k := max 1 (n - 1)) (by omega) (by omega)
  unfold TreeInode.addEntry lineInode
  simp [List.findIdx?_cons, h₁, h₂]

theorem eq_of_fields {s t : DirFs} (hinode : ∀ id, s.inode id = t.inode id)
    (hused : ∀ id, s.used id = t.used id) (hmounts : s.mounts = t.mounts) :
    s = t := by
  cases s
  cases t
  simp only [DirFs.mk.injEq]
  exact ⟨funext hinode, funext hused, hmounts⟩

/-- One more directory makes the line longer by one. -/
theorem line_step {n : Nat} (hpos : 0 < n) (hn : n < 65535) :
    (line n).step (deepen n) = some (line (n + 1)) := by
  have hself := line_inode (n := n) (by omega) hpos (Nat.le_refl n)
  have hsearch := line_searchable (n := n) (by omega) hpos (Nat.le_refl n)
  have hallow := line_allowed (n := n) (by omega) hpos (Nat.le_refl n) mayWrite
  have hnew : ¬ inLine n (place (n + 1)) := by
    intro hin
    have hle := hin.2.2
    rw [place_toNat (by omega)] at hle
    omega
  have hne : place n ≠ beside (place n) (BitVec.ofNat 16 (n + 1)) :=
    place_ne (by omega) (by omega) (by omega)
  have hne' : place n ≠ place (n + 1) := hne
  have hfree : ((line n).inode (place n)).find ['a'] = none := by
    rw [hself, lineInode_find hn hpos, if_neg (by decide), if_neg (by decide),
      if_neg (by omega)]
  have hadd := lineInode_addEntry hn hpos
  have halloc : (line n).allocAndLink superuser (place n) ['a'] .directory
      0o777#12 2#8 (some (BitVec.ofNat 16 (n + 1))) true
      = some (((line n).withFresh (place (n + 1))
          (fill superuser .directory 0o777#12 2#8)).setInode (place n)
          { lineInode (n + 1) n with linkCount := 2#8 },
          .ok (BitVec.ofNat 16 (n + 1))) := by
    have hsame : ((line n).withFresh (place (n + 1))
        (fill superuser .directory 0o777#12 2#8)).inode (place n)
        = lineInode n n := by
      rw [withFresh_of_ne hne', hself]
    refine allocAndLink_eq (ofNat_ne_zero (by omega) (by omega))
      (decide_eq_false hnew) ?_
    show (((line n).withFresh (place (n + 1)) _).inode (place n)).addEntry _ _ _
      = _
    rw [hsame]
    exact hadd
  have hi₂ : (fill superuser .directory 0o777#12 2#8).addEntry dot
      (BitVec.ofNat 16 (n + 1)) true
      = some { fill superuser .directory 0o777#12 2#8 with
          entries := [⟨BitVec.ofNat 16 (n + 1), dot⟩] } := rfl
  have hi₃ : ({ fill superuser .directory 0o777#12 2#8 with
      entries := [⟨BitVec.ofNat 16 (n + 1), dot⟩] } : TreeInode).addEntry dotdot
      (place n).inodeNumber true = some (lineInode (n + 1) (n + 1)) := by
    have h₁ := ofNat_ne_zero (k := n + 1) (by omega) (by omega)
    unfold TreeInode.addEntry lineInode
    have hmax : max 1 n = n := by omega
    simp [List.findIdx?_cons, h₁, fill, superuser, place, hmax]
  have hlinks : (2#8 : BitVec 8) = ((line n).inode (place n)).linkCount := by
    rw [hself]
    simp [lineInode]
  have hmk := createDirectory_eq hne halloc hlinks hi₂ hi₃
  unfold step call deepen sysMkdir
  dsimp only
  rw [if_neg (by simp [hsearch]), if_neg (by simp [hallow]),
    if_neg (by simp [hfree]), hmk, Option.map_some]
  refine congrArg some (eq_of_fields (fun id => ?_) (fun id => ?_) rfl)
  · show ((((((line n).withFresh (place (n + 1)) _).setInode (place n) _).setInode
      (place (n + 1)) _).setInode (place (n + 1)) _).setLinks (place n) _).inode id
      = _
    by_cases hid : id = place n
    · subst hid
      rw [setLinks_self, setInode_of_ne hne', setInode_of_ne hne', setInode_self,
        hself, line_inode (by omega) hpos (by omega)]
      simp [lineInode]
    · by_cases hidn : id = place (n + 1)
      · subst hidn
        rw [setLinks_of_ne hid, setInode_self,
          line_inode (by omega) (by omega) (Nat.le_refl _)]
      · rw [setLinks_of_ne hid, setInode_of_ne hidn, setInode_of_ne hidn,
          setInode_of_ne hid, withFresh_of_ne hidn]
        by_cases hin : inLine n id
        · obtain ⟨k, hk, hkn, rfl⟩ := (inLine_iff (by omega) id).mp hin
          have hlt : k < n := by
            apply Nat.lt_of_le_of_ne hkn
            intro heq
            exact hid (by rw [heq])
          rw [line_inode (by omega) hk hkn, line_inode (by omega) hk (by omega)]
          unfold lineInode
          rw [if_pos hlt, if_pos hlt, if_pos (by omega), if_pos (by omega)]
        · rw [line_outside hin, line_outside]
          intro hin'
          rcases (inLine_succ hn id).mp hin' with heq | hin'
          · exact hidn heq
          · exact hin hin'
  · show Function.update (line n).used (place (n + 1)) true id = _
    by_cases hidn : id = place (n + 1)
    · subst hidn
      rw [Function.update_self]
      exact (decide_eq_true ((inLine_succ hn _).mpr (.inl rfl))).symm
    · rw [Function.update_of_ne hidn]
      show decide (inLine n id) = decide (inLine (n + 1) id)
      rw [decide_eq_decide, inLine_succ hn]
      exact ⟨.inr, fun hor => hor.resolve_left hidn⟩

theorem line_mounts (n : Nat) : (line n).mounts.Ok := by
  have hhas : ∀ m, (line n).mounts.Has m → m = ⟨disk, place 1, none⟩ := by
    intro m hm
    exact Option.some.inj (List.mem_singleton.mp hm)
  constructor
  case root =>
    intro m hm
    rw [hhas m hm]
    rfl
  case device =>
    intro m hm
    rw [hhas m hm]
    decide
  case once =>
    intro m m' hm hm' _
    rw [hhas m hm, hhas m' hm']
  case covered =>
    intro m p hm hp
    rw [hhas m hm] at hp
    cases hp
  case outside =>
    intro m p hm hp
    rw [hhas m hm] at hp
    cases hp
  case coveredOnce =>
    intro m m' p hm hm' _ _
    rw [hhas m hm, hhas m' hm']

theorem live_line_one (p : InodeId) :
    ((line 1).inode p).Live ↔ p = place 1 := by
  constructor
  · intro hp
    by_cases hin : inLine 1 p
    · obtain ⟨k, hpos, hle, rfl⟩ := (inLine_iff (by omega) p).mp hin
      obtain rfl : k = 1 := by omega
      rfl
    · rw [line_outside hin] at hp
      exact absurd rfl hp.2
  · intro hp
    rw [hp, line_inode (by omega) (by omega) (by omega)]
    exact ⟨rfl, by decide⟩

theorem find_line_one (m : Name) : ((line 1).inode (place 1)).find m
    = if m = dot ∨ m = dotdot then some 1#16 else none := by
  rw [line_inode (by omega) (by omega) (by omega),
    lineInode_find (by omega) (by omega)]
  by_cases hd : m = dot
  · simp [hd]
  · by_cases hdd : m = dotdot
    · simp [hdd]
    · simp [hd, hdd]

theorem not_find_line_one {m : Name} (hm : Proper m) :
    ((line 1).inode (place 1)).find m = none := by
  rw [find_line_one, if_neg]
  intro hor
  rcases hor with hd | hd
  · exact hm.1 hd
  · exact hm.2 hd

theorem line_one_tree : (line 1).tree.Ok := by
  have hlive : ∀ p, (line 1).tree.live p → p = place 1 :=
    fun p hp => (live_line_one p).mp hp
  have hproper : ∀ p n c, (line 1).tree.live p → Proper n →
      (line 1).tree.look p n ≠ some c := by
    intro p n c hp hn hc
    rw [hlive p hp] at hc
    have hc : ((line 1).inode (place 1)).find n = some c := hc
    rw [not_find_line_one hn] at hc
    cases hc
  constructor
  case isDir_of_live => exact fun p hp => hp.1
  case self =>
    intro p hp
    rw [hlive p hp]
    exact find_line_one dot
  case child => exact fun p n c hp hc hn _ => absurd hc (hproper p n c hp hn)
  case irrefl => exact fun p n hp hn => hproper p n _ hp hn
  case once => exact fun p n m c hp hc _ hn _ _ => absurd hc (hproper p n c hp hn)
  case up =>
    intro d hd hroot
    rw [hlive d hd] at hroot
    exact absurd rfl hroot
  case top =>
    intro d hd _
    rw [hlive d hd]
    exact find_line_one dotdot

theorem line_one_ok : (line 1).Ok := by
  have hself : (line 1).inode (place 1) = lineInode 1 1 :=
    line_inode (by omega) (by omega) (by omega)
  refine ⟨⟨⟨line_mounts 1, ?_, ?_, ?_, ?_⟩, line_one_tree⟩, ?_⟩
  · intro id r hr
    simp [line, MountTable.mountedRootAt] at hr
  · intro p hp
    rw [(live_line_one p).mp hp]
    exact (live_line_one _).mpr rfl
  · intro p hp m
    rw [(live_line_one p).mp hp, hself]
    show List.countP (TreeInode.hasName m)
      [(⟨1#16, dot⟩ : DirectoryEntry), ⟨1#16, dotdot⟩] ≤ 1
    by_cases hd : m = dot
    · subst hd
      decide
    · have hno : TreeInode.hasName m ⟨1#16, dot⟩ = false := by
        simp [TreeInode.hasName, Ne.symm hd]
      simp only [List.countP_cons, hno, List.countP_nil]
      split <;> simp
  · intro id hid
    rw [line_outside]
    intro hin
    rcases hid with hu | hz
    · have hu : decide (inLine 1 id) = false := hu
      exact of_decide_eq_false hu hin
    · have hpos := hin.2.1
      rw [hz] at hpos
      exact absurd hpos (by decide)
  · intro id hid
    have hdead : ∀ p : InodeNumber, beside id p ≠ place 1 →
        ((line 1).inode (beside id p)).live_names id.inodeNumber = 0 :=
      fun p hp => if_neg fun hl => hp ((live_line_one _).mp hl)
    have hnames : ((line 1).inode (place 1)).live_names id.inodeNumber
        = if id.inodeNumber = 1#16 then 2 else 0 := by
      rw [TreeInode.live_names, if_pos ((live_line_one _).mpr rfl), hself]
      show List.countP _ [(⟨1#16, dot⟩ : DirectoryEntry), ⟨1#16, dotdot⟩] = _
      by_cases hone : id.inodeNumber = 1#16
      · simp [hone]
      · simp [hone, Ne.symm hone]
    by_cases hdev : id.device = disk
    · have hside : beside id 1#16 = place 1 := by
        unfold NameTree.beside place
        rw [hdev]
      have hrefs : (line 1).refs id = if id.inodeNumber = 1#16 then 2 else 0 := by
        unfold refs
        rw [Finset.sum_eq_single 1#16, hside, hnames]
        · intro p _ hp
          refine hdead p fun heq => hp ?_
          rw [← NameTree.beside_number id p, heq]
          rfl
        · exact fun hno => absurd (Finset.mem_univ _) hno
      rw [hrefs]
      by_cases hone : id.inodeNumber = 1#16
      · have hid : id = place 1 := by rw [← hside, ← hone, NameTree.beside_self]
        rw [if_pos hone, hid, hself]
        decide
      · rw [if_neg hone, line_outside]
        · rfl
        · intro hin
          apply hone
          have := hin.2
          apply BitVec.eq_of_toNat_eq
          simp only [BitVec.toNat_ofNat]
          omega
    · have hrefs : (line 1).refs id = 0 := by
        refine Finset.sum_eq_zero fun p _ => hdead p fun heq => hdev ?_
        rw [← NameTree.beside_device id p, heq]
        rfl
      rw [hrefs, line_outside fun hin => hdev hin.1]
      rfl

theorem deepen_plain {n : Nat} (hpos : 0 < n) (hn : n < 65536) :
    Plain (line n) (deepen n) := by
  refine ⟨?_, rfl⟩
  rw [line_inode hn hpos (Nat.le_refl n)]
  simp [lineInode]

theorem line_ok {n : Nat} (hpos : 0 < n) (hn : n < 65536) : (line n).Ok := by
  induction n, hpos using Nat.le_induction with
  | base => exact line_one_ok
  | succ n hle ih =>
    exact (ih (by omega)).step (deepen_plain hle (by omega))
      (line_step hle (by omega))

theorem line_rooted {n : Nat} (hpos : 0 < n) (hn : n < 65536) :
    (line n).Rooted := by
  induction n, hpos using Nat.le_induction with
  | base =>
    intro d hd
    rw [(live_line_one d).mp hd]
    exact .root _ rfl
  | succ n hle ih =>
    exact (line_ok hle (by omega)).rooted_step (ih (by omega))
      (deepen_plain hle (by omega)) trivial (line_step hle (by omega))

theorem line_find_up {n k : Nat} (hn : n < 65535) (hk : 1 < k) (hle : k ≤ n) :
    ((line n).inode (place k)).find dotdot = some (BitVec.ofNat 16 (k - 1)) := by
  rw [line_inode (by omega) (by omega) hle,
    lineInode_find (by omega) (by omega), if_neg (by decide), if_pos rfl,
    Nat.max_eq_right (by omega)]

theorem line_ascend {n k j : Nat} (hn : n < 65535) (hk : k ≤ n) (hj : j < k) :
    (line n).tree.ascend j (place k) = some (place (k - j)) := by
  induction j with
  | zero => rfl
  | succ j ih =>
    exact NameTree.ascend_concat j (ih (by omega))
      (line_find_up hn (by omega) (by omega))

end DirFs

-- ======== link counts

/-- In every run of plain calls from a consistent file system, the link
count of every inode is the number of entries that name it, and an inode
is freed only when no entry names it. -/
theorem link_counts_exact (s : DirFs) (ops : List DirOp) (h : s.Ok)
    (hplain : Guarded DirFs.step DirFs.Plain s ops) :
    ∀ t ∈ visited DirFs.step s ops, t.LinksExact ∧
      ∀ id t' r, t.evict id = some (t', r) →
        ∀ p n, p.device = id.device → (t.inode p).Live →
          (t.inode p).find n ≠ some id.inodeNumber := by
  intro t ht
  have hok : t.Ok := hplain.visited (fun _ _ _ hs hg => hs.step hg) h t ht
  refine ⟨hok.linksExact, fun id t' r hev p n hdev hlive => ?_⟩
  unfold DirFs.evict at hev
  split at hev
  next hdead => exact hok.unnamed hdead.2 hlive hdev
  next => cases hev

/-- A directory is made on an empty disk and removed again. -/
theorem link_counts_exact_mkdir_rmdir :
    (run DirFs.step (DirFs.line 1)
      [DirFs.deepen 1, .rmdir DirFs.superuser (DirFs.place 1) ['a']]).isSome ∧
    ∀ t ∈ visited DirFs.step (DirFs.line 1)
      [DirFs.deepen 1, .rmdir DirFs.superuser (DirFs.place 1) ['a']],
      t.LinksExact ∧ ∀ id t' r, t.evict id = some (t', r) →
        ∀ p n, p.device = id.device → (t.inode p).Live →
          (t.inode p).find n ≠ some id.inodeNumber := by
  refine ⟨by decide, ?_⟩
  apply link_counts_exact _ _ DirFs.line_one_ok
  unfold Guarded
  rw [DirFs.line_step (by decide) (by decide)]
  refine ⟨DirFs.deepen_plain (by decide) (by decide), ?_⟩
  unfold Guarded
  split
  next =>
    refine ⟨fun number _ => .inl ⟨⟨by decide, by decide⟩, rfl⟩, trivial⟩
  next => trivial

/-- The end of a line after `rmdir` of its `.`: 255 links, and `..`. -/
def DirFs.miscounted : TreeInode :=
  { DirFs.lineInode 2 2 with
    linkCount := 255#8, entries := [⟨0#16, []⟩, ⟨1#16, dotdot⟩] }

/-- `rmdir` of `.` in an empty directory leaves it 255 links for the one
name it has. -/
theorem rmdir_dot_miscounts :
    (DirFs.line 2).Ok ∧ ∃ t, (DirFs.line 2).sysRmdir DirFs.superuser
      (DirFs.place 2) dot = some (t, .ok ()) ∧ ¬ t.LinksExact := by
  have hok := DirFs.line_ok (n := 2) (by decide) (by decide)
  refine ⟨hok, (DirFs.line 2).setInode (DirFs.place 2) DirFs.miscounted, ?_,
    fun hexact => ?_⟩
  · have hcall : (DirFs.line 2).sysRmdir DirFs.superuser (DirFs.place 2) dot
        = some ((((DirFs.line 2).setInode (DirFs.place 2) _).setLinks
          (DirFs.place 2) 0#8).setLinks (DirFs.place 2) 255#8, .ok ()) := rfl
    unfold DirFs.setLinks at hcall
    rw [DirFs.setInode_setInode, DirFs.setInode_setInode] at hcall
    exact hcall
  · -- Its own `.` is gone; the name in the root is left.
    have hrefs := DirFs.refs_setInode (DirFs.line 2) (DirFs.place 2)
      DirFs.miscounted (DirFs.place 2)
    rw [← hexact (DirFs.place 2) (by decide),
      ← hok.linksExact (DirFs.place 2) (by decide)] at hrefs
    revert hrefs
    decide

-- ======== the tree

/-- A plain call of small depth. The counts matter to the tree as well: one
that wraps to 0 makes a directory in use a deleted one. -/
def DirFs.Sheltered (s : DirFs) (op : DirOp) : Prop :=
  s.Plain op ∧ s.Shallow op

/-- In every run of sheltered calls from a consistent tree, every directory
reaches a root by `..`; and a directory that a successful `rename` gives a
new place is not moved to itself or below itself. -/
theorem directory_tree_acyclic (s : DirFs) (ops : List DirOp) (h : s.Ok)
    (hr : s.Rooted) (hguard : Guarded DirFs.step DirFs.Sheltered s ops) :
    ∀ t ∈ visited DirFs.step s ops, t.Rooted ∧
      ∀ c oldDir oldBase newDir newBase room number t',
        t.Sheltered (.rename c oldDir oldBase newDir newBase room) →
        t.sysRename c oldDir oldBase newDir newBase room
          = some (t', .ok ()) →
        (t.inode oldDir).find oldBase = some number →
        (t.inode (beside oldDir number)).fileType = .directory →
        (t.inode newDir).find newBase ≠ some number →
        ∀ k, t.tree.ascend k newDir ≠ some (beside oldDir number) := by
  intro t ht
  have hboth := hguard.visited (I := fun s => s.Ok ∧ s.Rooted)
    (fun _ _ _ hs hg hstep => ⟨hs.1.step hg.1 hstep,
      hs.1.rooted_step hs.2 hg.1 hg.2 hstep⟩) ⟨h, hr⟩ t ht
  refine ⟨hboth.2, fun c oldDir oldBase newDir newBase room number t' hsh hcall
    hf hdir hother k => ?_⟩
  exact hboth.1.renamed_not_below hboth.2 hsh.1 hsh.2 hcall hf hdir hother k

/-- The last of three directories is moved up to the root. -/
theorem directory_tree_acyclic_line :
    ((DirFs.line 3).step (.rename DirFs.superuser (DirFs.place 2) ['a']
      (DirFs.place 1) ['b'] true)).isSome ∧
    ∀ t ∈ visited DirFs.step (DirFs.line 3) [.rename DirFs.superuser
      (DirFs.place 2) ['a'] (DirFs.place 1) ['b'] true], t.Rooted := by
  refine ⟨by decide, fun t ht => ?_⟩
  refine (directory_tree_acyclic _ _ (DirFs.line_ok (by decide) (by decide))
    (DirFs.line_rooted (by decide) (by decide)) ?_ t ht).1
  unfold Guarded
  split
  next =>
    refine ⟨⟨fun number hf => ⟨fun _ => ⟨rfl, fun _ _ => ?_⟩, ?_⟩, ?_⟩, trivial⟩
    · decide
    · intro m hm
      rw [DirFs.line_inode (by decide) (by decide) (by decide),
        DirFs.lineInode_find (by decide) (by decide)] at hm
      cases hm
    · -- Above the root is the root.
      intro number hf k hk
      rw [NameTree.ascend_self (by rfl)] at hk
      rw [DirFs.line_inode (by decide) (by decide) (by decide),
        DirFs.lineInode_find (by decide) (by decide)] at hf
      obtain rfl := Option.some.inj hf
      exact absurd (Option.some.inj hk) (by decide)
  next => trivial

theorem NameTree.not_climbs {t : NameTree} (P : InodeId → Prop)
    (hroot : ∀ d, P d → d.inodeNumber ≠ rootInodeNumber)
    (hup : ∀ d p, P d → t.look d dotdot = some p → P (beside d p))
    {x : InodeId} (hx : P x) : ¬ t.Climbs x := by
  intro hclimb
  induction hclimb with
  | root d hd => exact hroot d hx hd
  | step d p hp _ ih => exact ih (hup d p hx hp)

/-- In a line of 258 directories the second one is moved into the last
one, 256 levels below it: the ancestor check stops one step too early, and
the directories are cut off from the root. -/
theorem rename_below_itself :
    (DirFs.line 258).Ok ∧ (DirFs.line 258).Rooted ∧
    (DirFs.line 258).tree.ascend 256 (DirFs.place 258)
      = some (DirFs.place 2) ∧
    ∃ t, (DirFs.line 258).sysRename DirFs.superuser (DirFs.place 1) ['a']
      (DirFs.place 258) ['b'] true = some (t, .ok ()) ∧ ¬ t.Rooted := by
  have hok := DirFs.line_ok (n := 258) (by decide) (by decide)
  have hr := DirFs.line_rooted (n := 258) (by decide) (by decide)
  refine ⟨hok, hr, DirFs.line_ascend (by decide) (by decide) (by decide), ?_⟩
  have hmoved : ((DirFs.line 258).sysRename DirFs.superuser (DirFs.place 1) ['a']
      (DirFs.place 258) ['b'] true).map (fun a => (a.2,
        decide (a.1.inode (DirFs.place 2)).Live,
        (a.1.inode (DirFs.place 2)).find dotdot))
      = some (.ok (), true, some 258#16) := by decide +kernel
  obtain ⟨⟨t, r⟩, hcall, hpair⟩ := Option.map_eq_some_iff.mp hmoved
  obtain ⟨rfl, hpair⟩ := Prod.mk.inj hpair
  obtain ⟨hlive, hup⟩ := Prod.mk.inj hpair
  have hup : (t.inode (DirFs.place 2)).find dotdot = some 258#16 := hup
  refine ⟨t, hcall, fun hclimb => ?_⟩
  have hrest : ∀ p, p ≠ DirFs.place 2 → ((DirFs.line 258).inode p).Live →
      (t.inode p).find dotdot = ((DirFs.line 258).inode p).find dotdot := by
    have hplain : (DirFs.line 258).Plain (.rename DirFs.superuser
        (DirFs.place 1) ['a'] (DirFs.place 258) ['b'] true) := by
      refine fun number hf => ⟨fun _ => ⟨rfl, fun _ _ => by decide⟩, ?_⟩
      intro m hm
      rw [DirFs.line_inode (by decide) (by decide) (by decide),
        DirFs.lineInode_find (by decide) (by decide)] at hm
      cases hm
    have hstep : (DirFs.line 258).step (.rename DirFs.superuser
        (DirFs.place 1) ['a'] (DirFs.place 258) ['b'] true) = some t :=
      congrArg (Option.map Prod.fst) hcall
    rcases hok.effect hplain hstep with hcalm | ⟨-, d, q, hre, -⟩
    · exact fun p _ hp => hcalm.same p hp
    · intro p hp _
      by_cases hd : DirFs.place 2 = d
      · exact hre.same p (hd ▸ hp)
      · have hsame := hre.same _ hd
        rw [hup, DirFs.line_find_up (by decide) (by decide) (by decide)] at hsame
        exact absurd hsame (by decide)
  refine NameTree.not_climbs (t := t.tree)
    (fun id => ∃ k, 2 ≤ k ∧ k ≤ 258 ∧ id = DirFs.place k) ?_ ?_
    ⟨2, by decide, by decide, rfl⟩ (hclimb _ (of_decide_eq_true hlive))
  · intro d hd
    obtain ⟨k, hk, hle, rfl⟩ := hd
    intro hroot
    have hnum := DirFs.place_toNat (k := k) (by omega)
    rw [hroot] at hnum
    have hone : rootInodeNumber.toNat = 1 := rfl
    omega
  · intro d p hd hp
    obtain ⟨k, hk, hle, rfl⟩ := hd
    have hp : (t.inode (DirFs.place k)).find dotdot = some p := hp
    by_cases htwo : k = 2
    · subst htwo
      rw [hup] at hp
      obtain rfl := Option.some.inj hp
      exact ⟨258, by decide, by decide, rfl⟩
    · have hlk : ((DirFs.line 258).inode (DirFs.place k)).Live := by
        rw [DirFs.line_inode (by decide) (by omega) hle]
        refine ⟨rfl, ?_⟩
        unfold DirFs.lineInode
        dsimp only
        split <;> decide
      rw [hrest _ (DirFs.place_ne (by omega) (by decide) htwo) hlk,
        DirFs.line_find_up (by decide) hk hle] at hp
      obtain rfl := Option.some.inj hp
      exact ⟨k - 1, by omega, by omega, rfl⟩

end LinuxRs.Fs
