/-
The directory tree in the abstract: which directories are live, which
inodes are directories, and what each name stands for.

# What keeps it a tree

`NameTree.Ok` is local: `.` is the directory itself, a directory is named
once, by the directory its `..` names, and every live directory but a
root is named. Each way to edit the names has one lemma here, in terms of
what it changes; a rename is one move whether the parent changes or not.

That `..` leads up to a root (`Climbs`) is not local. Making and removing
directories keeps it; a move keeps it when the new parent is not below
the directory that moves (`Climbs.move`).
-/
import LinuxRs.Fs.Path

namespace LinuxRs.Fs

/-- Names and directories. An entry names an inode of its own device. -/
structure NameTree where
  live : InodeId → Prop
  isDir : InodeId → Prop
  look : InodeId → Name → Option InodeNumber

namespace NameTree

def Proper (name : Name) : Prop := name ≠ dot ∧ name ≠ dotdot

def beside (p : InodeId) (number : InodeNumber) : InodeId := ⟨p.device, number⟩

@[simp] theorem beside_self (p : InodeId) : beside p p.inodeNumber = p := rfl

@[simp] theorem beside_device (p : InodeId) (c : InodeNumber) :
    (beside p c).device = p.device := rfl

@[simp] theorem beside_number (p : InodeId) (c : InodeNumber) :
    (beside p c).inodeNumber = c := rfl

@[simp] theorem beside_beside (p : InodeId) (c d : InodeNumber) :
    beside (beside p c) d = beside p d := rfl

theorem beside_eq {p q : InodeId} (h : q.device = p.device) :
    beside p q.inodeNumber = q := by
  unfold beside
  rw [← h]

/-- The directories form a tree: every one but a root has one name, in its
parent. -/
structure Ok (t : NameTree) : Prop where
  isDir_of_live : ∀ p, t.live p → t.isDir p
  self : ∀ p, t.live p → t.look p dot = some p.inodeNumber
  child : ∀ p n c, t.live p → t.look p n = some c → Proper n →
    t.isDir (beside p c) →
      t.look (beside p c) dotdot = some p.inodeNumber ∧ c ≠ rootInodeNumber
  irrefl : ∀ p n, t.live p → Proper n → t.look p n ≠ some p.inodeNumber
  once : ∀ p n m c, t.live p → t.look p n = some c → t.look p m = some c →
    Proper n → Proper m → t.isDir (beside p c) → n = m
  up : ∀ d, t.live d → d.inodeNumber ≠ rootInodeNumber →
    ∃ p n, p.device = d.device ∧ t.live p ∧ Proper n ∧
      t.look p n = some d.inodeNumber
  top : ∀ d, t.live d → d.inodeNumber = rootInodeNumber →
    t.look d dotdot = some rootInodeNumber

variable {t t' : NameTree} {dir d : InodeId} {base : Name}

theorem Ok.parent (h : t.Ok) (hd : t.live d)
    (hroot : d.inodeNumber ≠ rootInodeNumber) :
    ∃ p n, p.device = d.device ∧ t.live p ∧ Proper n ∧
      t.look p n = some d.inodeNumber ∧
      t.look d dotdot = some p.inodeNumber := by
  obtain ⟨p, n, hdev, hp, hn, hlook⟩ := h.up d hd hroot
  have hd' : beside p d.inodeNumber = d := beside_eq hdev.symm
  have hup := (h.child p n _ hp hlook hn (by
    rw [hd']
    exact h.isDir_of_live d hd)).1
  rw [hd'] at hup
  exact ⟨p, n, hdev, hp, hn, hlook, hup⟩

theorem Ok.dotdot_isSome (h : t.Ok) (hd : t.live d) :
    ∃ q, t.look d dotdot = some q := by
  by_cases hroot : d.inodeNumber = rootInodeNumber
  · exact ⟨_, h.top d hd hroot⟩
  · obtain ⟨p, -, -, -, -, -, hup⟩ := h.parent hd hroot
    exact ⟨_, hup⟩

theorem Ok.namer_unique (h : t.Ok) {p q : InodeId} {n m : Name}
    {c : InodeNumber} (hp : t.live p) (hq : t.live q)
    (hdev : p.device = q.device) (hn : Proper n) (hm : Proper m)
    (hlp : t.look p n = some c) (hlq : t.look q m = some c)
    (hdir : t.isDir (beside p c)) : p = q ∧ n = m := by
  have hside : beside p c = beside q c := by
    unfold beside
    rw [hdev]
  have hup := (h.child p n c hp hlp hn hdir).1
  have huq := (h.child q m c hq hlq hm (hside ▸ hdir)).1
  rw [hside, huq] at hup
  have hpq : p = q := by
    cases p
    cases q
    simp only [InodeId.mk.injEq] at *
    exact ⟨hdev, (Option.some.inj hup).symm⟩
  subst hpq
  exact ⟨rfl, h.once p n m c hp hlp hlq hn hm hdir⟩

-- ======== a new directory

/-- A new directory is a leaf. -/
theorem Ok.addDir (h : t.Ok) {new : InodeId} (hdir : t.live dir)
    (hdev : new.device = dir.device) (hbase : Proper base)
    (hroot : new.inodeNumber ≠ rootInodeNumber)
    (hfree : t.look dir base = none)
    (hunnamed : ∀ p n, t.live p → p.device = dir.device →
      t.look p n ≠ some new.inodeNumber)
    (hdead : ¬ t.live new)
    (hlive' : ∀ p, t'.live p ↔ p = new ∨ t.live p)
    (hisDir' : ∀ p, t'.isDir p ↔ p = new ∨ t.isDir p)
    (hnew : ∀ n, t'.look new n = if n = dot then some new.inodeNumber
      else if n = dotdot then some dir.inodeNumber else none)
    (hnamed : ∀ n, t'.look dir n = if n = base then some new.inodeNumber
      else t.look dir n)
    (hrest : ∀ p n, p ≠ new → p ≠ dir → t'.look p n = t.look p n) :
    t'.Ok := by
  have hnd : new ≠ dir := fun heq => hdead (heq ▸ hdir)
  have hside : beside dir new.inodeNumber = new := beside_eq hdev
  -- What an old directory finds: the new name, or what it found before.
  have hold : ∀ p n c, t.live p → t'.look p n = some c →
      (p = dir ∧ n = base ∧ c = new.inodeNumber) ∨
        (t.look p n = some c ∧ (p = dir → n ≠ base) ∧ beside p c ≠ new) := by
    intro p n c hp hlook
    have hpn : p ≠ new := fun heq => hdead (heq ▸ hp)
    have hother : t.look p n = some c → beside p c ≠ new := by
      intro hc heq
      have hdevp : p.device = dir.device := by
        rw [← hdev, ← heq, beside_device]
      apply hunnamed p n hp hdevp
      rw [hc, ← heq, beside_number]
    by_cases hpd : p = dir
    · subst hpd
      rw [hnamed] at hlook
      split at hlook
      next hb => exact .inl ⟨rfl, hb, (Option.some.inj hlook).symm⟩
      next hb => exact .inr ⟨hlook, fun _ => hb, hother hlook⟩
    · rw [hrest p n hpn hpd] at hlook
      exact .inr ⟨hlook, fun heq => absurd heq hpd, hother hlook⟩
  have hkeep : ∀ p n c, t.live p → t.look p n = some c →
      t'.look p n = some c := by
    intro p n c hp hlook
    have hpn : p ≠ new := fun heq => hdead (heq ▸ hp)
    by_cases hpd : p = dir
    · subst hpd
      rw [hnamed]
      split
      next hb =>
        subst hb
        rw [hfree] at hlook
        cases hlook
      next => exact hlook
    · rw [hrest p n hpn hpd]
      exact hlook
  -- `..` of an old directory is as it was, also of a dead one.
  have hup : ∀ q c, q ≠ new → t.look q dotdot = some c →
      t'.look q dotdot = some c := by
    intro q c hq hlook
    by_cases hqd : q = dir
    · subst hqd
      exact hkeep q dotdot c hdir hlook
    · rw [hrest q _ hq hqd]
      exact hlook
  have hnewProper : ∀ n, Proper n → t'.look new n = none := by
    intro n hn
    rw [hnew, if_neg hn.1, if_neg hn.2]
  constructor
  case isDir_of_live =>
    intro p hp
    rw [hisDir']
    exact ((hlive' p).mp hp).imp_right (h.isDir_of_live p)
  case self =>
    intro p hp
    rcases (hlive' p).mp hp with rfl | hp
    · rw [hnew, if_pos rfl]
    · exact hkeep p dot _ hp (h.self p hp)
  case child =>
    intro p n c hp hlook hn hc
    rcases (hlive' p).mp hp with rfl | hp
    · rw [hnewProper n hn] at hlook
      cases hlook
    · rcases hold p n c hp hlook with ⟨rfl, rfl, rfl⟩ | ⟨hlook, -, hne⟩
      · rw [hside, hnew, if_neg (by decide), if_pos rfl]
        exact ⟨rfl, hroot⟩
      · have hc' := ((hisDir' _).mp hc).resolve_left hne
        obtain ⟨hup', hcr⟩ := h.child p n c hp hlook hn hc'
        exact ⟨hup _ _ hne hup', hcr⟩
  case irrefl =>
    intro p n hp hn hlook
    rcases (hlive' p).mp hp with rfl | hp
    · rw [hnewProper n hn] at hlook
      cases hlook
    · rcases hold p n _ hp hlook with ⟨rfl, -, hnum⟩ | ⟨hlook, -⟩
      · apply hnd
        rw [← hside, ← hnum, beside_self]
      · exact h.irrefl p n hp hn hlook
  case once =>
    intro p n m c hp hln hlm hn hm hc
    rcases (hlive' p).mp hp with rfl | hp
    · rw [hnewProper n hn] at hln
      cases hln
    · rcases hold p n c hp hln with ⟨rfl, rfl, rfl⟩ | ⟨hln, hnb, hne⟩
      · rcases hold p m _ hp hlm with ⟨-, rfl, -⟩ | ⟨-, -, hne⟩
        · rfl
        · exact absurd hside hne
      · rcases hold p m c hp hlm with ⟨rfl, rfl, rfl⟩ | ⟨hlm, -, -⟩
        · exact absurd hside hne
        · exact h.once p n m c hp hln hlm hn hm
            (((hisDir' _).mp hc).resolve_left hne)
  case up =>
    intro x hx hxr
    rcases (hlive' x).mp hx with rfl | hx
    · refine ⟨dir, base, hdev.symm, (hlive' _).mpr (.inr hdir), hbase, ?_⟩
      rw [hnamed, if_pos rfl]
    · obtain ⟨p, n, hpd, hp, hn, hlook⟩ := h.up x hx hxr
      exact ⟨p, n, hpd, (hlive' _).mpr (.inr hp), hn, hkeep p n _ hp hlook⟩
  case top =>
    intro x hx hxr
    rcases (hlive' x).mp hx with rfl | hx
    · exact absurd hxr hroot
    · exact hkeep x _ _ hx (h.top x hx hxr)

-- ======== other files

/-- A directory that nothing names may go. -/
theorem Ok.forget (h : t.Ok) {x : InodeId} (hdead : ¬ t.live x)
    (hunnamed : ∀ p n, t.live p → p.device = x.device →
      t.look p n ≠ some x.inodeNumber)
    (hlive' : ∀ p, t'.live p ↔ t.live p)
    (hisDir' : ∀ p, p ≠ x → (t'.isDir p ↔ t.isDir p))
    (hlook' : ∀ p n, p ≠ x → t'.look p n = t.look p n) :
    t'.Ok := by
  have hne : ∀ p, t.live p → p ≠ x := fun p hp heq => hdead (heq ▸ hp)
  have hside : ∀ p n c, t.live p → t.look p n = some c → beside p c ≠ x := by
    intro p n c hp hlook heq
    apply hunnamed p n hp
    · rw [← heq, beside_device]
    · rw [hlook, ← heq, beside_number]
  have hlook : ∀ p n, t.live p → t'.look p n = t.look p n :=
    fun p n hp => hlook' p n (hne p hp)
  constructor
  case isDir_of_live =>
    intro p hp
    have hp := (hlive' p).mp hp
    exact (hisDir' p (hne p hp)).mpr (h.isDir_of_live p hp)
  case self =>
    intro p hp
    have hp := (hlive' p).mp hp
    rw [hlook p _ hp]
    exact h.self p hp
  case child =>
    intro p n c hp hc hn hd
    have hp := (hlive' p).mp hp
    rw [hlook p n hp] at hc
    have hcx := hside p n c hp hc
    rw [hlook' _ _ hcx]
    exact h.child p n c hp hc hn ((hisDir' _ hcx).mp hd)
  case irrefl =>
    intro p n hp hn
    have hp := (hlive' p).mp hp
    rw [hlook p n hp]
    exact h.irrefl p n hp hn
  case once =>
    intro p n m c hp hln hlm hn hm hd
    have hp := (hlive' p).mp hp
    rw [hlook p _ hp] at hln hlm
    exact h.once p n m c hp hln hlm hn hm
      ((hisDir' _ (hside p n c hp hln)).mp hd)
  case up =>
    intro d hd hroot
    obtain ⟨p, n, hdev, hp, hn, hpn⟩ := h.up d ((hlive' d).mp hd) hroot
    exact ⟨p, n, hdev, (hlive' p).mpr hp, hn, by rw [hlook p n hp, hpn]⟩
  case top =>
    intro d hd hroot
    have hd := (hlive' d).mp hd
    rw [hlook d _ hd]
    exact h.top d hd hroot

/-- A new name of a file keeps the tree. -/
theorem Ok.addFile (h : t.Ok) {c : InodeNumber}
    (hfree : t.look dir base = none)
    (hfile : ¬ t.isDir (beside dir c)) (hlive' : ∀ p, t'.live p ↔ t.live p)
    (hisDir' : ∀ p, t'.isDir p ↔ t.isDir p)
    (hnamed : ∀ n, t'.look dir n = if n = base then some c else t.look dir n)
    (hrest : ∀ p n, p ≠ dir → t'.look p n = t.look p n) : t'.Ok := by
  -- A directory found now was found before.
  have hold : ∀ p n x, t'.look p n = some x → t.isDir (beside p x) →
      t.look p n = some x := by
    intro p n x hlook hx
    by_cases hpd : p = dir
    · subst hpd
      rw [hnamed] at hlook
      split at hlook
      next =>
        cases hlook
        exact absurd hx hfile
      next => exact hlook
    · rw [hrest p n hpd] at hlook
      exact hlook
  have hkeep : ∀ p n x, t.look p n = some x → t'.look p n = some x := by
    intro p n x hlook
    by_cases hpd : p = dir
    · subst hpd
      rw [hnamed]
      split
      next hb =>
        rw [hb, hfree] at hlook
        cases hlook
      next => exact hlook
    · rw [hrest p n hpd]
      exact hlook
  constructor
  case isDir_of_live =>
    intro p hp
    exact (hisDir' p).mpr (h.isDir_of_live p ((hlive' p).mp hp))
  case self =>
    intro p hp
    exact hkeep p dot _ (h.self p ((hlive' p).mp hp))
  case child =>
    intro p n x hp hlook hn hx
    have hx := (hisDir' _).mp hx
    obtain ⟨hdd, hroot⟩ :=
      h.child p n x ((hlive' p).mp hp) (hold p n x hlook hx) hn hx
    exact ⟨hkeep _ _ _ hdd, hroot⟩
  case irrefl =>
    intro p n hp hn hlook
    have hp := (hlive' p).mp hp
    exact h.irrefl p n hp hn (hold p n _ hlook (h.isDir_of_live p hp))
  case once =>
    intro p n m x hp hln hlm hn hm hx
    have hx := (hisDir' _).mp hx
    exact h.once p n m x ((hlive' p).mp hp) (hold p n x hln hx)
      (hold p m x hlm hx) hn hm hx
  case up =>
    intro x hx hxr
    obtain ⟨p, n, hpd, hp, hn, hlook⟩ := h.up x ((hlive' x).mp hx) hxr
    exact ⟨p, n, hpd, (hlive' p).mpr hp, hn, hkeep p n _ hlook⟩
  case top =>
    intro x hx hxr
    exact hkeep x _ _ (h.top x ((hlive' x).mp hx) hxr)

-- ======== a name goes

/-- Without one name, every other name is as before. -/
theorem look_dropped
    (hnamed : ∀ n, t'.look dir n = if n = base then none else t.look dir n)
    (hrest : ∀ p n, p ≠ dir → t'.look p n = t.look p n) :
    (∀ p n x, t'.look p n = some x → t.look p n = some x) ∧
      ∀ p n x, (p = dir → n ≠ base) → t.look p n = some x →
        t'.look p n = some x := by
  constructor
  · intro p n x hx
    by_cases hpd : p = dir
    · subst hpd
      rw [hnamed] at hx
      split at hx
      next => cases hx
      next => exact hx
    · rw [hrest p n hpd] at hx
      exact hx
  · intro p n x hne hx
    by_cases hpd : p = dir
    · subst hpd
      rw [hnamed, if_neg (hne rfl)]
      exact hx
    · rw [hrest p n hpd]
      exact hx

/-- A dropped name leaves the tree of the others. -/
theorem Ok.dropName (h : t.Ok) {c : InodeNumber} (hbase : Proper base)
    (hlook : t.look dir base = some c)
    (hlive' : ∀ p, t'.live p → t.live p) (hgone : ¬ t'.live (beside dir c))
    (hkept : ∀ p, p ≠ beside dir c → t.live p → t'.live p)
    (hempty : t.live (beside dir c) →
      ∀ n x, t.look (beside dir c) n = some x → ¬ Proper n)
    (hisDir' : ∀ p, t'.isDir p ↔ t.isDir p)
    (hnamed : ∀ n, t'.look dir n = if n = base then none else t.look dir n)
    (hrest : ∀ p n, p ≠ dir → t'.look p n = t.look p n) :
    t'.Ok := by
  obtain ⟨hold, hkeep⟩ := look_dropped hnamed hrest
  have hdd : ∀ p x, t.look p dotdot = some x → t'.look p dotdot = some x :=
    fun p x hx => hkeep p _ x (fun _ heq => hbase.2 heq.symm) hx
  constructor
  case isDir_of_live =>
    intro p hp
    exact (hisDir' p).mpr (h.isDir_of_live p (hlive' p hp))
  case self =>
    intro p hp
    exact hkeep p dot _ (fun _ heq => hbase.1 heq.symm)
      (h.self p (hlive' p hp))
  case child =>
    intro p n x hp hx hn hxd
    obtain ⟨hup, hroot⟩ := h.child p n x (hlive' p hp) (hold p n x hx) hn
      ((hisDir' _).mp hxd)
    exact ⟨hdd _ _ hup, hroot⟩
  case irrefl =>
    intro p n hp hn hx
    exact h.irrefl p n (hlive' p hp) hn (hold p n _ hx)
  case once =>
    intro p n m x hp hln hlm hn hm hxd
    exact h.once p n m x (hlive' p hp) (hold p n x hln) (hold p m x hlm)
      hn hm ((hisDir' _).mp hxd)
  case up =>
    intro x hx' hxr
    have hx := hlive' x hx'
    have hxc : x ≠ beside dir c := fun heq => hgone (heq ▸ hx')
    obtain ⟨p, n, hpd, hp, hn, hpn⟩ := h.up x hx hxr
    -- The namer is not the removed directory, which is empty.
    have hpne : p ≠ beside dir c := by
      intro heq
      subst heq
      exact hempty hp n _ hpn hn
    refine ⟨p, n, hpd, hkept p hpne hp, hn, hkeep p n _ ?_ hpn⟩
    intro heq hnb
    subst heq hnb
    rw [hpn] at hlook
    cases hlook
    exact hxc (beside_eq hpd.symm).symm
  case top =>
    intro x hx hxr
    exact hdd x _ (h.top x (hlive' x hx) hxr)

-- ======== a directory moves

/-- A directory that is moved keeps the tree: its name and its `..` go
together. -/
theorem Ok.move (h : t.Ok) {oldDir newDir : InodeId} {oldBase newBase : Name}
    (hd : t.live d) (holdLive : t.live oldDir) (hnewLive : t.live newDir)
    (hdev : d.device = oldDir.device) (hdevs : newDir.device = oldDir.device)
    (hob : Proper oldBase) (hnb : Proper newBase)
    (hne : newDir ≠ d) (hlook : t.look oldDir oldBase = some d.inodeNumber)
    (hfree : t.look newDir newBase = none) (hlive' : ∀ p, t'.live p ↔ t.live p)
    (hisDir' : ∀ p, t'.isDir p ↔ t.isDir p) (hlook' : ∀ p n, t'.look p n =
      if p = newDir ∧ n = newBase then some d.inodeNumber
      else if p = oldDir ∧ n = oldBase then none
      else if p = d ∧ n = dotdot then some newDir.inodeNumber
      else t.look p n) :
    t'.Ok := by
  have hdir := h.isDir_of_live d hd
  have hside : beside oldDir d.inodeNumber = d := beside_eq hdev
  have hsideNew : beside newDir d.inodeNumber = d :=
    beside_eq (hdev.trans hdevs.symm)
  have hroot : d.inodeNumber ≠ rootInodeNumber :=
    (h.child oldDir oldBase _ holdLive hlook hob (by rw [hside]; exact hdir)).2
  -- A proper name finds the moved directory in its new place only.
  have hold : ∀ p n x, t.live p → Proper n → t'.look p n = some x →
      t.isDir (beside p x) → (p = newDir ∧ n = newBase ∧ x = d.inodeNumber) ∨
        (t.look p n = some x ∧ beside p x ≠ d) := by
    intro p n x hp hn hx hxd
    rw [hlook'] at hx
    split at hx
    next hc => exact .inl ⟨hc.1, hc.2, (Option.some.inj hx).symm⟩
    next =>
      split at hx
      next => cases hx
      next hold =>
        split at hx
        next hc => exact absurd hc.2 hn.2
        next =>
          refine .inr ⟨hx, fun heq => hold ?_⟩
          have hnum : x = d.inodeNumber := by rw [← heq, beside_number]
          have hpdev : p.device = oldDir.device := by
            rw [← hdev, ← heq, beside_device]
          rw [hnum] at hx hxd
          exact h.namer_unique hp holdLive hpdev hn hob hx hlook hxd
  have hdd : ∀ p, p ≠ d → t'.look p dotdot = t.look p dotdot := by
    intro p hpd
    rw [hlook', if_neg fun hc => hnb.2 hc.2.symm,
      if_neg fun hc => hob.2 hc.2.symm, if_neg fun hc => hpd hc.1]
  have hdd' : t'.look d dotdot = some newDir.inodeNumber := by
    rw [hlook', if_neg fun hc => hnb.2 hc.2.symm,
      if_neg fun hc => hob.2 hc.2.symm, if_pos ⟨rfl, rfl⟩]
  constructor
  case isDir_of_live =>
    intro p hp
    exact (hisDir' p).mpr (h.isDir_of_live p ((hlive' p).mp hp))
  case self =>
    intro p hp
    rw [hlook', if_neg fun hc => hnb.1 hc.2.symm,
      if_neg fun hc => hob.1 hc.2.symm, if_neg fun hc => by
        exact absurd hc.2 (by decide)]
    exact h.self p ((hlive' p).mp hp)
  case child =>
    intro p n x hp hx hn hxd
    have hp := (hlive' p).mp hp
    rcases hold p n x hp hn hx ((hisDir' _).mp hxd) with
      ⟨rfl, rfl, rfl⟩ | ⟨hx, hne⟩
    · rw [hsideNew]
      exact ⟨hdd', hroot⟩
    · rw [hdd _ hne]
      exact h.child p n x hp hx hn ((hisDir' _).mp hxd)
  case irrefl =>
    intro p n hp hn hx
    have hp := (hlive' p).mp hp
    rcases hold p n _ hp hn hx (h.isDir_of_live p hp) with
      ⟨rfl, -, hnum⟩ | ⟨hx, -⟩
    · apply hne
      rw [← hsideNew, ← hnum, beside_self]
    · exact h.irrefl p n hp hn hx
  case once =>
    intro p n m x hp hln hlm hn hm hxd
    have hp := (hlive' p).mp hp
    have hxd := (hisDir' _).mp hxd
    rcases hold p n x hp hn hln hxd with ⟨rfl, rfl, rfl⟩ | ⟨hln, hne⟩
    · rcases hold p m _ hp hm hlm hxd with ⟨-, rfl, -⟩ | ⟨-, hne⟩
      · rfl
      · exact absurd hsideNew hne
    · rcases hold p m x hp hm hlm hxd with ⟨rfl, rfl, rfl⟩ | ⟨hlm, -⟩
      · exact absurd hsideNew hne
      · exact h.once p n m x hp hln hlm hn hm hxd
  case up =>
    intro x hx hxr
    have hx := (hlive' x).mp hx
    by_cases hxd : x = d
    · subst hxd
      refine ⟨newDir, newBase, hdevs.trans hdev.symm, (hlive' _).mpr hnewLive,
        hnb, ?_⟩
      rw [hlook', if_pos ⟨rfl, rfl⟩]
    · obtain ⟨p, n, hpd, hp, hn, hpn⟩ := h.up x hx hxr
      refine ⟨p, n, hpd, (hlive' p).mpr hp, hn, ?_⟩
      have hfst : ¬ (p = newDir ∧ n = newBase) := by
        intro hc
        rw [hc.1, hc.2, hfree] at hpn
        cases hpn
      have hsnd : ¬ (p = oldDir ∧ n = oldBase) := by
        intro hc
        rw [hc.1, hc.2, hlook] at hpn
        apply hxd
        rw [← beside_eq hpd.symm, ← Option.some.inj hpn, hc.1, hside]
      rw [hlook', if_neg hfst, if_neg hsnd, if_neg fun hc => hn.2 hc.2]
      exact hpn
  case top =>
    intro x hx hxr
    rw [hdd x fun heq => hroot (heq ▸ hxr)]
    exact h.top x ((hlive' x).mp hx) hxr

-- ======== going up

/-- `..` leads to a root in finitely many steps. -/
inductive Climbs (t : NameTree) : InodeId → Prop
  | root (d : InodeId) : d.inodeNumber = rootInodeNumber → Climbs t d
  | step (d : InodeId) (p : InodeNumber) : t.look d dotdot = some p →
      Climbs t (beside d p) → Climbs t d

def ascend (t : NameTree) : Nat → InodeId → Option InodeId
  | 0, d => some d
  | k + 1, d => (t.look d dotdot).bind fun p => ascend t k (beside d p)

theorem Ok.live_up (h : t.Ok) (hd : t.live d) {p : InodeNumber}
    (hp : t.look d dotdot = some p) : t.live (beside d p) := by
  by_cases hroot : d.inodeNumber = rootInodeNumber
  · have htop := h.top d hd hroot
    rw [hp] at htop
    rw [Option.some.inj htop, ← hroot]
    exact hd
  · obtain ⟨q, n, hdev, hq, -, -, hup⟩ := h.parent hd hroot
    rw [hp] at hup
    rw [Option.some.inj hup, beside_eq hdev]
    exact hq

theorem Climbs.congr (h : t.Ok) {x : InodeId} (hx : t.live x)
    (hclimb : t.Climbs x)
    (hdd : ∀ p, t.live p → t'.look p dotdot = t.look p dotdot) :
    t'.Climbs x := by
  induction hclimb with
  | root d hroot => exact .root d hroot
  | step d p hp _ ih =>
    exact .step d p (by rw [hdd d hx, hp]) (ih (h.live_up hx hp))

theorem Climbs.avoid {x : InodeId} (hclimb : t.Climbs x)
    (hnot : ∀ k, t.ascend k x ≠ some d)
    (hdd : ∀ p, p ≠ d → t'.look p dotdot = t.look p dotdot) : t'.Climbs x := by
  induction hclimb with
  | root y hroot => exact .root y hroot
  | step y p hp _ ih =>
    refine .step y p ?_ (ih fun k hk => ?_)
    · rw [hdd y fun heq => hnot 0 (by rw [heq]; rfl), hp]
    · apply hnot (k + 1)
      simp only [ascend, hp, Option.bind_some]
      exact hk

theorem Climbs.move {newDir : InodeId} (hnew : t.Climbs newDir)
    (hnot : ∀ k, t.ascend k newDir ≠ some d) (hdev : newDir.device = d.device)
    (hdd : ∀ p, p ≠ d → t'.look p dotdot = t.look p dotdot)
    (hup : t'.look d dotdot = some newDir.inodeNumber)
    {x : InodeId} (hclimb : t.Climbs x) : t'.Climbs x := by
  have hnew' := hnew.avoid hnot hdd
  induction hclimb with
  | root y hroot => exact .root y hroot
  | step y p hp _ ih =>
    by_cases hyd : y = d
    · subst hyd
      refine .step y _ hup ?_
      rw [beside_eq hdev]
      exact hnew'
    · exact .step y p (by rw [hdd y hyd, hp]) ih

end NameTree

end LinuxRs.Fs
