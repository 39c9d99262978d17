/-
Where `resolve_path` is the reference walk, and where it is not.

# The three differences

A pathname that ends in a character of several bytes is cut through and
the code panics (`resolvePath_panic`).

The last component is looked up as it is. For every name but `..` that is
the rule. For `..` it is not the rule at the task's root, unless that is
the root of a file system, whose `..` leads back to it, and not at a
mounted root, whose own `..` does not leave the file system; everywhere
else it is (`entry_dotdot_eq_iff`).

A leading `.` is skipped and a last one is looked up and crossed. They
differ in a covered directory, which a walk only meets where it starts:
every other directory comes out of a crossing (`dotsUncovered_of_starts`).

# Staying inside

`Inside` is what descending from the task's root reaches. With the root
itself uncovered, the rule never leaves it (`component_inside`).
-/
import LinuxRs.Fs.Path

namespace LinuxRs.Fs

open LinuxRs.Driver (DevNum)

namespace Namespace

variable {ns : Namespace} {task : PathTask ns} {root current dir id : InodeId}

-- ======== one lookup

theorem live_of_searchable (h : ns.searchable task id = true) :
    (ns.inode id).Live := by
  unfold searchable checkPermission checkPermissionAs at h
  simp only [Bool.and_eq_true, decide_eq_true_eq] at h
  obtain ⟨hdir, hperm⟩ := h
  refine ⟨hdir, fun hzero => ?_⟩
  rw [if_pos hzero] at hperm
  cases hperm

def Mounted (ns : Namespace) (id : InodeId) : Prop :=
  (ns.mounts.findFs id.device).isSome = true

theorem lookup_resolveInode (hlive : (ns.inode dir).Live)
    (hm : ns.Mounted dir) (name : Name) : (ns.lookup dir name >>= fun number =>
      ns.mounts.resolveInode ⟨dir.device, number⟩)
      = .ofOption (ns.entry dir name) := by
  unfold lookup entry
  rw [if_pos hlive.1]
  cases (ns.inode dir).find name with
  | none => rfl
  | some number =>
    have hid : ns.Mounted ⟨dir.device, number⟩ := hm
    simpa using ns.ok.resolveInode hid

theorem mounted_of_entry (hm : ns.Mounted dir) {name : Name}
    (h : ns.entry dir name = some id) : ns.Mounted id := by
  obtain ⟨number, -, rfl⟩ := Option.map_eq_some_iff.mp h
  exact ns.ok.cross_mounted hm

theorem uncovered_of_entry {name : Name} (h : ns.entry dir name = some id) :
    ns.mounts.mountedRootAt id = none := by
  obtain ⟨number, -, rfl⟩ := Option.map_eq_some_iff.mp h
  exact ns.ok.cross_uncovered _

theorem base_live (hlive : (ns.inode current).Live) (hm : ns.Mounted current) :
    (ns.inode ((ns.mounts.mountPointForRoot current).getD current)).Live ∧
      ns.Mounted ((ns.mounts.mountPointForRoot current).getD current) := by
  cases hp : ns.mounts.mountPointForRoot current with
  | none => exact ⟨hlive, hm⟩
  | some p =>
    have hr := ns.ok.mountedRootAt_of_mountPointForRoot hp
    obtain ⟨m, hmem, -, hpoint⟩ := ns.ok.mountPointForRoot_iff.mp hp
    obtain ⟨-, m', hm', hdev⟩ := ns.ok.covered m p hmem hpoint
    refine ⟨ns.point p current hr, ?_⟩
    exact (ns.mounts.findFs_isSome_iff _).mpr ⟨m', hm', hdev⟩

theorem resolveDotdot_eq (hlive : (ns.inode current).Live)
    (hm : ns.Mounted current) : ns.resolveDotdot current root
      = .ofOption (ns.component root current dotdot) := by
  unfold resolveDotdot component
  rw [if_pos rfl]
  by_cases heq : current = root
  · rw [if_pos heq, if_pos heq]
    rfl
  · rw [if_neg heq, if_neg heq]
    obtain ⟨hlive', hm'⟩ := base_live hlive hm
    exact lookup_resolveInode hlive' hm' dotdot

theorem component_spec (hlive : (ns.inode current).Live)
    (hm : ns.Mounted current) {name : Name}
    (h : ns.component root current name = some id) :
    ns.Mounted id ∧ (id = root ∨ ns.mounts.mountedRootAt id = none) := by
  unfold component at h
  split at h
  next =>
    split at h
    next heq =>
      cases h
      exact ⟨heq ▸ hm, .inl rfl⟩
    next =>
      exact ⟨mounted_of_entry (base_live hlive hm).2 h,
        .inr (uncovered_of_entry h)⟩
  next => exact ⟨mounted_of_entry hm h, .inr (uncovered_of_entry h)⟩

-- ======== the leading components

/-- No `.` of the names is walked in a covered directory. -/
def DotsUncovered (ns : Namespace) (task : PathTask ns) (root : InodeId) :
    List Name → InodeId → Prop
  | [], _ => True
  | name :: rest, current => ns.searchable task current = true →
      (name = dot → ns.mounts.mountedRootAt current = none) ∧
      ∀ next, ns.component root current name = some next →
        DotsUncovered ns task root rest next

/-- From name to name, the walk is the one of the abstract path. -/
theorem walkParents_eq {names : List Name} : ∀ {current : InodeId},
    ns.Mounted current → ns.DotsUncovered task root names current →
    ns.walkParents task root (names.map .fromRaw) current
      = .ofOption (ns.walk task root names current) := by
  induction names with
  | nil => exact fun _ _ => rfl
  | cons name rest ih =>
    intro current hm hdots
    rw [List.map_cons, walkParents.eq_def, walk]
    dsimp only
    by_cases hs : ns.searchable task current = true
    · rw [if_pos hs, if_pos hs]
      have hlive := live_of_searchable hs
      obtain ⟨hdot, hnext⟩ := hdots hs
      -- Whatever the component is, the loop goes on from the rule's answer.
      have hgo : (Outcome.ofOption (ns.component root current name) >>=
          fun next => ns.walkParents task root (rest.map .fromRaw) next)
          = .ofOption ((ns.component root current name).bind
            (ns.walk task root rest)) := by
        cases hc : ns.component root current name with
        | none => rfl
        | some next =>
          exact ih (component_spec hlive hm hc).1 (hnext next hc)
      rw [← hgo, PathComponent.fromRaw]
      by_cases hname : name = dot
      · have hself : ns.component root current name = some current := by
          rw [hname, component, if_neg (by decide), entry,
            ns.self current hlive]
          exact congrArg some (MountTable.cross_of_uncovered (hdot hname))
        rw [if_pos hname, hself]
        rfl
      · rw [if_neg hname]
        by_cases hparent : name = dotdot
        · subst hparent
          rw [if_pos rfl, ← resolveDotdot_eq hlive hm]
        · rw [if_neg hparent, component, if_neg hparent,
            ← lookup_resolveInode hlive hm name]
          dsimp only
          cases ns.lookup current name <;> rfl
    · rw [if_neg hs, if_neg hs]
      rfl

theorem dotsUncovered_of_starts (hm : ns.Mounted root)
    (hroot : ns.searchable task root = true →
      ns.mounts.mountedRootAt root = none) {names : List Name} :
    ∀ {current : InodeId}, ns.Mounted current →
      (ns.searchable task current = true →
        ns.mounts.mountedRootAt current = none) →
      ns.DotsUncovered task root names current := by
  induction names with
  | nil => exact fun _ _ => trivial
  | cons name rest ih =>
    intro current hcm hcur hs
    refine ⟨fun _ => hcur hs, fun next hnext => ?_⟩
    obtain ⟨hmn, hor⟩ := component_spec (live_of_searchable hs) hcm hnext
    apply ih hmn
    rcases hor with rfl | hun
    · exact hroot
    · exact fun _ => hun

theorem walk_append (names names' : List Name) : ∀ current : InodeId,
    ns.walk task root (names ++ names') current
      = (ns.walk task root names current).bind (ns.walk task root names') := by
  induction names with
  | nil => exact fun _ => rfl
  | cons name rest ih =>
    intro current
    rw [List.cons_append, walk, walk]
    split
    next =>
      cases ns.component root current name with
      | none => rfl
      | some next => exact ih next
    next => rfl

theorem walk_mounted {names : List Name} : ∀ {current : InodeId},
    ns.Mounted current → ns.walk task root names current = some id →
    ns.Mounted id := by
  induction names with
  | nil => exact fun hm hw => Option.some.inj hw ▸ hm
  | cons name rest ih =>
    intro current hm hw
    rw [walk] at hw
    split at hw
    next hs =>
      obtain ⟨next, hc, hrest⟩ := Option.bind_eq_some_iff.mp hw
      exact ih (component_spec (live_of_searchable hs) hm hc).1 hrest
    next => cases hw

-- ======== the last component

/-- A `..` that the code looks up without the rule: at a task root that
is not the root of its file system, or at a mounted root. -/
def Unruled (ns : Namespace) (root dir : InodeId) : Prop :=
  (dir = root ∧ dir.inodeNumber ≠ rootInodeNumber) ∨
    (dir ≠ root ∧ (ns.mounts.mountPointForRoot dir).isSome = true)

/-- The stored `..` is the rule's exactly where no rule replaces it. -/
theorem entry_dotdot_eq_iff (hlive : (ns.inode dir).Live) :
    ns.entry dir dotdot = ns.component root dir dotdot
      ↔ ¬ ns.Unruled root dir := by
  unfold component Unruled
  rw [if_pos rfl]
  by_cases heq : dir = root
  · rw [if_pos heq]
    by_cases hnum : dir.inodeNumber = rootInodeNumber
    · have hself : ns.entry dir dotdot = some dir := by
        rw [entry, ns.top dir hlive hnum, Option.map_some, ← hnum]
        exact congrArg some
          (MountTable.cross_of_uncovered (ns.ok.root_uncovered hnum))
      rw [hself, heq]
      simp [← heq, hnum]
    · obtain ⟨p, hp, hne⟩ := ns.parent dir hlive hnum
      refine iff_of_false ?_ (fun h => h (.inl ⟨heq, hnum⟩))
      intro hcon
      rw [entry, hp, Option.map_some, Option.some.injEq, ← heq,
        MountTable.cross] at hcon
      cases hr : ns.mounts.mountedRootAt ⟨dir.device, p⟩ with
      | none =>
        rw [hr] at hcon
        exact hne (congrArg InodeId.inodeNumber hcon)
      | some r =>
        rw [hr] at hcon
        exact hnum (hcon ▸ ns.ok.number_of_mountedRootAt hr)
  · rw [if_neg heq]
    cases hp : ns.mounts.mountPointForRoot dir with
    | none => simp [heq]
    | some m =>
      refine iff_of_false ?_ (fun h => h (.inr ⟨heq, rfl⟩))
      have hr := ns.ok.mountedRootAt_of_mountPointForRoot hp
      have hnum := ns.ok.number_of_mountedRootAt hr
      obtain ⟨mt, hmt, hroot, hpoint⟩ := ns.ok.mountPointForRoot_iff.mp hp
      obtain ⟨p, hpar, hne⟩ := ns.parent m (ns.point m dir hr)
        (ns.ok.covered mt m hmt hpoint).1
      intro hcon
      rw [entry, entry, Option.getD_some, ns.top dir hlive hnum, hpar,
        Option.map_some, Option.map_some, Option.some.injEq, ← hnum,
        MountTable.cross_of_uncovered (ns.ok.root_uncovered hnum),
        MountTable.cross] at hcon
      cases hcov : ns.mounts.mountedRootAt ⟨m.device, p⟩ with
      | none =>
        -- The mount point is on another device than the root over it.
        rw [hcov] at hcon
        apply ns.ok.outside mt m hmt hpoint
        have hdev := congrArg InodeId.device hcon
        rw [← hroot, ns.ok.root mt hmt] at hdev
        exact hdev.symm
      | some r =>
        rw [hcov, Option.getD_some] at hcon
        subst hcon
        have hback := ns.ok.mountPointForRoot_of_mountedRootAt hcov
        rw [hp, Option.some.injEq] at hback
        exact hne (congrArg InodeId.inodeNumber hback).symm

-- ======== staying inside

/-- What is reached from a root going down. -/
inductive Inside (ns : Namespace) (root : InodeId) : InodeId → Prop
  | root : Inside ns root root
  | child {dir id : InodeId} {name : Name} : Inside ns root dir →
      (ns.inode dir).Live → name ≠ dot → name ≠ dotdot →
      ns.entry dir name = some id → Inside ns root id

theorem Inside.uncovered (h : ns.Inside root id)
    (hroot : ns.mounts.mountedRootAt root = none) :
    ns.mounts.mountedRootAt id = none := by
  cases h with
  | root => exact hroot
  | child _ _ _ _ hentry => exact uncovered_of_entry hentry

/-- One component does not lead out of a root that nothing is mounted
under. -/
theorem Inside.component (h : ns.Inside root current)
    (hroot : ns.mounts.mountedRootAt root = none)
    (hlive : (ns.inode current).Live) {name : Name}
    (hc : ns.component root current name = some id) : ns.Inside root id := by
  unfold Namespace.component at hc
  split at hc
  next =>
    split at hc
    next => exact Option.some.inj hc ▸ .root
    next hne =>
      cases h with
      | root => exact absurd rfl hne
      | @child dir _ name' hdir hdlive hdot hdotdot hentry =>
        -- The name was looked up in `dir`, and `..` leads back to it.
        obtain ⟨number, hfind, hcross⟩ := Option.map_eq_some_iff.mp hentry
        obtain ⟨hnum, hback⟩ := ns.child dir name' number hdlive hdot
          hdotdot hfind
        have hup : (ns.mounts.mountPointForRoot current).getD current
            = ⟨dir.device, number⟩ := by
          unfold MountTable.cross at hcross
          cases hr : ns.mounts.mountedRootAt ⟨dir.device, number⟩ with
          | some r =>
            rw [hr, Option.getD_some] at hcross
            rw [← hcross, ns.ok.mountPointForRoot_of_mountedRootAt hr]
            rfl
          | none =>
            rw [hr, Option.getD_none] at hcross
            subst hcross
            cases hp : ns.mounts.mountPointForRoot ⟨dir.device, number⟩ with
            | none => rfl
            | some p =>
              have := ns.ok.number_of_mountedRootAt
                (ns.ok.mountedRootAt_of_mountPointForRoot hp)
              exact absurd this hnum
        have hlive' : (ns.inode ⟨dir.device, number⟩).Live := by
          cases hp : ns.mounts.mountPointForRoot current with
          | none =>
            rw [hp, Option.getD_none] at hup
            exact hup ▸ hlive
          | some p =>
            rw [hp, Option.getD_some] at hup
            exact hup ▸ ns.point p current
              (ns.ok.mountedRootAt_of_mountPointForRoot hp)
        rw [hup, entry, hback hlive', Option.map_some, Option.some.injEq,
          MountTable.cross_of_uncovered (hdir.uncovered hroot)] at hc
        exact hc ▸ hdir
  next hname =>
    by_cases hdot : name = dot
    · rw [hdot, entry, ns.self current hlive, Option.map_some,
        Option.some.injEq,
        MountTable.cross_of_uncovered (h.uncovered hroot)] at hc
      exact hc ▸ h
    · exact .child h hlive hdot hname hc

theorem Inside.walk (hroot : ns.mounts.mountedRootAt root = none)
    {names : List Name} : ∀ {current : InodeId}, ns.Inside root current →
      ns.walk task root names current = some id → ns.Inside root id := by
  induction names with
  | nil => exact fun h hw => Option.some.inj hw ▸ h
  | cons name rest ih =>
    intro current h hw
    rw [Namespace.walk] at hw
    split at hw
    next hs =>
      obtain ⟨next, hc, hrest⟩ := Option.bind_eq_some_iff.mp hw
      exact ih (h.component hroot (live_of_searchable hs) hc) hrest
    next => cases hw

-- ======== the pathname

/-- The last step of the code: no rule for `..`. -/
def lastStep (ns : Namespace) (task : PathTask ns) (name : Name)
    (dir : InodeId) : Option InodeId :=
  if name = [] then some dir
  else if ns.searchable task dir then ns.entry dir name else none

def lastRule (ns : Namespace) (task : PathTask ns) (root : InodeId)
    (name : Name) (dir : InodeId) : Option InodeId :=
  if name = [] then some dir
  else if ns.searchable task dir then ns.component root dir name else none

theorem walkPath_eq {raw : List Char} (hne : raw ≠ [])
    (hroot : task.rootDirectory = some root)
    (hstart : ns.start task root raw = some current) : ns.walkPath task raw
      = (ns.walk task root (leading raw) current).bind
          (ns.lastRule task root (final raw)) := by
  rw [walkPath, if_neg hne, hroot, Option.bind_some, hstart, Option.bind_some,
    components_eq hne, walk_append]
  congr 1
  funext dir
  unfold lastRule
  by_cases hf : final raw = []
  · rw [if_pos hf, if_pos hf]
    rfl
  · rw [if_neg hf, if_neg hf, walk]
    split
    next => cases ns.component root dir (final raw) <;> rfl
    next => rfl

/-- The whole walk, from its start to its last name. -/
theorem resolvePath_eq {raw : List Char} (hne : raw ≠ [])
    (hroot : task.rootDirectory = some root)
    (hstart : ns.start task root raw = some current)
    (hm : ns.Mounted current) (hend : endsInOneByte raw = true)
    (hdots : ns.DotsUncovered task root (leading raw) current) :
    ns.resolvePath task raw
      = .ofOption ((ns.walk task root (leading raw) current).bind
          (ns.lastStep task (final raw))) := by
  rw [resolvePath, resolveParent, if_neg hne, hroot, Outcome.ofOption_some,
    Outcome.found_bind, hstart, Outcome.ofOption_some, Outcome.found_bind,
    parentPath_eq hne, if_pos hend]
  simp only [walkParents_eq hm hdots]
  cases hw : ns.walk task root (leading raw) current with
  | none => rfl
  | some dir =>
    have hmd := walk_mounted hm hw
    rw [Outcome.ofOption_some, Outcome.found_bind, Option.bind_some, lastStep]
    by_cases hf : final raw = []
    · simp [hf]
    · rw [if_neg hf]
      by_cases hs : ns.searchable task dir = true
      · rw [if_neg (by simp [hs]), if_pos hs, Outcome.found_bind, if_neg hf]
        exact lookup_resolveInode (live_of_searchable hs) hmd (final raw)
      · rw [if_pos ⟨hf, by simpa using hs⟩, if_neg hs]
        rfl

theorem resolvePath_panic {raw : List Char} (hne : raw ≠ [])
    (hroot : task.rootDirectory = some root)
    (hstart : ns.start task root raw = some current)
    (hend : ¬ endsInOneByte raw = true) :
    ns.resolvePath task raw = .panic := by
  rw [resolvePath, resolveParent, if_neg hne, hroot, Outcome.ofOption_some,
    Outcome.found_bind, hstart, Outcome.ofOption_some, Outcome.found_bind,
    parentPath_eq hne, if_neg hend]
  rfl

/-- No `.` before the last component is walked in a covered directory. -/
def PathDots (ns : Namespace) (task : PathTask ns) (raw : List Char) : Prop :=
  ∀ root current, task.rootDirectory = some root →
    ns.start task root raw = some current →
    ns.DotsUncovered task root (leading raw) current

/-- The pathname ends in a `..` that needs the rule. -/
def EndsUnruled (ns : Namespace) (task : PathTask ns) (raw : List Char) :
    Prop :=
  final raw = dotdot ∧ ∃ root current dir,
    task.rootDirectory = some root ∧ ns.start task root raw = some current ∧
    ns.walk task root (leading raw) current = some dir ∧
    ns.searchable task dir = true ∧ ns.Unruled root dir

/-- The walk starts, and the pathname ends in a character of several
bytes, which the code cuts through. -/
def CutThrough (ns : Namespace) (task : PathTask ns) (raw : List Char) :
    Prop :=
  endsInOneByte raw = false ∧ ∃ root current,
    task.rootDirectory = some root ∧ ns.start task root raw = some current

/-- Neither start of a walk is covered by a mount. -/
def StartsUncovered (ns : Namespace) (task : PathTask ns) : Prop :=
  ∀ root id, task.rootDirectory = some root →
    id = root ∨ task.currentDirectory = some id →
    ns.searchable task id = true → ns.mounts.mountedRootAt id = none

def Agrees (ns : Namespace) (task : PathTask ns) (raw : List Char) : Prop :=
  ns.resolvePath task raw = .ofOption (ns.walkPath task raw)

theorem start_mounted {raw : List Char} (hroot : task.rootDirectory = some root)
    (hstart : ns.start task root raw = some current) :
    ns.Mounted current := by
  unfold start at hstart
  split at hstart
  next => exact Option.some.inj hstart ▸ task.rootMounted root hroot
  next => exact task.currentMounted current hstart

theorem EndsUnruled.starts {raw : List Char} (h : ns.EndsUnruled task raw) :
    ∃ root current, task.rootDirectory = some root ∧
      ns.start task root raw = some current :=
  let ⟨_, root, current, _, hroot, hstart, _⟩ := h
  ⟨root, current, hroot, hstart⟩

theorem EndsUnruled.endsInOneByte {raw : List Char}
    (h : ns.EndsUnruled task raw) : endsInOneByte raw = true := by
  have hne : raw ≠ [] := fun hnil => by
    rw [hnil] at h
    exact absurd h.1 (by decide)
  cases hlast : hasTrailingSlash raw with
  | true =>
    have hfinal := h.1
    rw [final, if_pos hlast] at hfinal
    cases hfinal
  | false =>
    obtain ⟨parent, basename, -, -, hraw, -, -, -, hcomp⟩ :=
      components_eq_concat hne hlast
    have hfinal := h.1
    rw [final, hlast, if_neg Bool.false_ne_true, hcomp, List.getLast?_concat]
      at hfinal
    obtain rfl : basename = dotdot := hfinal
    rw [hraw, Fs.endsInOneByte, dotdot, List.getLast?_append,
      List.getLast?_cons_cons, List.getLast?_singleton, Option.some_or]
    rfl

/-- Without a start both walks answer nothing. -/
theorem agrees_of_absent {raw : List Char}
    (h : ¬ ∃ root current, task.rootDirectory = some root ∧
      ns.start task root raw = some current) : ns.Agrees task raw := by
  unfold Agrees resolvePath resolveParent walkPath
  by_cases hne : raw = []
  · rw [if_pos hne, if_pos hne]
    rfl
  rw [if_neg hne, if_neg hne]
  cases hroot : task.rootDirectory with
  | none => rfl
  | some root =>
    cases hstart : ns.start task root raw with
    | none => simp [hstart]
    | some current => exact absurd ⟨root, current, hroot, hstart⟩ h

/-- The two walks agree unless a mount point is cut through or the end is not
ruled. -/
theorem agrees_iff {raw : List Char} (hdots : ns.PathDots task raw) :
    ns.Agrees task raw ↔
      ¬ ns.CutThrough task raw ∧ ¬ ns.EndsUnruled task raw := by
  by_cases hne : raw = []
  · subst hne
    refine iff_of_true rfl ⟨fun h => ?_, fun h => absurd h.1 (by decide)⟩
    exact absurd h.1 (by decide)
  by_cases hex : ∃ root current, task.rootDirectory = some root ∧
      ns.start task root raw = some current
  · obtain ⟨root, current, hroot, hstart⟩ := hex
    by_cases hend : endsInOneByte raw = true
    · have hcut : ¬ ns.CutThrough task raw := fun h =>
        Bool.false_ne_true (h.1.symm.trans hend)
      have hends : ns.EndsUnruled task raw ↔ final raw = dotdot ∧ ∃ dir,
          ns.walk task root (leading raw) current = some dir ∧
          ns.searchable task dir = true ∧ ns.Unruled root dir := by
        constructor
        · intro h
          obtain ⟨hf, root', current', dir, h, h', hrest⟩ := h
          rw [hroot] at h
          cases h
          rw [hstart] at h'
          cases h'
          exact ⟨hf, dir, hrest⟩
        · intro h
          obtain ⟨hf, dir, hrest⟩ := h
          exact ⟨hf, root, current, dir, hroot, hstart, hrest⟩
      rw [and_iff_right hcut, hends, Agrees, resolvePath_eq hne hroot hstart
        (start_mounted hroot hstart) hend (hdots root current hroot hstart),
        walkPath_eq hne hroot hstart, Outcome.ofOption_injective.eq_iff]
      cases hw : ns.walk task root (leading raw) current with
      | none => simp
      | some dir =>
        simp only [Option.bind_some, lastStep, lastRule]
        by_cases hf : final raw = dotdot
        · have hnil : dotdot ≠ [] := by decide
          rw [hf, if_neg hnil, if_neg hnil]
          by_cases hs : ns.searchable task dir = true
          · rw [if_pos hs, if_pos hs,
              entry_dotdot_eq_iff (live_of_searchable hs)]
            simp [hs]
          · simp [hs]
        · simp [hf, component]
    · refine iff_of_false ?_ fun h => h.1 ⟨by simpa using hend, root, current,
        hroot, hstart⟩
      rw [Agrees, resolvePath_panic hne hroot hstart hend]
      cases ns.walkPath task raw <;> exact nofun
  · refine iff_of_true (agrees_of_absent hex) ⟨fun h => hex h.2, fun h => ?_⟩
    exact hex h.starts

theorem StartsUncovered.of_agrees
    (h : ∀ raw, endsInOneByte raw = true → ns.Agrees task raw) :
    ns.StartsUncovered task := by
  intro root id hroot hid hs
  by_contra hcov
  obtain ⟨r, hr⟩ := Option.ne_none_iff_exists'.mp hcov
  have hlive := live_of_searchable hs
  have hnum := ns.ok.number_of_mountedRootAt hr
  have hne : r ≠ id := by
    intro heq
    subst heq
    rw [ns.ok.root_uncovered hnum] at hr
    cases hr
  -- The walk of `./` or `/./` from the covered directory.
  obtain ⟨raw, hraw, hstart, hlead, hfin, hend⟩ : ∃ raw : List Char, raw ≠ [] ∧
      ns.start task root raw = some id ∧ leading raw = [dot] ∧
      final raw = [] ∧ endsInOneByte raw = true := by
    rcases hid with rfl | hcur
    · exact ⟨['/', '.', '/'], by decide, rfl, by decide, by decide, by decide⟩
    · exact ⟨['.', '/'], by decide, hcur, by decide, by decide, by decide⟩
  have hcode : ns.resolvePath task raw = .found id := by
    rw [resolvePath, resolveParent, if_neg hraw, hroot, Outcome.ofOption_some,
      Outcome.found_bind, hstart, Outcome.ofOption_some, Outcome.found_bind,
      parentPath_eq hraw, if_pos hend, hlead, hfin]
    simp [walkParents, PathComponent.fromRaw, hs]
  have hspec : ns.walkPath task raw = some r := by
    rw [walkPath_eq hraw hroot hstart, hlead, hfin, walk, if_pos hs, component,
      if_neg (by decide), entry, ns.self id hlive, Option.map_some,
      MountTable.cross, hr]
    rfl
  have hag := h raw hend
  rw [Agrees, hcode, hspec, Outcome.ofOption_some] at hag
  exact hne (Outcome.found.inj hag).symm

theorem StartsUncovered.pathDots (h : ns.StartsUncovered task)
    (raw : List Char) : ns.PathDots task raw := by
  intro root current hroot hstart
  apply dotsUncovered_of_starts (task.rootMounted root hroot)
    (h root root hroot (.inl rfl)) (start_mounted hroot hstart)
  unfold start at hstart
  split at hstart
  next => exact Option.some.inj hstart ▸ h root root hroot (.inl rfl)
  next => exact h root current hroot (.inr hstart)

/-- The starting point is inside the task's root, which is uncovered. -/
def StartsInside (ns : Namespace) (task : PathTask ns) (raw : List Char) :
    Prop :=
  ∀ root current, task.rootDirectory = some root →
    ns.start task root raw = some current →
    ns.mounts.mountedRootAt root = none ∧ ns.Inside root current

theorem Agrees.inside {raw : List Char} (h : ns.Agrees task raw)
    (hin : ns.StartsInside task raw) (hroot : task.rootDirectory = some root)
    (hid : ns.resolvePath task raw = .found id) : ns.Inside root id := by
  rw [Agrees] at h
  rw [h, ← Outcome.ofOption_some, Outcome.ofOption_injective.eq_iff,
    walkPath, hroot, Option.bind_some] at hid
  split at hid
  next => cases hid
  next =>
    obtain ⟨current, hstart, hw⟩ := Option.bind_eq_some_iff.mp hid
    obtain ⟨hun, hins⟩ := hin root current hroot hstart
    exact hins.walk hun hw

end Namespace

-- ======== the result

/-- `resolve_path` answers what the reference walk answers on a pathname
whose leading `.`s are not walked in a covered directory, exactly if the
pathname does not end in a character of several bytes, nor in a `..` at a
task root below the top of its file system or at a mounted root. It does so
on every pathname that ends in one byte exactly if in addition no starting
point is covered, and on every pathname exactly if there is no root to
start from. From inside the task's root such a pathname stays inside. -/
theorem resolve_path_walks_iff (ns : Namespace) (task : PathTask ns) :
    (∀ raw, ns.PathDots task raw → (ns.Agrees task raw ↔
        ¬ ns.CutThrough task raw ∧ ¬ ns.EndsUnruled task raw)) ∧
    ((∀ raw, endsInOneByte raw = true → ns.Agrees task raw) ↔
      ns.StartsUncovered task ∧ ∀ raw, ¬ ns.EndsUnruled task raw) ∧
    ((∀ raw, ns.Agrees task raw) ↔ task.rootDirectory = none) ∧
    ∀ raw, ns.PathDots task raw → ¬ ns.CutThrough task raw →
      ¬ ns.EndsUnruled task raw → ns.StartsInside task raw →
      ∀ root id, task.rootDirectory = some root →
      ns.resolvePath task raw = .found id → ns.Inside root id := by
  refine ⟨fun raw => Namespace.agrees_iff, ⟨fun h => ?_, fun h raw hend => ?_⟩,
    ⟨fun h => ?_, fun h raw => ?_⟩, ?_⟩
  · have hun := Namespace.StartsUncovered.of_agrees h
    refine ⟨hun, fun raw hends => ?_⟩
    exact ((Namespace.agrees_iff (hun.pathDots raw)).mp
      (h raw hends.endsInOneByte)).2 hends
  · refine (Namespace.agrees_iff (h.1.pathDots raw)).mpr ⟨?_, h.2 raw⟩
    exact fun hcut => Bool.false_ne_true (hcut.1.symm.trans hend)
  · by_contra hroot
    obtain ⟨root, hroot⟩ := Option.ne_none_iff_exists'.mp hroot
    have hwide : ns.resolvePath task ['/', 'é'] = .panic :=
      Namespace.resolvePath_panic (by decide) hroot rfl (by decide)
    have hag := h ['/', 'é']
    rw [Namespace.Agrees, hwide] at hag
    cases hw : ns.walkPath task ['/', 'é'] <;> rw [hw] at hag <;> cases hag
  · apply Namespace.agrees_of_absent
    intro hex
    obtain ⟨root, _, hroot, -⟩ := hex
    rw [h] at hroot
    cases hroot
  · intro raw hdots hcut hends hin root id hroot hid
    exact ((Namespace.agrees_iff hdots).mpr ⟨hcut, hends⟩).inside hin hroot hid

-- ======== a jail

def jailDevice : DevNum := ⟨0x0301#16⟩

def jailTop : InodeId := ⟨jailDevice, 1#16⟩

def jailId : InodeId := ⟨jailDevice, 2#16⟩

def jailInode (id : InodeId) : TreeInode :=
  if id = jailTop then
    ⟨.directory, 0o755#12, 0#16, 0#8, 3#8,
      [⟨1#16, dot⟩, ⟨1#16, dotdot⟩, ⟨2#16, ['j', 'a', 'i', 'l']⟩]⟩
  else if id = jailId then
    ⟨.directory, 0o755#12, 0#16, 0#8, 2#8, [⟨2#16, dot⟩, ⟨1#16, dotdot⟩]⟩
  else ⟨.regular, 0#12, 0#16, 0#8, 0#8, []⟩

def jailMounts : MountTable :=
  ⟨[some ⟨jailDevice, jailTop, none⟩, none, none, none, none, none, none, none]⟩

theorem jailMounts_ok : jailMounts.Ok := by
  have hone : ∀ m, jailMounts.Has m → m = ⟨jailDevice, jailTop, none⟩ := by
    intro m hm
    simpa [MountTable.Has, jailMounts] using hm
  constructor
  case root => intro m hm; rw [hone m hm]; rfl
  case device => intro m hm; rw [hone m hm]; decide
  case once => intro m m' hm hm' _; rw [hone m hm, hone m' hm']
  case covered => intro m p hm hp; rw [hone m hm] at hp; cases hp
  case outside => intro m p hm hp; rw [hone m hm] at hp; cases hp
  case coveredOnce => intro m m' p hm hm' _ _; rw [hone m hm, hone m' hm']

theorem jail_live {id : InodeId} (h : (jailInode id).Live) :
    id = jailTop ∨ id = jailId := by
  unfold jailInode at h
  split at h
  next heq => exact .inl heq
  next =>
    split at h
    next heq => exact .inr heq
    next => exact absurd h.1 (by decide)

theorem jailMounts_uncovered (id : InodeId) :
    jailMounts.mountedRootAt id = none := by
  simp [MountTable.mountedRootAt, jailMounts]

def jail : Namespace where
  inode := jailInode
  mounts := jailMounts
  ok := jailMounts_ok
  point := by
    intro id r h
    rw [jailMounts_uncovered] at h
    cases h
  self := by
    intro id h
    rcases jail_live h with rfl | rfl <;> decide
  top := by
    intro id h hnum
    rcases jail_live h with rfl | rfl
    · decide
    · exact absurd hnum (by decide)
  parent := by
    intro id h hnum
    rcases jail_live h with rfl | rfl
    · exact absurd rfl hnum
    · exact ⟨1#16, by decide, by decide⟩
  child := by
    intro id name c h hdot hdotdot hfind
    rcases jail_live h with rfl | rfl
    · have hc : c = 2#16 := by
        simp [TreeInode.find, jailInode, Ne.symm hdot, Ne.symm hdotdot]
          at hfind
        exact hfind.2.symm
      subst hc
      exact ⟨by decide, fun _ => by decide⟩
    · simp [TreeInode.find, jailInode, jailTop, jailId, Ne.symm hdot,
        Ne.symm hdotdot] at hfind

/-- A superuser task after `chroot("/jail")` and `chdir("/")`. -/
def prisoner : PathTask jail where
  rootDirectory := some jailId
  currentDirectory := some jailId
  euid := 0#16
  egid := 0#16
  rootMounted := by intro id h; cases h; decide
  currentMounted := by intro id h; cases h; decide

theorem jail_inside {id : InodeId} (h : jail.Inside jailId id) :
    id = jailId := by
  induction h with
  | root => rfl
  | child _ hlive hdot hdotdot hentry ih =>
    subst ih
    simp [Namespace.entry, TreeInode.find, jail, jailInode, jailTop, jailId,
      Ne.symm hdot, Ne.symm hdotdot] at hentry

/-- `/..` leaves the jail, where the rule stays in it, and `/é` panics. -/
theorem resolve_path_leaves_jail :
    jail.resolvePath prisoner ['/', '.', '.'] = .found jailTop ∧
    jail.walkPath prisoner ['/', '.', '.'] = some jailId ∧
    ¬ jail.Inside jailId jailTop ∧
    jail.resolvePath prisoner ['/', 'é'] = .panic ∧
    jail.walkPath prisoner ['/', 'é'] = none := by
  refine ⟨by decide, by decide, fun h => ?_, by decide, by decide⟩
  exact absurd (jail_inside h) (by decide)

/-- `/../.` does not. -/
theorem resolve_path_walks_in_jail :
    jail.Agrees prisoner ['/', '.', '.', '/', '.'] ∧
    ∀ id, jail.resolvePath prisoner ['/', '.', '.', '/', '.'] = .found id →
      jail.Inside jailId id := by
  have hdots : jail.PathDots prisoner ['/', '.', '.', '/', '.'] := by
    intro root current _ _ hs
    exact ⟨fun h => absurd h (by decide), fun next _ => trivial⟩
  have hends : ¬ jail.EndsUnruled prisoner ['/', '.', '.', '/', '.'] :=
    fun h => absurd h.1 (by decide)
  have hcut : ¬ jail.CutThrough prisoner ['/', '.', '.', '/', '.'] :=
    fun h => absurd h.1 (by decide)
  have hin : jail.StartsInside prisoner ['/', '.', '.', '/', '.'] := by
    intro root current hroot hstart
    cases hroot
    cases hstart
    exact ⟨jailMounts_uncovered _, .root⟩
  obtain ⟨hiff, -, -, hinside⟩ := resolve_path_walks_iff jail prisoner
  exact ⟨(hiff _ hdots).mpr ⟨hcut, hends⟩, fun id hid =>
    hinside _ hdots hcut hends hin jailId id rfl hid⟩

end LinuxRs.Fs
