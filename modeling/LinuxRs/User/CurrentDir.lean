/-
`env::current_dir` (user_lib/src/env.rs) over the kernel's pathname
resolution.

# What it does

The call has no syscall of its own. It changes directory to `..` until that
is the same file, looks the directory it came from up in each parent, and
then changes back along the names. Every step can fail, and one that fails
after the first change of directory leaves the process where it is.

# When that is harmless

`Stays` says that nothing can be changed yet, `Returns` that the way up goes
through (`Climbs`) and that its names, as an absolute path, lead back. The
kernel looks a last `..` up like any name, so the way up ends at a mounted
root and goes on above the root of a confined task, and in both cases the
path is taken from the wrong place; it is also cut at 256 bytes.

# The tree

`Tree` gives every directory a depth that `..` decreases. Wherever the way up
breaks off it is therefore not the directory it started from.
-/
import LinuxRs.Fs.PathWalk
import LinuxRs.Lib.Utf8
import LinuxRs.User.Path

namespace LinuxRs.User

open LinuxRs.Lib LinuxRs.Fs

-- ======== syscalls

def mayRead : BitVec 12 := 4#12

/-- A task as `current_dir` sees it: its directories and its rights. -/
structure Walker (ns : Namespace) where
  root : InodeId
  cwd : InodeId
  euid : BitVec 16
  egid : BitVec 16
  rootMounted : (ns.mounts.findFs root.device).isSome
  cwdMounted : (ns.mounts.findFs cwd.device).isSome

/-- `read_pathname` of a path that the library hands over: not more than
`MAX_PATH_LEN` bytes, each taken for a character. -/
def asPathname (path : List Char) : List Char :=
  ((Utf8.bytes path).take 256).map fun b => Char.ofNat b.toNat

namespace Walker

variable {ns : Namespace}

def task (c : Walker ns) : PathTask ns where
  rootDirectory := some c.root
  currentDirectory := some c.cwd
  euid := c.euid
  egid := c.egid
  rootMounted := by
    intro id h
    cases h
    exact c.rootMounted
  currentMounted := by
    intro id h
    cases h
    exact c.cwdMounted

def moved (c : Walker ns) (cwd : InodeId) (h : ns.Mounted cwd) : Walker ns :=
  { c with
    cwd := cwd
    cwdMounted := h }

def searchable (c : Walker ns) (id : InodeId) : Bool :=
  ns.searchable c.task id

/-- `fs::metadata`, as far as `same_file` reads it. -/
def stat (c : Walker ns) (path : List Char) : Outcome InodeId :=
  ns.resolvePath c.task (asPathname path)

/-- `fs::set_current_dir`. A resolved inode is on a mounted device. -/
def chdir (c : Walker ns) (path : List Char) : Outcome (Walker ns) :=
  c.stat path >>= fun id =>
    if c.searchable id then
      if h : (ns.mounts.findFs id.device).isSome then .found (c.moved id h)
      else .panic
    else .absent

-- ======== the code

variable (lists : InodeId → Bool)

def search (c : Walker ns) (target : InodeId) :
    List DirectoryEntry → Outcome Name
  | [] => .absent
  | e :: rest =>
    if e.inodeNumber = 0#16 ∨ e.name = dot ∨ e.name = dotdot then
      search c target rest
    else
      c.stat (join dot e.name) >>= fun id =>
        if id = target then .found e.name else search c target rest

/-- A directory that can be listed. `lists` says that nothing but the
permission is in the way: a descriptor is free, the reads go through, the
names are UTF-8. -/
def readable (c : Walker ns) (id : InodeId) : Bool :=
  ns.checkPermission c.task id mayRead && lists id

def buildAbsolutePath (reversedNames : List Name) : List Char :=
  reversedNames.reverse.foldl push (push [] ['/'])

abbrev Answer (ns : Namespace) (α : Type) := Outcome α × Walker ns

/-- The `?` operator: a failed step ends the call where the process is. -/
def andThen {α β : Type} (c : Walker ns) (step : Outcome α)
    (next : α → Option (Answer ns β)) : Option (Answer ns β) :=
  match step with
  | .found a => next a
  | .absent => some (.absent, c)
  | .panic => some (.panic, c)

/-- A directory all of whose ancestors up to the task's root, by the rule of
the reference walk, can be searched and listed. -/
inductive AllReadable (c : Walker ns) : InodeId → Prop
  | root (hs : c.searchable c.root) : AllReadable c c.root
  | up {id p : InodeId} (hne : id ≠ c.root) (hs : c.searchable id)
      (hp : ns.component c.root id dotdot = some p)
      (hread : c.readable lists p) (hrest : AllReadable c p) : AllReadable c id

/-- The call returns where it started, and the path it found leads there. -/
structure Harmless (c : Walker ns) (r : Answer ns (List Char)) : Prop where
  returns : r.1 ≠ .panic
  unmoved : r.2.cwd = c.cwd
  resolves : ∀ path, r.1 = .found path →
    path.head? = some '/' ∧ c.stat path = .found c.cwd
  succeeds : c.AllReadable lists c.cwd → ∃ path, r.1 = .found path

/-- Nothing is changed: the working directory or its parent is closed, or it
is a root and the task's root is closed. -/
def Stays (c : Walker ns) : Prop :=
  c.searchable c.cwd = false ∨
    (c.cwd ≠ c.root ∧ ∃ p, ns.entry c.cwd dotdot = some p ∧
      p ≠ ns.mounts.cross c.cwd ∧ c.searchable p = false) ∨
    (ns.entry c.cwd dotdot = some (ns.mounts.cross c.cwd) ∧
      c.searchable c.root = false)

/-- The way up from a directory, by its own `..`, with the name found in each
parent, and where it ends. -/
inductive Climbs (c : Walker ns) : InodeId → List Name → InodeId → Prop
  | top {id : InodeId} (hs : c.searchable id)
      (hp : ns.entry id dotdot = some (ns.mounts.cross id)) : Climbs c id [] id
  | up {id p top : InodeId} {name : Name} {names : List Name}
      (hs : c.searchable id) (hp : ns.entry id dotdot = some p)
      (hne : p ≠ ns.mounts.cross id) (hps : c.searchable p)
      (hm : ns.Mounted p) (hread : c.readable lists p)
      (hname : (c.moved p hm).search (ns.mounts.cross id)
        (ns.inode p).entries = .found name)
      (hrest : Climbs c p names top) : Climbs c id (name :: names) top

end Walker

/-- A tree of directories: `..` leads to a smaller depth, and the roots of
file systems have none. -/
structure Tree extends Namespace where
  depth : InodeId → Nat
  depth_root : ∀ id, id.inodeNumber = rootInodeNumber → depth id = 0
  depth_parent : ∀ id p, (inode id).Live → id.inodeNumber ≠ rootInodeNumber →
    (inode id).find dotdot = some p → depth ⟨id.device, p⟩ < depth id

namespace Walker

-- ======== single steps

section

variable {ns : Namespace} {c : Walker ns} {id p q : InodeId}

theorem live (h : c.searchable id = true) : (ns.inode id).Live :=
  Namespace.live_of_searchable h

variable {lists : InodeId → Bool} {names : List Name} {top : InodeId}

theorem Climbs.step (h : c.Climbs lists id names top)
    (hp : ns.entry id dotdot = some p) (hne : p ≠ ns.mounts.cross id) :
    c.searchable p = true ∧ c.readable lists p = true ∧
      (∀ hm : ns.Mounted p, ∃ name,
        (c.moved p hm).search (ns.mounts.cross id) (ns.inode p).entries =
          .found name) ∧
      ∃ rest, c.Climbs lists p rest top := by
  cases h with
  | top _ hp' =>
    rw [hp] at hp'
    exact absurd (Option.some.inj hp') hne
  | up _ hp' _ hps _ hread hname hrest =>
    rw [hp] at hp'
    cases hp'
    exact ⟨hps, hread, fun _ => ⟨_, hname⟩, _, hrest⟩

/-- The way up is one. -/
theorem Climbs.unique (h : c.Climbs lists id names top) :
    ∀ {names' top'}, c.Climbs lists id names' top' →
      names' = names ∧ top' = top := by
  induction h with
  | top hs hp =>
    intro names' top' h'
    cases h' with
    | top => exact ⟨rfl, rfl⟩
    | up _ hp' hne =>
      rw [hp] at hp'
      exact absurd (Option.some.inj hp').symm hne
  | up hs hp hne _ hm _ hname _ ih =>
    intro names' top' h'
    cases h' with
    | top _ hp' =>
      rw [hp] at hp'
      exact absurd (Option.some.inj hp') hne
    | up _ hp' _ _ hm' _ hname' hrest' =>
      rw [hp] at hp'
      cases hp'
      rw [hname] at hname'
      injection hname' with hname'
      obtain ⟨hnames, htop⟩ := ih hrest'
      rw [hname', hnames]
      exact ⟨rfl, htop⟩

end

section

variable {t : Tree} {c : Walker t.toNamespace} {lists : InodeId → Bool}
  {id p : InodeId}

theorem AllReadable.searchable (h : c.AllReadable lists id) :
    c.searchable id = true := by
  cases h with
  | root hs => exact hs
  | up _ hs => exact hs

theorem AllReadable.parent (h : c.AllReadable lists id) (hne : id ≠ c.root)
    (hp : t.entry id dotdot = some p) (hcross : p ≠ t.mounts.cross id) :
    c.searchable p = true := by
  cases h with
  | root => exact absurd rfl hne
  | up _ hs hp' _ hrest =>
    have hpoint : t.mounts.mountPointForRoot id = none := by
      cases hr : t.mounts.mountPointForRoot id with
      | none => rfl
      | some m =>
        have hnum := t.ok.number_of_mountedRootAt
          (t.ok.mountedRootAt_of_mountPointForRoot hr)
        unfold Namespace.entry at hp
        rw [t.top id (live hs) hnum, Option.map_some, ← hnum] at hp
        exact absurd (Option.some.inj hp).symm hcross
    unfold Namespace.component at hp'
    rw [if_pos rfl, if_neg hne, hpoint, Option.getD_none, hp] at hp'
    cases hp'
    exact hrest.searchable

def finish (c top : Walker t.toNamespace) (names : List Name) :
    Option (Answer t.toNamespace (List Char)) :=
  top.andThen (top.chdir (buildAbsolutePath names)) fun back =>
  back.andThen (back.stat dot) fun restored =>
  some (if t.mounts.cross c.cwd = restored then .found (buildAbsolutePath names)
    else .absent, back)

end

end Walker

open Walker

end LinuxRs.User
