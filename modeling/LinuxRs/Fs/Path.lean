/-
Pathname resolution (kernel/src/fs/path.rs) over a directory tree and a
mount table that do not change while one pathname is walked.

# The two walks

`resolvePath` is the code: a loop over the leading components, and code
of its own for the last one. `walkPath` is the reference walk, one rule
for every component: `..` stays at the task's root, leaves a mounted
root through its mount point, and every other name is looked up and
crossed. `walkParents_eq` compares the loop with the rule and
`entry_dotdot_eq_iff` the last component, where the code looks `..` up
like any name.

# The cut

`Pathname::parent_path` cuts the pathname at byte positions: one byte after
the start of the last character that is no `/`. If that character takes
more than one byte the position is inside it, and the slice panics
(`parentPath_eq`).

# What the tree has

`Namespace` carries the facts about a consistent tree: `.` names the
directory itself, `..` of a file system's root names that root, `..` of
any other directory names another directory, and the directory that
holds a name for it.
-/
import LinuxRs.Fs.Mount
import LinuxRs.Lib.ByteIndex

namespace LinuxRs.Fs

open LinuxRs.Lib
open ByteIndex (beforeLast lastPart)

-- ======== the pathname

/-- A name; `/` separates names and does not occur in one. -/
abbrev Name := List Char

def dot : Name := ['.']

def dotdot : Name := ['.', '.']

/-- The non-empty pieces between separators, as `PathComponents` yields
them. -/
def components (raw : List Char) : List Name :=
  (raw.splitOn '/').filter (· ≠ [])

inductive PathComponent
  | current
  | parent
  | name (n : Name)

def PathComponent.fromRaw (n : Name) : PathComponent :=
  if n = dot then .current else if n = dotdot then .parent else .name n

def hasTrailingSlash (raw : List Char) : Bool := raw.getLast? = some '/'

/-- The slices of `Pathname::parent_path`: what lies before the last name
and the name; `none` is a panic. -/
def parentSlices {α : Type} [DecidableEq α] (size : α → Nat) (slash : α)
    (raw : List α) : Option (List α × List α) :=
  if raw.getLast? = some slash then some (raw, [])
  else
    let trimmedEnd :=
      ((ByteIndex.rfind size (· ≠ slash) raw).map (· + 1)).getD 0
    match ByteIndex.sliceTo size raw trimmedEnd with
    | none => none
    | some trimmed =>
      let basenameStart :=
        ((ByteIndex.rfind size (· = slash) trimmed).map (· + 1)).getD 0
      match ByteIndex.sliceTo size raw basenameStart with
      | none => none
      | some parent =>
        match ByteIndex.sliceFrom size trimmed basenameStart with
        | none => none
        | some basename => some (parent, basename)

def parentPath (raw : List Char) : Option (List PathComponent × Name) :=
  (parentSlices Char.utf8Size '/' raw).map fun (parent, basename) =>
    ((components parent).map .fromRaw, basename)

/-- The pathname does not end in a character of several bytes. -/
def endsInOneByte (raw : List Char) : Bool :=
  raw.getLast?.all (·.utf8Size = 1)

/-- The components before the last one; a trailing separator makes them
all leading. -/
def leading (raw : List Char) : List Name :=
  if hasTrailingSlash raw then components raw else (components raw).dropLast

def final (raw : List Char) : Name :=
  if hasTrailingSlash raw then [] else (components raw).getLast?.getD []

-- ======== the tree

inductive InodeType
  | regular
  | directory
  | fifo
  | blockDevice
  | characterDevice
  deriving DecidableEq

structure DirectoryEntry where
  inodeNumber : InodeNumber
  name : Name

/-- What resolution reads of an inode: the mode word split into its type
and its low bits, the owner, the link count, and the entries. -/
structure TreeInode where
  fileType : InodeType
  flags : BitVec 12
  userId : BitVec 16
  groupId : BitVec 8
  linkCount : BitVec 8
  entries : List DirectoryEntry

/-- The search of `Inode::lookup`: the first live entry of that name. -/
def TreeInode.find (inode : TreeInode) (name : Name) : Option InodeNumber :=
  inode.entries.findSome? fun e =>
    if e.inodeNumber = 0#16 then none
    else if e.name = name then some e.inodeNumber else none

/-- A directory that is still linked. -/
def TreeInode.Live (inode : TreeInode) : Prop :=
  inode.fileType = .directory ∧ inode.linkCount ≠ 0#8

/-- The inodes and the mounts that a walk goes through. -/
structure Namespace where
  inode : InodeId → TreeInode
  mounts : MountTable
  ok : mounts.Ok
  point : ∀ id r, mounts.mountedRootAt id = some r → (inode id).Live
  self : ∀ id, (inode id).Live → (inode id).find dot = some id.inodeNumber
  top : ∀ id, (inode id).Live → id.inodeNumber = rootInodeNumber →
    (inode id).find dotdot = some rootInodeNumber
  parent : ∀ id, (inode id).Live → id.inodeNumber ≠ rootInodeNumber →
    ∃ p, (inode id).find dotdot = some p ∧ p ≠ id.inodeNumber
  child : ∀ id name c, (inode id).Live → name ≠ dot → name ≠ dotdot →
    (inode id).find name = some c → c ≠ rootInodeNumber ∧
    ((inode ⟨id.device, c⟩).Live →
      (inode ⟨id.device, c⟩).find dotdot = some id.inodeNumber)

/-- The parts of a task that resolution reads. Its directories are held,
so their devices stay mounted. -/
structure PathTask (ns : Namespace) where
  rootDirectory : Option InodeId
  currentDirectory : Option InodeId
  euid : BitVec 16
  egid : BitVec 16
  rootMounted : ∀ id, rootDirectory = some id →
    (ns.mounts.findFs id.device).isSome
  currentMounted : ∀ id, currentDirectory = some id →
    (ns.mounts.findFs id.device).isSome

def mayExec : BitVec 12 := 1#12

def checkPermissionAs (inode : TreeInode) (mask : BitVec 12)
    (uid gid : BitVec 16) : Bool :=
  if inode.linkCount = 0#8 then false
  else
    let mode :=
      if uid = inode.userId then inode.flags >>> 6
      else if gid = inode.groupId.setWidth 16 then inode.flags >>> 3
      else inode.flags
    mode &&& mask &&& 7#12 = mask || uid = 0#16

namespace Namespace

variable (ns : Namespace) (task : PathTask ns)

def checkPermission (id : InodeId) (mask : BitVec 12) : Bool :=
  checkPermissionAs (ns.inode id) mask task.euid task.egid

/-- `Inode::lookup`; it asserts that the inode is a directory. -/
def lookup (id : InodeId) (name : Name) : Outcome InodeNumber :=
  if (ns.inode id).fileType = .directory then
    .ofOption ((ns.inode id).find name)
  else .panic

def resolveDotdot (current root : InodeId) : Outcome InodeId :=
  if current = root then .found root
  else
    let base := (ns.mounts.mountPointForRoot current).getD current
    ns.lookup base dotdot >>= fun number =>
      ns.mounts.resolveInode ⟨base.device, number⟩

/-- The test before each component: a directory with search permission. -/
def searchable (id : InodeId) : Bool :=
  (ns.inode id).fileType = .directory && ns.checkPermission task id mayExec

def walkParents (root : InodeId) :
    List PathComponent → InodeId → Outcome InodeId
  | [], current => .found current
  | component :: rest, current =>
    if ns.searchable task current then
      match component with
      | .current => walkParents root rest current
      | .parent =>
        ns.resolveDotdot current root >>= fun next =>
          walkParents root rest next
      | .name name =>
        ns.lookup current name >>= fun number =>
          ns.mounts.resolveInode ⟨current.device, number⟩ >>= fun next =>
            walkParents root rest next
    else .absent

def start (root : InodeId) (raw : List Char) : Option InodeId :=
  if raw.head? = some '/' then some root else task.currentDirectory

def resolveParent (raw : List Char) : Outcome (InodeId × Name) :=
  if raw = [] then .absent
  else
    Outcome.ofOption task.rootDirectory >>= fun root =>
    Outcome.ofOption (ns.start task root raw) >>= fun current =>
    match parentPath raw with
    | none => .panic
    | some (parentComponents, basename) =>
      ns.walkParents task root parentComponents current >>= fun dir =>
      if basename ≠ [] ∧ ns.searchable task dir = false then .absent
      else .found (dir, basename)

/-- `resolve_path`, without the access time it stamps. -/
def resolvePath (raw : List Char) : Outcome InodeId :=
  ns.resolveParent task raw >>= fun (dir, basename) =>
    if basename = [] then .found dir
    else
      ns.lookup dir basename >>= fun inum =>
        ns.mounts.resolveInode ⟨dir.device, inum⟩

-- ======== the reference walk

def entry (dir : InodeId) (name : Name) : Option InodeId :=
  ((ns.inode dir).find name).map fun number =>
    ns.mounts.cross ⟨dir.device, number⟩

def component (root current : InodeId) (name : Name) : Option InodeId :=
  if name = dotdot then
    if current = root then some root
    else ns.entry ((ns.mounts.mountPointForRoot current).getD current) dotdot
  else ns.entry current name

def walk (root : InodeId) : List Name → InodeId → Option InodeId
  | [], current => some current
  | name :: rest, current =>
    if ns.searchable task current then
      (ns.component root current name).bind (walk root rest)
    else none

def walkPath (raw : List Char) : Option InodeId :=
  if raw = [] then none
  else
    task.rootDirectory.bind fun root =>
      (ns.start task root raw).bind (ns.walk task root (components raw))

end Namespace

-- ======== parsing a pathname

theorem components_append (a b : List Char) :
    components (a ++ '/' :: b) = components a ++ components b := by
  unfold components
  rw [List.splitOn_append_cons_self, List.filter_append]

theorem components_of_not_mem {n : Name} (h : '/' ∉ n) (hne : n ≠ []) :
    components n = [n] := by
  unfold components
  rw [List.splitOn_eq_singleton h]
  simp [hne]

/-- The cut goes through exactly if the last character takes one byte, and
then it separates the last name. -/
theorem parentSlices_eq {α : Type} [DecidableEq α] {size : α → Nat} {slash : α}
    (hpos : ∀ c, 0 < size c) (hslash : size slash = 1) (raw : List α) :
    parentSlices size slash raw = if raw.getLast?.all (size · = 1) then
        some (beforeLast slash raw, lastPart slash raw)
      else none := by
  unfold parentSlices
  by_cases htrail : raw.getLast? = some slash
  · rw [if_pos htrail, ByteIndex.beforeLast_of_trailing htrail,
      ByteIndex.lastPart_of_trailing htrail, htrail, if_pos (by simp [hslash])]
  rw [if_neg htrail]
  rcases List.eq_nil_or_concat' raw with rfl | ⟨rest, b, rfl⟩
  · rfl
  rw [List.getLast?_concat] at htrail ⊢
  have hend : ByteIndex.rfind size (· ≠ slash) (rest ++ [b])
      = some (ByteIndex.length size rest) :=
    ByteIndex.rfind_concat _ _ (decide_eq_true fun heq => htrail (by rw [heq]))
  rw [hend]
  dsimp only [Option.map_some, Option.getD_some, Option.all_some]
  by_cases hone : size b = 1
  · have hwhole : ByteIndex.length size rest + 1
        = ByteIndex.length size (rest ++ [b]) := by
      rw [ByteIndex.length_append]
      simp [ByteIndex.length, hone]
    rw [if_pos (decide_eq_true hone), hwhole]
    generalize rest ++ [b] = raw
    have hall := ByteIndex.sliceTo_append hpos raw []
    rw [List.append_nil] at hall
    rw [hall]
    dsimp only
    have hstart : ((ByteIndex.rfind size (· = slash) raw).map (· + 1)).getD 0
        = ByteIndex.length size (beforeLast slash raw) := by
      rw [← ByteIndex.beforeLast_append slash raw, ByteIndex.rfind_append]
      · rcases ByteIndex.beforeLast_cases slash raw with hnil | ⟨a, ha⟩
        · rw [ByteIndex.beforeLast_append, hnil]
          rfl
        · rw [ByteIndex.beforeLast_append, ha,
            ByteIndex.rfind_concat _ _ (by simp), ByteIndex.length_append]
          simp [ByteIndex.length, hslash]
      · intro x hx
        simpa using ByteIndex.lastPart_ne slash raw x hx
    have hto := ByteIndex.sliceTo_append hpos (beforeLast slash raw)
      (lastPart slash raw)
    have hfrom := ByteIndex.sliceFrom_append hpos (beforeLast slash raw)
      (lastPart slash raw)
    rw [ByteIndex.beforeLast_append] at hto hfrom
    rw [hstart, hto, hfrom]
  · rw [if_neg (by simpa using hone), ByteIndex.sliceTo_inside hpos rest hone]

theorem components_eq_concat {raw : List Char} (hne : raw ≠ [])
    (hlast : hasTrailingSlash raw = false) :
    ∃ parent basename, beforeLast '/' raw = parent ∧
      lastPart '/' raw = basename ∧ raw = parent ++ basename ∧ '/' ∉ basename ∧
      basename ≠ [] ∧ (parent = [] ∨ ∃ a, parent = a ++ ['/']) ∧
      components raw = components parent ++ [basename] := by
  have hraw := ByteIndex.beforeLast_append '/' raw
  have hno : '/' ∉ lastPart '/' raw := fun hmem =>
    ByteIndex.lastPart_ne '/' raw '/' hmem rfl
  have hfront := ByteIndex.beforeLast_cases '/' raw
  generalize beforeLast '/' raw = parent at hraw hfront
  generalize lastPart '/' raw = basename at hraw hno
  have hnil : basename ≠ [] := by
    rintro rfl
    rw [List.append_nil] at hraw
    subst hraw
    rcases hfront with rfl | ⟨a, rfl⟩
    · exact hne rfl
    · simp [hasTrailingSlash] at hlast
  refine ⟨parent, basename, rfl, rfl, hraw.symm, hno, hnil, hfront, ?_⟩
  rw [← hraw]
  rcases hfront with rfl | ⟨a, rfl⟩
  · rw [List.nil_append, components_of_not_mem hno hnil]
    rfl
  · rw [List.append_assoc, List.singleton_append, components_append,
      components_append, components_of_not_mem hno hnil]
    simp [components]

theorem parentPath_eq {raw : List Char} (hne : raw ≠ []) : parentPath raw =
      if endsInOneByte raw then some ((leading raw).map .fromRaw, final raw)
      else none := by
  unfold parentPath endsInOneByte
  rw [parentSlices_eq Char.utf8Size_pos (by decide)]
  split
  next =>
    unfold leading final
    cases hlast : hasTrailingSlash raw with
    | true =>
      have htrail := of_decide_eq_true hlast
      rw [ByteIndex.beforeLast_of_trailing htrail,
        ByteIndex.lastPart_of_trailing htrail]
      rfl
    | false =>
      obtain ⟨parent, basename, hp, hb, -, -, -, -, hcomp⟩ :=
        components_eq_concat hne hlast
      simp [hp, hb, hcomp]
  next => rfl

theorem components_eq {raw : List Char} (hne : raw ≠ []) : components raw
      = leading raw ++ if final raw = [] then [] else [final raw] := by
  unfold leading final
  cases hlast : hasTrailingSlash raw with
  | true => simp
  | false =>
    obtain ⟨parent, basename, -, -, -, -, hnil, -, hcomp⟩ :=
      components_eq_concat hne hlast
    simp [hcomp, hnil]

end LinuxRs.Fs
