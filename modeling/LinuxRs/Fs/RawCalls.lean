/-
The system calls that take a pathname, over directories as they stand on
the disk (kernel/src/syscall/handler/fs/path.rs, fd.rs, kernel/src/fs/path.rs
and the directory operations of kernel/src/fs/minix.rs).

# Operations that panic

A call is a program over the operations that can panic or that read or
write the file system: splitting a pathname, reading the type of an
inode, loading one, and searching, testing or editing a directory. `step`
is the operation as the code has it. `total` is what it is meant to do,
with names compared byte for byte, and `Ok` says when it does not panic:
`step_of_ok` and `step_of_not_ok` connect the three.

Blocks of directories can be read, the inode table has a slot, and
counters wrap around as in a release build.
-/
import LinuxRs.Lib.Asking
import LinuxRs.Fs.RawNames
import LinuxRs.Fs.DirAtomic

namespace LinuxRs.Fs

open LinuxRs.Lib

-- ======== the state

/-- An inode with its entries as they are stored; type bits that name no
type are `none`. -/
structure RawInode where
  fileType : Option InodeType
  flags : BitVec 12
  userId : BitVec 16
  groupId : BitVec 8
  linkCount : BitVec 8
  entries : List RawEntry

def RawInode.zeroed : RawInode := ⟨none, 0#12, 0#16, 0#8, 0#8, []⟩

/-- All inodes, `none` when the block of one cannot be read, and the mount
table. -/
structure RawFs where
  inode : InodeId → Option RawInode
  mounts : MountTable

namespace RawFs

def loaded (s : RawFs) (id : InodeId) : RawInode :=
  (s.inode id).getD .zeroed

def setInode (s : RawFs) (id : InodeId) (inode : RawInode) : RawFs :=
  { s with inode := Function.update s.inode id (some inode) }

def isDirectory (s : RawFs) (id : InodeId) : Bool :=
  (s.loaded id).fileType = some .directory

def permitted (s : RawFs) (id : InodeId) (mask : BitVec 12)
    (uid gid : BitVec 16) : Bool :=
  let inode := s.loaded id
  if inode.linkCount = 0#8 then false
  else
    let mode :=
      if uid = inode.userId then inode.flags >>> 6
      else if gid = inode.groupId.setWidth 16 then inode.flags >>> 3
      else inode.flags
    mode &&& mask &&& 7#12 = mask || uid = 0#16

/-- The slot of `Inode::add_entry`: the first deleted entry, or a new one
at the end, which may need a block first. -/
def putEntry (s : RawFs) (dir : InodeId) (e : RawEntry) (room : Bool) :
    Option RawFs :=
  let inode := s.loaded dir
  match inode.entries.findIdx? (fun x => !x.live) with
  | some slot =>
    some (s.setInode dir { inode with entries := inode.entries.set slot e })
  | none =>
    if room ∨ inode.entries.length % 64 ≠ 0 then
      some (s.setInode dir { inode with entries := inode.entries ++ [e] })
    else none

def wipeEntry (s : RawFs) (dir : InodeId) (name : Text) : Option RawFs :=
  let inode := s.loaded dir
  (inode.entries.findIdx? (·.named name)).map fun slot =>
    s.setInode dir { inode with entries := inode.entries.set slot .empty }

end RawFs

-- ======== the operations

/-- The steps that the path calls are made of. -/
inductive PathOp
  | parentPath (raw : Text)
  | fileType (id : InodeId)
  | permitted (id : InodeId) (mask : BitVec 12) (uid gid : BitVec 16)
  | mountPointForRoot (id : InodeId)
  | resolveInode (id : InodeId)
  | lookup (dir : InodeId) (name : Text)
  | isEmptyDirectory (dir : InodeId)
  | addEntry (dir : InodeId) (name : Text) (number : InodeNumber) (room : Bool)
  | removeEntry (dir : InodeId) (name : Text)
  | allocInode (id : InodeId) (inode : RawInode)
  | setLinkCount (id : InodeId) (count : BitVec 8)
  | addLinkCount (id : InodeId) (change : BitVec 8)

namespace PathOp

def Res : PathOp → Type
  | parentPath _ => List RawComponent × Text
  | fileType _ => InodeType
  | permitted _ _ _ _ => Bool
  | mountPointForRoot _ => Option InodeId
  | resolveInode _ => InodeId
  | lookup _ _ => Option InodeNumber
  | isEmptyDirectory _ => Bool
  | addEntry _ _ _ _ => Bool
  | removeEntry _ _ => Bool
  | allocInode _ _ => Unit
  | setLinkCount _ _ => Unit
  | addLinkCount _ _ => Unit

def substantial (e : RawEntry) : Bool :=
  e.live && e.text != rawDot && e.text != rawDotdot

/-- The scan of `Inode::is_empty_directory`; `none` is a panic. -/
def scanEmpty : List RawEntry → Option Bool
  | [] => some true
  | e :: rest =>
    if e.inodeNumber = 0#16 then scanEmpty rest
    else if Utf8.utf8Valid e.text then
      if e.text ≠ rawDot ∧ e.text ≠ rawDotdot then some false
      else scanEmpty rest
    else none

/-- The operations of the code; `none` is a panic. -/
def step : (o : PathOp) → RawFs → Option (RawFs × o.Res)
  | parentPath raw, s => (rawParentPath raw).map fun r => (s, r)
  | fileType id, s => ((s.loaded id).fileType).map fun t => (s, t)
  | permitted id mask uid gid, s => some (s, s.permitted id mask uid gid)
  | mountPointForRoot id, s => some (s, s.mounts.mountPointForRoot id)
  | resolveInode id, s =>
    if (s.inode id).isSome then
      match s.mounts.resolveInode id with
      | .found r => some (s, r)
      | _ => none
    else none
  | lookup dir name, s =>
    if s.isDirectory dir then
      (scan name (s.loaded dir).entries).map fun r => (s, r)
    else none
  | isEmptyDirectory dir, s =>
    if s.isDirectory dir then
      (scanEmpty (s.loaded dir).entries).map fun r => (s, r)
    else none
  | addEntry dir name number room, s =>
    if s.isDirectory dir then
      (RawEntry.new name number).map fun e =>
        match s.putEntry dir e room with
        | some s => (s, true)
        | none => (s, false)
    else none
  | removeEntry dir name, s =>
    if s.isDirectory dir then
      (scan name (s.loaded dir).entries).map fun _ =>
        match s.wipeEntry dir name with
        | some s => (s, true)
        | none => (s, false)
    else none
  | allocInode id inode, s =>
    if (s.inode id).isSome then some (s.setInode id inode, ()) else none
  | setLinkCount id count, s =>
    some (s.setInode id { s.loaded id with linkCount := count }, ())
  | addLinkCount id change, s =>
    some (s.setInode id { s.loaded id with
      linkCount := (s.loaded id).linkCount + change }, ())

def total : (o : PathOp) → RawFs → RawFs × o.Res
  | parentPath raw, s => (s, splitName raw)
  | fileType id, s => (s, ((s.loaded id).fileType).getD .regular)
  | permitted id mask uid gid, s => (s, s.permitted id mask uid gid)
  | mountPointForRoot id, s => (s, s.mounts.mountPointForRoot id)
  | resolveInode id, s =>
    match s.mounts.resolveInode id with
    | .found r => (s, r)
    | _ => (s, id)
  | lookup dir name, s => (s, searched name (s.loaded dir).entries)
  | isEmptyDirectory dir, s => (s, !(s.loaded dir).entries.any substantial)
  | addEntry dir name number room, s =>
    match s.putEntry dir ⟨number, _, RawEntry.padded_length name⟩ room with
    | some s => (s, true)
    | none => (s, false)
  | removeEntry dir name, s =>
    match s.wipeEntry dir name with
    | some s => (s, true)
    | none => (s, false)
  | allocInode id inode, s => (s.setInode id inode, ())
  | setLinkCount id count, s =>
    (s.setInode id { s.loaded id with linkCount := count }, ())
  | addLinkCount id change, s =>
    (s.setInode id { s.loaded id with
      linkCount := (s.loaded id).linkCount + change }, ())

/-- When an operation does not panic: a pathname does not end in a byte
from 0x80 on; the type bits of an inode name a type; its block can be
read and its device is mounted; what is searched or edited is a directory,
whose entries up to the one that is looked for have names in UTF-8; and a
name that is added takes at most 14 bytes. -/
def Ok : PathOp → RawFs → Prop
  | parentPath raw, _ => splits raw
  | fileType id, s => (s.loaded id).fileType.isSome
  | permitted _ _ _ _, _ => True
  | mountPointForRoot _, _ => True
  | resolveInode id, s =>
    (s.inode id).isSome ∧ ∃ r, s.mounts.resolveInode id = .found r
  | lookup dir name, s => s.isDirectory dir ∧
      ∀ e ∈ examined (·.named name) (s.loaded dir).entries, e.readable
  | isEmptyDirectory dir, s => s.isDirectory dir ∧
      ∀ e ∈ examined substantial (s.loaded dir).entries, e.readable
  | addEntry dir name _ _, s => s.isDirectory dir ∧
      (encode name).length ≤ nameLength
  | removeEntry dir name, s => s.isDirectory dir ∧
      ∀ e ∈ examined (·.named name) (s.loaded dir).entries, e.readable
  | allocInode id _, s => (s.inode id).isSome
  | setLinkCount _ _, _ => True
  | addLinkCount _ _, _ => True

/-- The scan looks at names until it finds a real one, and panics on one that
is no UTF-8. -/
theorem scanEmpty_eq (entries : List RawEntry) : scanEmpty entries
      = if (examined substantial entries).all (·.readable) then
          some (!entries.any substantial)
        else none := by
  induction entries with
  | nil => rfl
  | cons e rest ih =>
    unfold scanEmpty examined
    rw [ih, List.any_cons]
    by_cases hlive : e.inodeNumber = 0#16
    · have hsub : substantial e = false := by
        simp [substantial, RawEntry.live, hlive]
      have hread : e.readable = true := by
        simp [RawEntry.readable, RawEntry.live, hlive]
      simp [hlive, hsub, hread]
    · by_cases hvalid : Utf8.utf8Valid e.text
      · have hread : e.readable = true := by
          simp [RawEntry.readable, hvalid]
        by_cases hdots : e.text ≠ rawDot ∧ e.text ≠ rawDotdot
        · have hsub : substantial e = true := by
            simp [substantial, RawEntry.live, hlive, hdots]
          simp [hlive, hvalid, hdots, hsub, hread]
        · have hsub : substantial e = false := by
            simp only [substantial, Bool.and_eq_false_iff, bne_eq_false_iff_eq]
            rw [not_and_or, not_not, not_not] at hdots
            rcases hdots with h | h
            · exact .inl (.inr h)
            · exact .inr h
          simp [hlive, hvalid, hdots, hsub, hread]
      · have hread : e.readable = false := by
          simp [RawEntry.readable, RawEntry.live, hlive, hvalid]
        by_cases hsub : substantial e
        · simp [hlive, hvalid, hsub, hread]
        · simp [hlive, hvalid, hsub, hread]

/-- Under its condition a step cannot panic. -/
theorem step_of_ok (o : PathOp) (s : RawFs) (h : o.Ok s) :
    o.step s = some (o.total s) := by
  cases o with
  | parentPath raw =>
    have h : splits raw = true := h
    simp only [step, total, rawParentPath_eq, h]
    rfl
  | fileType id =>
    obtain ⟨t, ht⟩ := Option.isSome_iff_exists.mp h
    simp only [step, total, ht]
    rfl
  | permitted id mask uid gid => rfl
  | mountPointForRoot id => rfl
  | resolveInode id =>
    obtain ⟨hsome, r, hr⟩ := h
    simp only [step, total, hr, if_pos hsome]
  | lookup dir name =>
    simp only [step, total, if_pos h.1, scan_eq]
    rw [if_pos (List.all_eq_true.mpr h.2)]
    rfl
  | isEmptyDirectory dir =>
    simp only [step, total, if_pos h.1, scanEmpty_eq]
    rw [if_pos (List.all_eq_true.mpr h.2)]
    rfl
  | addEntry dir name number room =>
    simp only [step, total, if_pos h.1, RawEntry.new, if_pos h.2,
      Option.map_some]
  | removeEntry dir name =>
    simp only [step, total, if_pos h.1, scan_eq]
    rw [if_pos (List.all_eq_true.mpr h.2)]
    rfl
  | allocInode id inode =>
    have h : (s.inode id).isSome = true := h
    simp only [step, total, h, if_true]
  | setLinkCount id count => rfl
  | addLinkCount id change => rfl

/-- Outside its condition a step panics. -/
theorem step_of_not_ok (o : PathOp) (s : RawFs) (h : ¬ o.Ok s) :
    o.step s = none := by
  have hscan : ∀ name dir, ¬ (s.isDirectory dir = true ∧
      ∀ e ∈ examined (·.named name) (s.loaded dir).entries, e.readable) →
      s.isDirectory dir = true → scan name (s.loaded dir).entries = none := by
    intro name dir hno hdir
    rw [scan_eq, if_neg fun hall => hno ⟨hdir, List.all_eq_true.mp hall⟩]
  cases o with
  | parentPath raw =>
    have h : ¬ splits raw = true := h
    simp only [step, rawParentPath_eq, h]
    rfl
  | fileType id =>
    simp only [Ok, Option.not_isSome_iff_eq_none] at h
    simp only [step, h]
    rfl
  | permitted id mask uid gid => exact absurd trivial h
  | mountPointForRoot id => exact absurd trivial h
  | resolveInode id =>
    simp only [step]
    split
    next hsome =>
      cases hr : s.mounts.resolveInode id with
      | panic => rfl
      | absent => rfl
      | found r => exact absurd ⟨hsome, r, hr⟩ h
    next => rfl
  | lookup dir name =>
    simp only [step]
    split
    next hdir =>
      rw [hscan name dir h hdir]
      rfl
    next => rfl
  | isEmptyDirectory dir =>
    simp only [step]
    split
    next hdir =>
      rw [scanEmpty_eq, if_neg fun hall => h ⟨hdir, List.all_eq_true.mp hall⟩]
      rfl
    next => rfl
  | addEntry dir name number room =>
    simp only [step]
    split
    next hdir =>
      rw [RawEntry.new, if_neg fun hlen => h ⟨hdir, hlen⟩]
      rfl
    next => rfl
  | removeEntry dir name =>
    simp only [step]
    split
    next hdir =>
      rw [hscan name dir h hdir]
      rfl
    next => rfl
  | allocInode id inode =>
    have h : ¬ (s.inode id).isSome = true := h
    simp only [step, h]
    rfl
  | setLinkCount id count => exact absurd trivial h
  | addLinkCount id change => exact absurd trivial h

end PathOp

-- ======== programs

abbrev PathM := Asking PathOp PathOp.Res

/-- What a call reads of the running task, and whether it has a free
descriptor. -/
structure RawTask where
  rootDirectory : Option InodeId
  currentDirectory : Option InodeId
  euid : BitVec 16
  egid : BitVec 16
  umask : BitVec 12
  descriptor : Bool

namespace RawTask

def parentPath (raw : Text) : PathM (List RawComponent × Text) :=
  .ask (.parentPath raw) .ret

def fileType (id : InodeId) : PathM InodeType := .ask (.fileType id) .ret

def mountPointForRoot (id : InodeId) : PathM (Option InodeId) :=
  .ask (.mountPointForRoot id) .ret

def resolveInode (id : InodeId) : PathM InodeId :=
  .ask (.resolveInode id) .ret

def lookup (dir : InodeId) (name : Text) : PathM (Option InodeNumber) :=
  .ask (.lookup dir name) .ret

def isEmptyDirectory (dir : InodeId) : PathM Bool :=
  .ask (.isEmptyDirectory dir) .ret

def addEntry (dir : InodeId) (name : Text) (number : InodeNumber)
    (room : Bool) : PathM Bool :=
  .ask (.addEntry dir name number room) .ret

def removeEntry (dir : InodeId) (name : Text) : PathM Bool :=
  .ask (.removeEntry dir name) .ret

def allocInode (id : InodeId) (inode : RawInode) : PathM Unit :=
  .ask (.allocInode id inode) .ret

def setLinkCount (id : InodeId) (count : BitVec 8) : PathM Unit :=
  .ask (.setLinkCount id count) .ret

def addLinkCount (id : InodeId) (change : BitVec 8) : PathM Unit :=
  .ask (.addLinkCount id change) .ret

variable (task : RawTask)

def permitted (id : InodeId) (mask : BitVec 12) : PathM Bool :=
  .ask (.permitted id mask task.euid task.egid) .ret

-- ======== path resolution

def resolveDotdot (current root : InodeId) : PathM (Option InodeId) :=
  if current = root then return some root
  else do
    let base := (← mountPointForRoot current).getD current
    match ← lookup base rawDotdot with
    | none => return none
    | some number => return some (← resolveInode ⟨base.device, number⟩)

/-- The test before each component: a directory with search permission. -/
def searchable (id : InodeId) : PathM Bool := do
  if (← fileType id) ≠ .directory then return false
  else task.permitted id mayExec

def walkParents (root : InodeId) :
    List RawComponent → InodeId → PathM (Option InodeId)
  | [], current => return some current
  | component :: rest, current => do
      if ← task.searchable current then
        match component with
        | .current => walkParents root rest current
        | .parent =>
          match ← resolveDotdot current root with
          | none => return none
          | some next => walkParents root rest next
        | .name name =>
          match ← lookup current name with
          | none => return none
          | some number =>
            walkParents root rest (← resolveInode ⟨current.device, number⟩)
      else return none

def start (root : InodeId) (raw : Text) : Option InodeId :=
  if raw.head? = some slash then some root else task.currentDirectory

def resolveParent (raw : Text) : PathM (Option (InodeId × Text)) :=
  if raw = [] then return none
  else
    match task.rootDirectory with
    | none => return none
    | some root =>
      match task.start root raw with
      | none => return none
      | some current => do
          let (components, basename) ← parentPath raw
          match ← task.walkParents root components current with
          | none => return none
          | some dir =>
            if basename = [] then return some (dir, basename)
            else if ← task.searchable dir then return some (dir, basename)
            else return none

def resolvePath (raw : Text) : PathM (Option InodeId) := do
  match ← task.resolveParent raw with
  | none => return none
  | some (dir, basename) =>
    if basename = [] then return some dir
    else
      match ← lookup dir basename with
      | none => return none
      | some number => return some (← resolveInode ⟨dir.device, number⟩)

-- ======== the calls

abbrev Reply := Except MakeErrno Unit

/-- `sys_stat`; `Inode::stat` reads the type. -/
def sysStat (path : List Byte) : PathM Reply := do
  match ← task.resolvePath (readPathname path) with
  | none => return .error (.fs .noent)
  | some id => do
      let _ ← fileType id
      return .ok ()

def sysChdir (path : List Byte) : PathM Reply := do
  match ← task.resolvePath (readPathname path) with
  | none => return .error (.fs .noent)
  | some id =>
    if (← fileType id) ≠ .directory then return .error (.fs .notdir)
    else if ← task.permitted id mayExec then return .ok ()
    else return .error (.fs .access)

def newInode (fileType : InodeType) (mode : BitVec 12) (links : BitVec 8) :
    RawInode where
  fileType := some fileType
  flags := mode &&& 0o777#12 &&& ~~~task.umask
  userId := task.euid
  groupId := task.egid.setWidth 8
  linkCount := links
  entries := []

/-- `Inode::alloc_and_link`; `fresh` is the number from the bitmap. -/
def allocAndLink (dir : InodeId) (name : Text) (inode : RawInode)
    (fresh : Option InodeNumber) (room : Bool) :
    PathM (Except MakeErrno InodeId) :=
  match fresh with
  | none => return .error (.fs .nospc)
  | some number => do
      let id : InodeId := ⟨dir.device, number⟩
      allocInode id inode
      if ← addEntry dir name number room then return .ok id
      else do
        setLinkCount id 0#8
        return .error (.fs .error)

inductive AccessMode
  | readOnly
  | writeOnly
  | readWrite
  deriving DecidableEq

/-- The flags of `sys_open`; `none` are access bits that name no mode. -/
structure OpenFlags where
  access : Option AccessMode
  create : Bool
  exclusive : Bool
  truncate : Bool

def mayRead : BitVec 12 := 4#12

def required : AccessMode → BitVec 12
  | .readOnly => mayRead
  | .writeOnly => mayWrite
  | .readWrite => mayRead ||| mayWrite

/-- The end of `sys_open`: the file object and its descriptor. -/
def openInode (id : InodeId) : PathM Reply := do
  if (← fileType id) = .fifo then return .error (.fs .perm)
  else if task.descriptor then return .ok ()
  else return .error .mfile

def openExisting (flags : OpenFlags) (access : AccessMode) (dir : InodeId)
    (number : InodeNumber) : PathM Reply :=
  if flags.exclusive then return .error (.fs .exist)
  else do
    let id ← resolveInode ⟨dir.device, number⟩
    if (← fileType id) = .directory ∧ access ≠ .readOnly then
      return .error (.fs .perm)
    else if ← task.permitted id (required access) then
      if flags.truncate then
        -- `truncate` reads the type as well
        let _ ← fileType id
        task.openInode id
      else task.openInode id
    else return .error (.fs .perm)

def sysOpen (path : List Byte) (flags : OpenFlags) (mode : BitVec 12)
    (fresh : Option InodeNumber) (room : Bool) : PathM Reply :=
  match flags.access with
  | none => return .error (.fs .inval)
  | some access => do
      let access :=
        if access = .readOnly ∧ flags.truncate then .writeOnly else access
      match ← task.resolveParent (readPathname path) with
      | none => return .error (.fs .noent)
      | some (dir, basename) =>
        if basename = [] then
          if access ≠ .readOnly ∨ flags.create ∨ flags.truncate then
            return .error (.fs .isdir)
          else task.openInode dir
        else
          match ← lookup dir basename with
          | none =>
            if flags.create then
              if ← task.permitted dir mayWrite then
                match ← allocAndLink dir basename
                  (task.newInode .regular mode 1#8) fresh room with
                | .error e => return .error e
                | .ok id => task.openInode id
              else return .error (.fs .access)
            else return .error (.fs .noent)
          | some number => task.openExisting flags access dir number

/-- What `sys_mkdir`, `sys_mknod`, `sys_unlink` and `sys_rmdir` do first:
the parent, with a name, that can be written to. -/
def writableParent (path : List Byte) :
    PathM (Except MakeErrno (InodeId × Text)) := do
  match ← task.resolveParent (readPathname path) with
  | none => return .error (.fs .noent)
  | some (dir, basename) =>
    if basename = [] then return .error (.fs .noent)
    else if ← task.permitted dir mayWrite then return .ok (dir, basename)
    else return .error (.fs .access)

/-- `sys_mkdir` with `Inode::create_directory`. -/
def sysMkdir (path : List Byte) (mode : BitVec 12)
    (fresh : Option InodeNumber) (room own : Bool) : PathM Reply := do
  match ← task.writableParent path with
  | .error e => return .error e
  | .ok (dir, basename) =>
    match ← lookup dir basename with
    | some _ => return .error (.fs .exist)
    | none =>
      match ← allocAndLink dir basename (task.newInode .directory mode 2#8)
        fresh room with
      | .error e => return .error e
      | .ok id =>
        if ← addEntry id rawDot id.inodeNumber own then
          if ← addEntry id rawDotdot dir.inodeNumber own then
            addLinkCount dir 1#8
            return .ok ()
          else return .error (.fs .error)
        else return .error (.fs .error)

def sysMknod (path : List Byte) (type : InodeType) (mode : BitVec 12)
    (fresh : Option InodeNumber) (room : Bool) : PathM Reply :=
  if task.euid ≠ 0#16 then return .error (.fs .perm)
  else do
    match ← task.writableParent path with
    | .error e => return .error e
    | .ok (dir, basename) =>
      match ← lookup dir basename with
      | some _ => return .error (.fs .exist)
      | none =>
        if type ≠ .blockDevice ∧ type ≠ .characterDevice then
          return .error (.fs .inval)
        else
          match ← allocAndLink dir basename (task.newInode type mode 1#8)
            fresh room with
          | .error e => return .error e
          | .ok _ => return .ok ()

def sysUnlink (path : List Byte) : PathM Reply := do
  match ← task.writableParent path with
  | .error e => return .error e
  | .ok (dir, basename) =>
    match ← lookup dir basename with
    | none => return .error (.fs .noent)
    | some number => do
        let id ← resolveInode ⟨dir.device, number⟩
        if (← fileType id) = .directory then return .error (.fs .isdir)
        else if ← removeEntry dir basename then
          addLinkCount id (-1#8)
          return .ok ()
        else return .error (.fs .noent)

def sysRmdir (path : List Byte) : PathM Reply := do
  match ← task.writableParent path with
  | .error e => return .error e
  | .ok (dir, basename) =>
    match ← lookup dir basename with
    | none => return .error (.fs .noent)
    | some number => do
        let id ← resolveInode ⟨dir.device, number⟩
        if (← fileType id) ≠ .directory then return .error (.fs .notdir)
        else if ← isEmptyDirectory id then
          if ← removeEntry dir basename then
            setLinkCount id 0#8
            addLinkCount dir (-1#8)
            return .ok ()
          else return .error (.fs .noent)
        else return .error (.fs .notempty)

def sysLink (oldPath newPath : List Byte) (room : Bool) : PathM Reply := do
  match ← task.resolvePath (readPathname oldPath) with
  | none => return .error (.fs .noent)
  | some old =>
    if (← fileType old) = .directory then return .error (.fs .perm)
    else
      match ← task.resolveParent (readPathname newPath) with
      | none => return .error (.fs .access)
      | some (dir, basename) =>
        if basename = [] then return .error (.fs .access)
        else if dir.device ≠ old.device then return .error (.fs .xdev)
        else if ← task.permitted dir mayWrite then
          match ← lookup dir basename with
          | some _ => return .error (.fs .exist)
          | none =>
            if ← addEntry dir basename old.inodeNumber room then
              addLinkCount old 1#8
              return .ok ()
            else return .error (.fs .error)
        else return .error (.fs .access)

-- ======== rename

/-- The walk of `sys_rename` up from the new parent; `some` is an error. -/
def ancestorCheck (old : InodeId) (number : InodeNumber) :
    Nat → InodeId → PathM (Option FsErrno)
  | 0, _ => return none
  | steps + 1, cursor =>
    if cursor.device = old.device ∧ cursor.inodeNumber = number then
      return some .inval
    else do
      match ← lookup cursor rawDotdot with
      | none => return some .io
      | some parent =>
        if parent = cursor.inodeNumber then return none
        else
          ancestorCheck old number steps
            (← resolveInode ⟨cursor.device, parent⟩)

/-- The part of `sys_rename` that displaces an existing target; `some` is
an error. -/
def displace (newDir : InodeId) (newBase : Text) (oldIsDir : Bool) :
    PathM (Option FsErrno) := do
  match ← lookup newDir newBase with
  | none => return none
  | some number => do
      let id ← resolveInode ⟨newDir.device, number⟩
      let newIsDir := decide ((← fileType id) = .directory)
      if oldIsDir ∧ newIsDir = false then return some .notdir
      else if oldIsDir = false ∧ newIsDir then return some .isdir
      else
        let empty ← if newIsDir then isEmptyDirectory id else pure true
        if empty = false then return some .notempty
        else if ← removeEntry newDir newBase then
          if newIsDir then
            setLinkCount id 0#8
            addLinkCount newDir (-1#8)
            return none
          else
            addLinkCount id (-1#8)
            return none
        else return some .noent

/-- The end of `sys_rename`: the new name, the old name, and `..`. -/
def splice (old : InodeId) (number : InodeNumber) (oldDir : InodeId)
    (oldBase : Text) (newDir : InodeId) (newBase : Text) (moves room : Bool) :
    PathM Reply := do
  if ← addEntry newDir newBase number room then
    if ← removeEntry oldDir oldBase then
      if moves then
        if ← removeEntry old rawDotdot then
          if ← addEntry old rawDotdot newDir.inodeNumber false then
            addLinkCount oldDir (-1#8)
            addLinkCount newDir 1#8
            return .ok ()
          else return .error (.fs .error)
        else return .error (.fs .noent)
      else return .ok ()
    else return .error (.fs .noent)
  else return .error (.fs .error)

def refusedName (name : Text) : Bool :=
  name = [] || name = rawDot || name = rawDotdot

def renameIn (oldDir : InodeId) (oldBase : Text) (newDir : InodeId)
    (newBase : Text) (room : Bool) : PathM Reply := do
  match ← lookup oldDir oldBase with
  | none => return .error (.fs .noent)
  | some number => do
      let old ← resolveInode ⟨oldDir.device, number⟩
      let oldIsDir := decide ((← fileType old) = .directory)
      let sameParent := decide (oldDir.inodeNumber = newDir.inodeNumber)
      if sameParent ∧ oldBase = newBase then return .ok ()
      else if (← lookup newDir newBase) = some number then return .ok ()
      else do
        let moves := oldIsDir && !sameParent
        let refused ←
          if moves then ancestorCheck old number maxPathDepth newDir
          else pure none
        match refused with
        | some e => return .error (.fs e)
        | none =>
          match ← displace newDir newBase oldIsDir with
          | some e => return .error (.fs e)
          | none =>
            splice old number oldDir oldBase newDir newBase moves room

def sysRename (oldPath newPath : List Byte) (room : Bool) : PathM Reply := do
  match ← task.resolveParent (readPathname oldPath) with
  | none => return .error (.fs .noent)
  | some (oldDir, oldBase) =>
    if refusedName oldBase then return .error (.fs .inval)
    else
      match ← task.resolveParent (readPathname newPath) with
      | none => return .error (.fs .noent)
      | some (newDir, newBase) =>
        if refusedName newBase then return .error (.fs .inval)
        else if oldDir.device ≠ newDir.device then
          return .error (.fs .xdev)
        else if ← task.permitted oldDir mayWrite then
          if ← task.permitted newDir mayWrite then
            renameIn oldDir oldBase newDir newBase room
          else return .error (.fs .access)
        else return .error (.fs .access)

end RawTask

/-- The system calls that take a path. -/
inductive PathCall
  | stat (path : List Byte)
  | open (path : List Byte) (flags : RawTask.OpenFlags) (mode : BitVec 12)
      (fresh : Option InodeNumber) (room : Bool)
  | mkdir (path : List Byte) (mode : BitVec 12) (fresh : Option InodeNumber)
      (room own : Bool)
  | mknod (path : List Byte) (type : InodeType) (mode : BitVec 12)
      (fresh : Option InodeNumber) (room : Bool)
  | link (oldPath newPath : List Byte) (room : Bool)
  | unlink (path : List Byte)
  | rmdir (path : List Byte)
  | rename (oldPath newPath : List Byte) (room : Bool)
  | chdir (path : List Byte)

def PathCall.prog (task : RawTask) : PathCall → PathM RawTask.Reply
  | .stat path => task.sysStat path
  | .open path flags mode fresh room => task.sysOpen path flags mode fresh room
  | .mkdir path mode fresh room own => task.sysMkdir path mode fresh room own
  | .mknod path type mode fresh room =>
    task.sysMknod path type mode fresh room
  | .link oldPath newPath room => task.sysLink oldPath newPath room
  | .unlink path => task.sysUnlink path
  | .rmdir path => task.sysRmdir path
  | .rename oldPath newPath room => task.sysRename oldPath newPath room
  | .chdir path => task.sysChdir path

end LinuxRs.Fs
