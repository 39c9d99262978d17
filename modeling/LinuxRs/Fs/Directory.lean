/-
The system calls that edit directories (kernel/src/syscall/handler/fs/path.rs
and the directory operations of kernel/src/fs/minix.rs).

# The state

Every inode with its type, permissions, link count and directory entries;
which inode numbers the bitmap marks; and the mount table, which the
calls only read. A deleted directory (link count 0) stays as it is until
its inode is evicted and freed.

# The calls

A call starts from the parent directory and the last name of its
pathname, any pair of them, with what `resolve_parent` has checked
(`searchable`). What a call finds out from the bitmaps is an argument:
the inode number it is given (`fresh`), and whether a directory that
needs a new block gets one (`room`). A call answers with its new state
and its result; `none` is a panic, or an argument the bitmap would not
give.
-/
import LinuxRs.Fs.Path

namespace LinuxRs.Fs

-- ======== the entries

namespace TreeInode

/-- The slot of `Inode::add_entry`: the first deleted entry, or a new one
at the end. A new one may need a block first. `DiskDirectoryEntry::new`
panics on a name of more than 14 bytes; names are at most that long here. -/
def addEntry (inode : TreeInode) (name : Name) (number : InodeNumber)
    (room : Bool) : Option TreeInode :=
  match inode.entries.findIdx? (·.inodeNumber = 0#16) with
  | some slot =>
    some { inode with entries := inode.entries.set slot ⟨number, name⟩ }
  | none =>
    if room ∨ inode.entries.length % 64 ≠ 0 then
      some { inode with entries := inode.entries ++ [⟨number, name⟩] }
    else none

/-- `Inode::remove_entry`: the first live entry of that name is wiped. -/
def removeEntry (inode : TreeInode) (name : Name) : Option TreeInode :=
  match inode.entries.findIdx? fun e =>
      e.inodeNumber ≠ 0#16 ∧ e.name = name with
  | some slot => some { inode with entries := inode.entries.set slot ⟨0#16, []⟩ }
  | none => none

def isEmptyDirectory (inode : TreeInode) : Bool :=
  inode.entries.all fun e =>
    e.inodeNumber = 0#16 ∨ e.name = dot ∨ e.name = dotdot

def names (inode : TreeInode) (number : InodeNumber) : Nat :=
  inode.entries.countP (·.inodeNumber = number)

end TreeInode

-- ======== the state

inductive FsErrno
  | noent
  | access
  | exist
  | nospc
  | error
  | io
  | isdir
  | notdir
  | notempty
  | inval
  | xdev
  | perm
  deriving DecidableEq

/-- The inodes and the mounts, as the directory calls see them. -/
structure DirFs where
  inode : InodeId → TreeInode
  used : InodeId → Bool
  mounts : MountTable

/-- The identity that a call is made under. -/
structure Caller where
  euid : BitVec 16
  egid : BitVec 16
  umask : BitVec 12

abbrev Answer (α : Type) := Option (DirFs × Except FsErrno α)

def mayWrite : BitVec 12 := 2#12

def maxPathDepth : Nat := 256

namespace DirFs

def allowed (s : DirFs) (c : Caller) (id : InodeId) (mask : BitVec 12) : Bool :=
  checkPermissionAs (s.inode id) mask c.euid c.egid

/-- What `resolve_parent` checks of the directory it returns with a
name. -/
def searchable (s : DirFs) (c : Caller) (id : InodeId) : Bool :=
  (s.inode id).fileType = .directory && s.allowed c id mayExec

def setInode (s : DirFs) (id : InodeId) (inode : TreeInode) : DirFs :=
  { s with inode := Function.update s.inode id inode }

def setLinks (s : DirFs) (id : InodeId) (count : BitVec 8) : DirFs :=
  s.setInode id { s.inode id with linkCount := count }

def addEntry (s : DirFs) (dir : InodeId) (name : Name) (number : InodeNumber)
    (room : Bool) : Option DirFs :=
  ((s.inode dir).addEntry name number room).map (s.setInode dir)

def removeEntry (s : DirFs) (dir : InodeId) (name : Name) : Option DirFs :=
  ((s.inode dir).removeEntry name).map (s.setInode dir)

-- ======== making new inodes

/-- The inode a call makes: type, masked permissions, owner, links. -/
def fill (c : Caller) (fileType : InodeType) (mode : BitVec 12)
    (links : BitVec 8) : TreeInode where
  fileType := fileType
  flags := mode &&& 0o777#12 &&& ~~~c.umask
  userId := c.euid
  groupId := c.egid.setWidth 8
  linkCount := links
  entries := []

def allocAndLink (s : DirFs) (c : Caller) (dir : InodeId) (name : Name)
    (fileType : InodeType) (mode : BitVec 12) (links : BitVec 8)
    (fresh : Option InodeNumber) (room : Bool) : Answer InodeNumber :=
  match fresh with
  | none => some (s, .error .nospc)
  | some number =>
    let id : InodeId := ⟨dir.device, number⟩
    if s.used id ∨ number = 0#16 then none
    else
      let s := { s.setInode id (fill c fileType mode links) with
        used := Function.update s.used id true }
      match s.addEntry dir name number room with
      | some s => some (s, .ok number)
      | none => some (s.setLinks id 0#8, .error .error)

/-- `Inode::create_directory`: the second entry lands in the block the
first one got. -/
def createDirectory (s : DirFs) (c : Caller) (dir : InodeId) (name : Name)
    (mode : BitVec 12) (fresh : Option InodeNumber) (room own : Bool) :
    Answer Unit :=
  match s.allocAndLink c dir name .directory mode 2#8 fresh room with
  | none => none
  | some (s, .error e) => some (s, .error e)
  | some (s, .ok number) =>
    let id : InodeId := ⟨dir.device, number⟩
    match s.addEntry id dot number own with
    | none => some (s, .error .error)
    | some s =>
      match s.addEntry id dotdot dir.inodeNumber own with
      | none => some (s, .error .error)
      | some s =>
        some (s.setLinks dir ((s.inode dir).linkCount + 1#8), .ok ())

def sysMkdir (s : DirFs) (c : Caller) (dir : InodeId) (base : Name)
    (mode : BitVec 12) (fresh : Option InodeNumber) (room own : Bool) :
    Answer Unit :=
  if base = [] ∨ s.searchable c dir = false then some (s, .error .noent)
  else if s.allowed c dir mayWrite = false then some (s, .error .access)
  else if ((s.inode dir).find base).isSome then some (s, .error .exist)
  else s.createDirectory c dir base mode fresh room own

def createNode (s : DirFs) (c : Caller) (dir : InodeId) (name : Name)
    (fileType : InodeType) (mode : BitVec 12) (fresh : Option InodeNumber)
    (room : Bool) : Answer Unit :=
  match s.allocAndLink c dir name fileType mode 1#8 fresh room with
  | none => none
  | some (s, .error e) => some (s, .error e)
  | some (s, .ok _) => some (s, .ok ())

/-- `sys_creat` and `sys_open` with `O_CREAT`, as far as they edit the
directory; a name that exists is opened. -/
def sysCreat (s : DirFs) (c : Caller) (dir : InodeId) (base : Name)
    (mode : BitVec 12) (fresh : Option InodeNumber) (room : Bool) :
    Answer Unit :=
  if base = [] then some (s, .error .isdir)
  else if s.searchable c dir = false then some (s, .error .noent)
  else if ((s.inode dir).find base).isSome then some (s, .ok ())
  else if s.allowed c dir mayWrite = false then some (s, .error .access)
  else s.createNode c dir base .regular mode fresh room

def sysMknod (s : DirFs) (c : Caller) (dir : InodeId) (base : Name)
    (fileType : InodeType) (mode : BitVec 12) (fresh : Option InodeNumber)
    (room : Bool) : Answer Unit :=
  if c.euid ≠ 0#16 then some (s, .error .perm)
  else if base = [] ∨ s.searchable c dir = false then some (s, .error .noent)
  else if s.allowed c dir mayWrite = false then some (s, .error .access)
  else if ((s.inode dir).find base).isSome then some (s, .error .exist)
  else if fileType ≠ .blockDevice ∧ fileType ≠ .characterDevice then
    some (s, .error .inval)
  else s.createNode c dir base fileType mode fresh room

-- ======== links and names

def target (s : DirFs) (dir : InodeId) (number : InodeNumber) :
    Option InodeId :=
  match s.mounts.resolveInode ⟨dir.device, number⟩ with
  | .found id => some id
  | _ => none

/-- `sys_link`. A file behind a trailing slash is the one that the name
before the slash has, so an empty last name stands for a directory. -/
def sysLink (s : DirFs) (c : Caller) (oldDir : InodeId) (oldBase : Name)
    (dir : InodeId) (base : Name) (room : Bool) : Answer Unit :=
  if oldBase = [] then some (s, .error .perm)
  else if s.searchable c oldDir = false then some (s, .error .noent)
  else
    match (s.inode oldDir).find oldBase with
    | none => some (s, .error .noent)
    | some number =>
      match s.target oldDir number with
      | none => none
      | some old =>
        if (s.inode old).fileType = .directory then some (s, .error .perm)
        else if base = [] ∨ s.searchable c dir = false then
          some (s, .error .access)
        else if dir.device ≠ old.device then some (s, .error .xdev)
        else if s.allowed c dir mayWrite = false then
          some (s, .error .access)
        else if ((s.inode dir).find base).isSome then
          some (s, .error .exist)
        else
          match s.addEntry dir base old.inodeNumber room with
          | none => some (s, .error .error)
          | some s =>
            some (s.setLinks old ((s.inode old).linkCount + 1#8), .ok ())

def sysUnlink (s : DirFs) (c : Caller) (dir : InodeId) (base : Name) :
    Answer Unit :=
  if base = [] ∨ s.searchable c dir = false then some (s, .error .noent)
  else if s.allowed c dir mayWrite = false then some (s, .error .access)
  else
    match (s.inode dir).find base with
    | none => some (s, .error .noent)
    | some number =>
      match s.target dir number with
      | none => none
      | some id =>
        if (s.inode id).fileType = .directory then some (s, .error .isdir)
        else
          match s.removeEntry dir base with
          | none => some (s, .error .noent)
          | some s =>
            some (s.setLinks id ((s.inode id).linkCount - 1#8), .ok ())

/-- Unlink a directory that is empty: its name goes, its own links become
0, and the parent loses the link of its `..`. -/
def dropDirectory (s : DirFs) (dir : InodeId) (base : Name) (id : InodeId) :
    Option DirFs :=
  (s.removeEntry dir base).map fun s =>
    let s := s.setLinks id 0#8
    s.setLinks dir ((s.inode dir).linkCount - 1#8)

def sysRmdir (s : DirFs) (c : Caller) (dir : InodeId) (base : Name) :
    Answer Unit :=
  if base = [] ∨ s.searchable c dir = false then some (s, .error .noent)
  else if s.allowed c dir mayWrite = false then some (s, .error .access)
  else
    match (s.inode dir).find base with
    | none => some (s, .error .noent)
    | some number =>
      match s.target dir number with
      | none => none
      | some id =>
        if (s.inode id).fileType ≠ .directory then
          some (s, .error .notdir)
        else if (s.inode id).isEmptyDirectory = false then
          some (s, .error .notempty)
        else
          match s.dropDirectory dir base id with
          | none => some (s, .error .noent)
          | some s => some (s, .ok ())

-- ======== rename

/-- The ancestor check of `sys_rename`: walk `..` up from the new parent
for a bounded number of steps and refuse to meet the moved directory.
`old` is the inode behind the old name, `number` the number that the
name holds. -/
def ancestorCheck (s : DirFs) (old : InodeId) (number : InodeNumber) :
    Nat → InodeId → Option (Except FsErrno Unit)
  | 0, _ => some (.ok ())
  | steps + 1, cursor =>
    if cursor.device = old.device ∧ cursor.inodeNumber = number then
      some (.error .inval)
    else if (s.inode cursor).fileType ≠ .directory then none
    else
      match (s.inode cursor).find dotdot with
      | none => some (.error .io)
      | some parent =>
        if parent = cursor.inodeNumber then some (.ok ())
        else
          match s.target cursor parent with
          | none => none
          | some next => s.ancestorCheck old number steps next

/-- The part of `sys_rename` that displaces an existing target. -/
def displace (s : DirFs) (newDir : InodeId) (newBase : Name)
    (oldIsDir : Bool) : Answer Unit :=
  match (s.inode newDir).find newBase with
  | none => some (s, .ok ())
  | some number =>
    match s.target newDir number with
    | none => none
    | some id =>
      let newIsDir := decide ((s.inode id).fileType = .directory)
      if oldIsDir ∧ newIsDir = false then some (s, .error .notdir)
      else if oldIsDir = false ∧ newIsDir then some (s, .error .isdir)
      else if newIsDir ∧ (s.inode id).isEmptyDirectory = false then
        some (s, .error .notempty)
      else if newIsDir then
        match s.dropDirectory newDir newBase id with
        | none => some (s, .error .noent)
        | some s => some (s, .ok ())
      else
        match s.removeEntry newDir newBase with
        | none => some (s, .error .noent)
        | some s =>
          some (s.setLinks id ((s.inode id).linkCount - 1#8), .ok ())

/-- Rewire `..` of a directory that changes its parent. -/
def rewire (s : DirFs) (old oldDir newDir : InodeId) : Answer Unit :=
  match s.removeEntry old dotdot with
  | none => some (s, .error .noent)
  | some s =>
    match s.addEntry old dotdot newDir.inodeNumber false with
    | none => some (s, .error .error)
    | some s =>
      let s := s.setLinks oldDir ((s.inode oldDir).linkCount - 1#8)
      some (s.setLinks newDir ((s.inode newDir).linkCount + 1#8), .ok ())

/-- The end of `sys_rename`: the new name, the old name, and `..`. -/
def splice (s : DirFs) (old : InodeId) (number : InodeNumber)
    (oldDir : InodeId) (oldBase : Name) (newDir : InodeId) (newBase : Name)
    (moves room : Bool) : Answer Unit :=
  match s.addEntry newDir newBase number room with
  | none => some (s, .error .error)
  | some s =>
    match s.removeEntry oldDir oldBase with
    | none => some (s, .error .noent)
    | some s => if moves then s.rewire old oldDir newDir else some (s, .ok ())

def badName (base : Name) : Prop := base = [] ∨ base = dot ∨ base = dotdot

instance (base : Name) : Decidable (badName base) :=
  inferInstanceAs (Decidable (_ ∨ _ ∨ _))

def sysRename (s : DirFs) (c : Caller) (oldDir : InodeId) (oldBase : Name)
    (newDir : InodeId) (newBase : Name) (room : Bool) : Answer Unit :=
  if oldBase ≠ [] ∧ s.searchable c oldDir = false then some (s, .error .noent)
  else if badName oldBase then some (s, .error .inval)
  else if newBase ≠ [] ∧ s.searchable c newDir = false then
    some (s, .error .noent)
  else if badName newBase then some (s, .error .inval)
  else if oldDir.device ≠ newDir.device then some (s, .error .xdev)
  else if s.allowed c oldDir mayWrite = false ∨
      s.allowed c newDir mayWrite = false then some (s, .error .access)
  else
    match (s.inode oldDir).find oldBase with
    | none => some (s, .error .noent)
    | some number =>
      match s.target oldDir number with
      | none => none
      | some old =>
        let oldIsDir := decide ((s.inode old).fileType = .directory)
        let sameParent := decide (oldDir.inodeNumber = newDir.inodeNumber)
        if sameParent ∧ oldBase = newBase then some (s, .ok ())
        else if (s.inode newDir).find newBase = some number then
          some (s, .ok ())
        else
          let moves := oldIsDir && !sameParent
          match (if moves then s.ancestorCheck old number maxPathDepth newDir
            else some (.ok ())) with
          | none => none
          | some (.error e) => some (s, .error e)
          | some (.ok ()) =>
            match s.displace newDir newBase oldIsDir with
            | none => none
            | some (s, .error e) => some (s, .error e)
            | some (s, .ok ()) =>
              s.splice old number oldDir oldBase newDir newBase moves
                room

/-- An inode without links leaves the inode table (`flush_slot`): its
blocks and its number are freed. -/
def evict (s : DirFs) (id : InodeId) : Answer Unit :=
  if s.used id ∧ (s.inode id).linkCount = 0#8 then
    some ({ s.setInode id { s.inode id with entries := [] } with
      used := Function.update s.used id false }, .ok ())
  else none

end DirFs

-- ======== the steps

/-- The calls that change a directory. -/
inductive DirOp
  | creat (c : Caller) (dir : InodeId) (base : Name) (mode : BitVec 12)
      (fresh : Option InodeNumber) (room : Bool)
  | mknod (c : Caller) (dir : InodeId) (base : Name) (fileType : InodeType)
      (mode : BitVec 12) (fresh : Option InodeNumber) (room : Bool)
  | link (c : Caller) (oldDir : InodeId) (oldBase : Name) (dir : InodeId)
      (base : Name) (room : Bool)
  | unlink (c : Caller) (dir : InodeId) (base : Name)
  | mkdir (c : Caller) (dir : InodeId) (base : Name) (mode : BitVec 12)
      (fresh : Option InodeNumber) (room own : Bool)
  | rmdir (c : Caller) (dir : InodeId) (base : Name)
  | rename (c : Caller) (oldDir : InodeId) (oldBase : Name) (newDir : InodeId)
      (newBase : Name) (room : Bool)
  | evict (id : InodeId)

def DirFs.call (s : DirFs) : DirOp → Answer Unit
  | .creat c dir base mode fresh room => s.sysCreat c dir base mode fresh room
  | .mknod c dir base fileType mode fresh room =>
    s.sysMknod c dir base fileType mode fresh room
  | .link c oldDir oldBase dir base room =>
    s.sysLink c oldDir oldBase dir base room
  | .unlink c dir base => s.sysUnlink c dir base
  | .mkdir c dir base mode fresh room own =>
    s.sysMkdir c dir base mode fresh room own
  | .rmdir c dir base => s.sysRmdir c dir base
  | .rename c oldDir oldBase newDir newBase room =>
    s.sysRename c oldDir oldBase newDir newBase room
  | .evict id => s.evict id

def DirFs.step (s : DirFs) (op : DirOp) : Option DirFs :=
  (s.call op).map Prod.fst

end LinuxRs.Fs
