/-
Which of the calls that make names leave the directories alone when they
fail (kernel/src/syscall/handler/fs/path.rs, fd.rs and the directory
operations of kernel/src/fs/minix.rs).

# Failures

The calls are those of `DirFs`, with the failures that it leaves out: the
block of a directory may not be readable in any of the operations on
entries, and the descriptor table may be full when `sys_creat` has made
its file. The function `io` says of the operations of one call, in their
order, which ones get their blocks; `room` and `own` say as before
whether a directory that needs a new block gets one.

# What counts as unchanged

`Untouched` compares the entries and the link counts of all inodes. An
inode whose number was free has none of either, so one that a failing
call has allocated must have no entry and no link (it is freed when it
leaves the inode table).
-/
import LinuxRs.Fs.RemovalFrame

namespace LinuxRs.Fs

open DirFs (Moving)
open Function (update update_self update_of_ne)

inductive MakeErrno
  | fs (e : FsErrno)
  | mfile

abbrev MakeAnswer := Option (DirFs × Except MakeErrno Unit)

namespace DirFs

-- ======== the calls

/-- `Inode::add_entry`; an entry is written last. -/
def tryAddEntry (s : DirFs) (io : Bool) (dir : InodeId) (name : Name)
    (number : InodeNumber) (room : Bool) : Except FsErrno DirFs :=
  if io = false then .error .io
  else
    match s.addEntry dir name number room with
    | some s => .ok s
    | none => .error .error

def tryRemoveEntry (s : DirFs) (io : Bool) (dir : InodeId) (name : Name) :
    Except FsErrno DirFs :=
  if io = false then .error .io
  else
    match s.removeEntry dir name with
    | some s => .ok s
    | none => .error .noent

/-- `Inode::alloc_and_link`, which takes its inode back when the entry
cannot be made. -/
def tryAllocAndLink (s : DirFs) (io : Bool) (c : Caller) (dir : InodeId)
    (name : Name) (fileType : InodeType) (mode : BitVec 12) (links : BitVec 8)
    (fresh : Option InodeNumber) (room : Bool) : Answer InodeNumber :=
  match fresh with
  | none => some (s, .error .nospc)
  | some number =>
    let id : InodeId := ⟨dir.device, number⟩
    if s.used id ∨ number = 0#16 then none
    else
      let s := { s.setInode id (fill c fileType mode links) with
        used := update s.used id true }
      match s.tryAddEntry io dir name number room with
      | .ok s => some (s, .ok number)
      | .error e => some (s.setLinks id 0#8, .error e)

/-- `Inode::create_directory` after the new directory has its name. -/
def makeDots (s : DirFs) (io : Nat → Bool) (dir : InodeId)
    (number : InodeNumber) (own : Bool) : DirFs × Except FsErrno Unit :=
  let id : InodeId := ⟨dir.device, number⟩
  match s.tryAddEntry (io 2) id dot number own with
  | .error e => (s, .error e)
  | .ok s =>
    match s.tryAddEntry (io 3) id dotdot dir.inodeNumber own with
    | .error e => (s, .error e)
    | .ok s => (s.setLinks dir ((s.inode dir).linkCount + 1#8), .ok ())

/-- What `sys_mkdir` and `sys_mknod` ask of the directory and the name. -/
def nameRefused (s : DirFs) (io : Bool) (c : Caller) (dir : InodeId)
    (base : Name) : Option FsErrno :=
  if base = [] ∨ s.searchable c dir = false then some .noent
  else if s.allowed c dir mayWrite = false then some .access
  else if io = false then some .io
  else if ((s.inode dir).find base).isSome then some .exist
  else none

def mkdirCall (s : DirFs) (io : Nat → Bool) (c : Caller) (dir : InodeId)
    (base : Name) (mode : BitVec 12) (fresh : Option InodeNumber)
    (room own : Bool) : Answer Unit :=
  match s.nameRefused (io 0) c dir base with
  | some e => some (s, .error e)
  | none =>
    match s.tryAllocAndLink (io 1) c dir base .directory mode 2#8 fresh
      room with
    | none => none
    | some (s, .error e) => some (s, .error e)
    | some (s, .ok number) => some (s.makeDots io dir number own)

def mknodCall (s : DirFs) (io : Nat → Bool) (c : Caller) (dir : InodeId)
    (base : Name) (fileType : InodeType) (mode : BitVec 12)
    (fresh : Option InodeNumber) (room : Bool) : Answer Unit :=
  if c.euid ≠ 0#16 then some (s, .error .perm)
  else
    match s.nameRefused (io 0) c dir base with
    | some e => some (s, .error e)
    | none =>
      if fileType ≠ .blockDevice ∧ fileType ≠ .characterDevice then
        some (s, .error .inval)
      else
        match s.tryAllocAndLink (io 1) c dir base fileType mode 1#8 fresh
          room with
        | none => none
        | some (s, .error e) => some (s, .error e)
        | some (s, .ok _) => some (s, .ok ())

/-- The end of `sys_open`: a descriptor for what is open. -/
def openResult (s : DirFs) (descriptor : Bool) :
    DirFs × Except MakeErrno Unit :=
  if descriptor then (s, .ok ()) else (s, .error .mfile)

/-- What `sys_creat` asks of the directory before it makes a file. -/
def creatRefused (s : DirFs) (io : Bool) (c : Caller) (dir : InodeId)
    (base : Name) : Option FsErrno :=
  if base = [] then some .isdir
  else if s.searchable c dir = false then some .noent
  else if io = false then some .io
  else none

/-- `sys_creat`; a file that exists is opened for writing. -/
def creatCall (s : DirFs) (io : Nat → Bool) (c : Caller) (dir : InodeId)
    (base : Name) (mode : BitVec 12) (fresh : Option InodeNumber)
    (room descriptor : Bool) : MakeAnswer :=
  match s.creatRefused (io 0) c dir base with
  | some e => some (s, .error (.fs e))
  | none =>
    match (s.inode dir).find base with
    | none =>
      if s.allowed c dir mayWrite = false then
        some (s, .error (.fs .access))
      else
        match s.tryAllocAndLink (io 1) c dir base .regular mode 1#8 fresh
          room with
        | none => none
        | some (s, .error e) => some (s, .error (.fs e))
        | some (s, .ok _) => some (s.openResult descriptor)
    | some number =>
      match s.target dir number with
      | none => none
      | some id =>
        if (s.inode id).fileType = .directory ∨
            s.allowed c id mayWrite = false ∨
            (s.inode id).fileType = .fifo then
          some (s, .error (.fs .perm))
        else some (s.openResult descriptor)

def linkCall (s : DirFs) (io : Nat → Bool) (c : Caller) (oldDir : InodeId)
    (oldBase : Name) (dir : InodeId) (base : Name) (room : Bool) :
    Answer Unit :=
  if oldBase = [] then some (s, .error .perm)
  else if s.searchable c oldDir = false then some (s, .error .noent)
  else if io 0 = false then some (s, .error .noent)
  else
    match (s.inode oldDir).find oldBase with
    | none => some (s, .error .noent)
    | some number =>
      match s.target oldDir number with
      | none => none
      | some old =>
        if (s.inode old).fileType = .directory then some (s, .error .perm)
        else if base = [] ∨ s.searchable c dir = false then
          some (s, .error .access)
        else if dir.device ≠ old.device then some (s, .error .xdev)
        else if s.allowed c dir mayWrite = false then
          some (s, .error .access)
        else if io 1 = false then some (s, .error .io)
        else if ((s.inode dir).find base).isSome then
          some (s, .error .exist)
        else
          match s.tryAddEntry (io 2) dir base old.inodeNumber room with
          | .error e => some (s, .error e)
          | .ok s =>
            some (s.setLinks old ((s.inode old).linkCount + 1#8), .ok ())

-- ======== rename

/-- What the checks of `sys_rename` come to: an error, nothing to do, or
the number behind the old name and its inode. -/
inductive RenameVerdict
  | refused (e : FsErrno)
  | done
  | go (number : InodeNumber) (old : InodeId)

/-- Whether the new parent may take a directory: it is not the directory
itself or below it. -/
def ancestorVerdict (s : DirFs) (io : Bool) (number : InodeNumber)
    (old newDir : InodeId) : Option RenameVerdict :=
  if io = false then some (.refused .io)
  else
    match s.ancestorCheck old number maxPathDepth newDir with
    | none => none
    | some (.error e) => some (.refused e)
    | some (.ok ()) => some (.go number old)

/-- A directory is moved under another parent. -/
def Reparents (s : DirFs) (old oldDir newDir : InodeId) : Prop :=
  (s.inode old).fileType = .directory ∧ oldDir.inodeNumber ≠ newDir.inodeNumber

instance (s : DirFs) (old oldDir newDir : InodeId) :
    Decidable (s.Reparents old oldDir newDir) :=
  inferInstanceAs (Decidable (_ ∧ _))

/-- The checks of `sys_rename`, up to the new place. -/
def renameChecks (s : DirFs) (io : Nat → Bool) (c : Caller)
    (oldDir : InodeId) (oldBase : Name) (newDir : InodeId) (newBase : Name) :
    Option RenameVerdict :=
  if oldBase ≠ [] ∧ s.searchable c oldDir = false then some (.refused .noent)
  else if badName oldBase then some (.refused .inval)
  else if newBase ≠ [] ∧ s.searchable c newDir = false then
    some (.refused .noent)
  else if badName newBase then some (.refused .inval)
  else if oldDir.device ≠ newDir.device then some (.refused .xdev)
  else if s.allowed c oldDir mayWrite = false ∨
      s.allowed c newDir mayWrite = false then some (.refused .access)
  else if io 0 = false then some (.refused .io)
  else
    match (s.inode oldDir).find oldBase with
    | none => some (.refused .noent)
    | some number =>
      match s.target oldDir number with
      | none => none
      | some old =>
        if oldDir.inodeNumber = newDir.inodeNumber ∧ oldBase = newBase then
          some .done
        else if io 1 = false then some (.refused .io)
        else if (s.inode newDir).find newBase = some number then some .done
        else if s.Reparents old oldDir newDir then
          s.ancestorVerdict (io 2) number old newDir
        else some (.go number old)

/-- The part of `sys_rename` that displaces an existing target. -/
def tryDisplace (s : DirFs) (io : Nat → Bool) (newDir : InodeId)
    (newBase : Name) (oldIsDir : Bool) : Answer Unit :=
  if io 3 = false then some (s, .error .io)
  else
    match (s.inode newDir).find newBase with
    | none => some (s, .ok ())
    | some number =>
      match s.target newDir number with
      | none => none
      | some id =>
        let newIsDir := decide ((s.inode id).fileType = .directory)
        if oldIsDir ∧ newIsDir = false then some (s, .error .notdir)
        else if oldIsDir = false ∧ newIsDir then some (s, .error .isdir)
        else if newIsDir ∧ io 4 = false then some (s, .error .io)
        else if newIsDir ∧ (s.inode id).isEmptyDirectory = false then
          some (s, .error .notempty)
        else if io 5 = false then some (s, .error .io)
        else s.displace newDir newBase oldIsDir

/-- Rewire `..` of a directory that changes its parent. -/
def tryRewire (s : DirFs) (io : Nat → Bool) (old oldDir newDir : InodeId) :
    DirFs × Except FsErrno Unit :=
  match s.tryRemoveEntry (io 8) old dotdot with
  | .error e => (s, .error e)
  | .ok s =>
    match s.tryAddEntry (io 9) old dotdot newDir.inodeNumber false with
    | .error e => (s, .error e)
    | .ok s =>
      let s := s.setLinks oldDir ((s.inode oldDir).linkCount - 1#8)
      (s.setLinks newDir ((s.inode newDir).linkCount + 1#8), .ok ())

/-- The end of `sys_rename`: the new name, the old name, and `..`. -/
def trySplice (s : DirFs) (io : Nat → Bool) (old : InodeId)
    (number : InodeNumber) (oldDir : InodeId) (oldBase : Name)
    (newDir : InodeId) (newBase : Name) (room : Bool) (moves : Prop)
    [Decidable moves] : DirFs × Except FsErrno Unit :=
  match s.tryAddEntry (io 6) newDir newBase number room with
  | .error e => (s, .error e)
  | .ok s =>
    match s.tryRemoveEntry (io 7) oldDir oldBase with
    | .error e => (s, .error e)
    | .ok s =>
      if moves then s.tryRewire io old oldDir newDir else (s, .ok ())

/-- The part of `sys_rename` after its checks. -/
def displaceAndSplice (s : DirFs) (io : Nat → Bool) (old : InodeId)
    (number : InodeNumber) (oldDir : InodeId) (oldBase : Name)
    (newDir : InodeId) (newBase : Name) (room : Bool) : Answer Unit :=
  match s.tryDisplace io newDir newBase
    ((s.inode old).fileType = .directory) with
  | none => none
  | some (s', .error e) => some (s', .error e)
  | some (s', .ok ()) =>
    some (s'.trySplice io old number oldDir oldBase newDir newBase room
      (s.Reparents old oldDir newDir))

def renameCall (s : DirFs) (io : Nat → Bool) (c : Caller)
    (oldDir : InodeId) (oldBase : Name) (newDir : InodeId) (newBase : Name)
    (room : Bool) : Answer Unit :=
  match s.renameChecks io c oldDir oldBase newDir newBase with
  | none => none
  | some (.refused e) => some (s, .error e)
  | some .done => some (s, .ok ())
  | some (.go number old) =>
    s.displaceAndSplice io old number oldDir oldBase newDir newBase room

end DirFs

/-- The calls that make an entry. -/
inductive MakeOp
  | mkdir (c : Caller) (dir : InodeId) (base : Name) (mode : BitVec 12)
      (fresh : Option InodeNumber) (room own : Bool)
  | mknod (c : Caller) (dir : InodeId) (base : Name) (fileType : InodeType)
      (mode : BitVec 12) (fresh : Option InodeNumber) (room : Bool)
  | creat (c : Caller) (dir : InodeId) (base : Name) (mode : BitVec 12)
      (fresh : Option InodeNumber) (room descriptor : Bool)
  | link (c : Caller) (oldDir : InodeId) (oldBase : Name) (dir : InodeId)
      (base : Name) (room : Bool)
  | rename (c : Caller) (oldDir : InodeId) (oldBase : Name) (newDir : InodeId)
      (newBase : Name) (room : Bool)

def DirFs.made (answer : Answer Unit) : MakeAnswer :=
  answer.map fun r => (r.1, r.2.mapError .fs)

def DirFs.make (s : DirFs) (io : Nat → Bool) : MakeOp → MakeAnswer
  | .mkdir c dir base mode fresh room own =>
    made (s.mkdirCall io c dir base mode fresh room own)
  | .mknod c dir base fileType mode fresh room =>
    made (s.mknodCall io c dir base fileType mode fresh room)
  | .creat c dir base mode fresh room descriptor =>
    s.creatCall io c dir base mode fresh room descriptor
  | .link c oldDir oldBase dir base room =>
    made (s.linkCall io c oldDir oldBase dir base room)
  | .rename c oldDir oldBase newDir newBase room =>
    made (s.renameCall io c oldDir oldBase newDir newBase room)

-- ======== when every block is read

namespace DirFs

variable (s : DirFs) (c : Caller) (dir : InodeId) (base : Name)
  (mode : BitVec 12) (fresh : Option InodeNumber) (room own : Bool)

theorem tryAllocAndLink_readable (fileType : InodeType) (links : BitVec 8) :
    s.tryAllocAndLink true c dir base fileType mode links fresh room
      = s.allocAndLink c dir base fileType mode links fresh room := by
  unfold tryAllocAndLink allocAndLink tryAddEntry
  cases fresh with
  | none => rfl
  | some number =>
    dsimp only
    split
    next => rfl
    next =>
      rw [if_neg nofun]
      generalize DirFs.addEntry _ dir base number room = added
      cases added with
      | none => rfl
      | some s₁ => rfl

/-- Where every block is read, `mkdir` is that of `Directory`. -/
theorem mkdirCall_readable :
    s.mkdirCall (fun _ => true) c dir base mode fresh room own
      = s.sysMkdir c dir base mode fresh room own := by
  unfold mkdirCall sysMkdir nameRefused createDirectory
  rw [tryAllocAndLink_readable]
  by_cases hbase : base = [] ∨ s.searchable c dir = false
  · rw [if_pos hbase, if_pos hbase]
  rw [if_neg hbase, if_neg hbase]
  by_cases hallowed : s.allowed c dir mayWrite = false
  · rw [if_pos hallowed, if_pos hallowed]
  rw [if_neg hallowed, if_neg hallowed, if_neg nofun]
  by_cases hfound : ((s.inode dir).find base).isSome
  · rw [if_pos hfound, if_pos hfound]
  rw [if_neg hfound, if_neg hfound]
  cases s.allocAndLink c dir base .directory mode 2#8 fresh room with
  | none => rfl
  | some r =>
    obtain ⟨s₁, r⟩ := r
    cases r with
    | error e => rfl
    | ok number =>
      unfold makeDots tryAddEntry
      dsimp only
      rw [if_neg nofun]
      cases s₁.addEntry ⟨dir.device, number⟩ dot number own with
      | none => rfl
      | some s₂ =>
        dsimp only
        rw [if_neg nofun]
        cases s₂.addEntry ⟨dir.device, number⟩ dotdot dir.inodeNumber own with
        | none => rfl
        | some s₃ => rfl

/-- Without device errors this is the plain call. -/
theorem trySplice_readable (old : InodeId) (number : InodeNumber)
    (oldDir : InodeId) (oldBase : Name) (newDir : InodeId) (newBase : Name)
    (moves : Prop) [Decidable moves] :
    some (s.trySplice (fun _ => true) old number oldDir oldBase newDir newBase
        room moves)
      = s.splice old number oldDir oldBase newDir newBase (decide moves)
          room := by
  unfold trySplice splice tryAddEntry tryRemoveEntry tryRewire rewire
  simp only [Bool.true_eq_false, if_false]
  cases s.addEntry newDir newBase number room with
  | none => rfl
  | some s₁ =>
    dsimp only
    cases s₁.removeEntry oldDir oldBase with
    | none => rfl
    | some s₂ =>
      by_cases hmoves : moves
      · simp only [hmoves, decide_true, if_true, tryRemoveEntry,
          Bool.true_eq_false, if_false]
        cases s₂.removeEntry old dotdot with
        | none => rfl
        | some s₃ =>
          dsimp only [tryAddEntry]
          simp only [Bool.true_eq_false, if_false]
          cases s₃.addEntry old dotdot newDir.inodeNumber false with
          | none => rfl
          | some s₄ => rfl
      · simp only [hmoves, decide_false, Bool.false_eq_true, if_false]

theorem tryDisplace_readable (newDir : InodeId) (newBase : Name)
    (oldIsDir : Bool) : s.tryDisplace (fun _ => true) newDir newBase oldIsDir
      = s.displace newDir newBase oldIsDir := by
  unfold tryDisplace
  simp only [Bool.true_eq_false, if_false, and_false]
  cases hf : (s.inode newDir).find newBase with
  | none => simp [displace, hf]
  | some number =>
    dsimp only
    cases ht : s.target newDir number with
    | none => simp [displace, hf, ht]
    | some id =>
      dsimp only
      split
      next h => simp [displace, hf, ht, h]
      next h₁ =>
        split
        next h => simp [displace, hf, ht, h]
        next h₂ =>
          split
          next h => simp_all [displace]
          next => rfl

/-- Where every block is read, `rename` is that of `Directory`. -/
theorem renameCall_readable (oldDir : InodeId) (oldBase : Name)
    (newDir : InodeId) (newBase : Name) :
    s.renameCall (fun _ => true) c oldDir oldBase newDir newBase room
      = s.sysRename c oldDir oldBase newDir newBase room := by
  unfold renameCall renameChecks sysRename
  by_cases h₁ : oldBase ≠ [] ∧ s.searchable c oldDir = false
  · rw [if_pos h₁, if_pos h₁]
  rw [if_neg h₁, if_neg h₁]
  by_cases h₂ : badName oldBase
  · rw [if_pos h₂, if_pos h₂]
  rw [if_neg h₂, if_neg h₂]
  by_cases h₃ : newBase ≠ [] ∧ s.searchable c newDir = false
  · rw [if_pos h₃, if_pos h₃]
  rw [if_neg h₃, if_neg h₃]
  by_cases h₄ : badName newBase
  · rw [if_pos h₄, if_pos h₄]
  rw [if_neg h₄, if_neg h₄]
  by_cases h₅ : oldDir.device ≠ newDir.device
  · rw [if_pos h₅, if_pos h₅]
  rw [if_neg h₅, if_neg h₅]
  by_cases h₆ : s.allowed c oldDir mayWrite = false ∨
      s.allowed c newDir mayWrite = false
  · rw [if_pos h₆, if_pos h₆]
  rw [if_neg h₆, if_neg h₆, if_neg nofun]
  cases (s.inode oldDir).find oldBase with
  | none => rfl
  | some number =>
    dsimp only
    cases s.target oldDir number with
    | none => rfl
    | some old =>
      dsimp only
      by_cases hself : oldDir.inodeNumber = newDir.inodeNumber ∧
          oldBase = newBase
      · rw [if_pos hself, if_pos ⟨decide_eq_true hself.1, hself.2⟩]
      have hself' : ¬ (decide (oldDir.inodeNumber = newDir.inodeNumber)
          = true ∧ oldBase = newBase) :=
        fun h => hself ⟨of_decide_eq_true h.1, h.2⟩
      rw [if_neg hself, if_neg hself', if_neg Bool.true_eq_false.mp]
      by_cases hdone : (s.inode newDir).find newBase = some number
      · rw [if_pos hdone, if_pos hdone]
      rw [if_neg hdone, if_neg hdone]
      have hmoves : decide (s.Reparents old oldDir newDir)
          = ((s.inode old).fileType = .directory &&
            !decide (oldDir.inodeNumber = newDir.inodeNumber)) := by
        rw [← decide_not, ← Bool.decide_and]
        rfl
      rw [← hmoves]
      have hend : s.displaceAndSplice (fun _ => true) old number oldDir
          oldBase newDir newBase room = (s.displace newDir newBase
            ((s.inode old).fileType = .directory)).bind fun r =>
              r.2.casesOn (fun e => some (r.1, .error e)) fun _ =>
                r.1.splice old number oldDir oldBase newDir newBase
                  (decide (s.Reparents old oldDir newDir)) room := by
        unfold displaceAndSplice
        rw [tryDisplace_readable]
        cases s.displace newDir newBase
          ((s.inode old).fileType = .directory) with
        | none => rfl
        | some r =>
          obtain ⟨s₁, r⟩ := r
          cases r with
          | error e => rfl
          | ok u => exact trySplice_readable ..
      by_cases hgoes : s.Reparents old oldDir newDir
      · rw [if_pos hgoes, if_pos (decide_eq_true hgoes), ancestorVerdict,
          if_neg Bool.true_eq_false.mp]
        cases s.ancestorCheck old number maxPathDepth newDir with
        | none => rfl
        | some r =>
          cases r with
          | error e => rfl
          | ok u =>
            dsimp only
            rw [hend]
            cases s.displace newDir newBase
              ((s.inode old).fileType = .directory) with
            | none => rfl
            | some r =>
              obtain ⟨s₁, r⟩ := r
              cases r <;> rfl
      · rw [if_neg hgoes, if_neg (fun h => hgoes (of_decide_eq_true h))]
        dsimp only
        rw [hend]
        cases s.displace newDir newBase
          ((s.inode old).fileType = .directory) with
        | none => rfl
        | some r =>
          obtain ⟨s₁, r⟩ := r
          cases r <;> rfl

end DirFs

-- ======== unchanged

namespace DirFs

variable {s s' s'' : DirFs} {dir id : InodeId} {name : Name}
  {number : InodeNumber} {room : Bool} {io : Nat → Bool}

/-- The entries and the link counts are as before; an inode that was free
still has none. -/
structure Untouched (s s' : DirFs) : Prop where
  old : ∀ id, s.used id = true ∨ s'.used id = false →
    (s'.inode id).entries = (s.inode id).entries ∧
      (s'.inode id).linkCount = (s.inode id).linkCount
  new : ∀ id, s.used id = false → s'.used id = true →
    (s'.inode id).entries = [] ∧ (s'.inode id).linkCount = 0#8

theorem Untouched.refl (s : DirFs) : Untouched s s where
  old _ _ := ⟨rfl, rfl⟩
  new id hfree hused := by
    rw [hfree] at hused
    cases hused

theorem Untouched.entries (h : Untouched s s') (hused : s'.used = s.used)
    (id : InodeId) : (s'.inode id).entries = (s.inode id).entries := by
  apply (h.old id _).1
  rw [hused]
  cases s.used id with
  | true => exact .inl rfl
  | false => exact .inr rfl

end DirFs

-- ======== single entries

namespace TreeInode

variable {inode inode' : TreeInode} {name m : Name} {c x : InodeNumber}
  {room : Bool}

def liveCount (inode : TreeInode) : Nat :=
  inode.entries.countP (·.inodeNumber ≠ 0#16)

theorem liveCount_removeEntry (h : inode.removeEntry name = some inode') :
    inode'.liveCount + 1 = inode.liveCount := by
  obtain ⟨a, e, b, hentries, hname, -, rfl⟩ := removeEntry_cases h
  have hlive : e.inodeNumber ≠ 0#16 := by
    simp only [hasName, decide_eq_true_eq] at hname
    exact hname.1
  unfold liveCount
  rw [hentries]
  simp only [List.countP_append, List.countP_cons, List.countP_nil,
    decide_eq_true_eq, ne_eq, not_true_eq_false, if_false, hlive,
    not_false_eq_true, if_true]
  omega

/-- Another number is named as often as before. -/
theorem names_removeEntry_of_ne (h : inode.removeEntry name = some inode')
    (hx : x ≠ 0#16) (hf : inode.find name ≠ some x) :
    inode'.names x = inode.names x := by
  obtain ⟨a, e, b, hentries, hname, hfirst, rfl⟩ := removeEntry_cases h
  have hfind : inode.find name = some e.inodeNumber := by
    rw [find_eq, hentries, List.append_assoc, List.findSome?_append]
    have hnone : a.findSome? (entryFor name) = none := by
      rw [List.findSome?_eq_none_iff]
      intro z hz
      cases hz' : entryFor name z with
      | none => rfl
      | some n =>
        have := (entryFor_eq_some.mp hz').1
        rw [hfirst z hz] at this
        cases this
    rw [hnone, List.singleton_append, List.findSome?_cons,
      entryFor_eq_some.mpr ⟨hname, rfl⟩]
    rfl
  have hne : e.inodeNumber ≠ x := by
    intro heq
    rw [hfind, heq] at hf
    exact hf rfl
  unfold names
  rw [hentries]
  simp [List.countP_append, hne, hx.symm]

theorem find_removeEntry_of_ne (h : inode.removeEntry name = some inode')
    (hm : m ≠ name) : inode'.find m = inode.find m := by
  obtain ⟨a, e, b, hentries, hname, -, rfl⟩ := removeEntry_cases h
  have hgap : entryFor m ⟨0#16, []⟩ = none := by simp [entryFor]
  have hno : entryFor m e = none := by
    cases he : entryFor m e with
    | none => rfl
    | some n =>
      have hown := (entryFor_eq_some.mp he).1
      simp only [hasName, decide_eq_true_eq] at hown hname
      exact absurd (hown.2.symm.trans hname.2) hm
  rw [find_eq, find_eq, hentries]
  simp [List.findSome?_append, hgap, hno]

theorem find_addEntry_of_ne (h : inode.addEntry name c room = some inode')
    (hm : m ≠ name) : inode'.find m = inode.find m := by
  obtain ⟨a, hole, b, hentries, hhole, -, rfl⟩ := addEntry_cases h
  have hno : entryFor m ⟨c, name⟩ = none := by
    simp [entryFor, Ne.symm hm]
  rw [find_eq, find_eq, hentries]
  simp [List.findSome?_append, findSome_hole hhole, hno]

theorem hole_of_removeEntry (h : inode.removeEntry name = some inode') :
    ∃ e ∈ inode'.entries, e.inodeNumber = 0#16 := by
  obtain ⟨a, e, b, -, -, -, rfl⟩ := removeEntry_cases h
  exact ⟨⟨0#16, []⟩, by simp, rfl⟩

theorem addEntry_of_hole {e : DirectoryEntry} (he : e ∈ inode.entries)
    (hzero : e.inodeNumber = 0#16) (m : Name) (c : InodeNumber) (room : Bool) :
    inode.addEntry m c room ≠ none := by
  unfold addEntry
  split
  next slot _ => exact nofun
  next hnone =>
    have hno := List.findIdx?_eq_none_iff.mp hnone e he
    rw [hzero] at hno
    cases hno

theorem find_of_removeEntry (h : inode.removeEntry name = some inode') :
    inode.find name ≠ none := by
  intro hnone
  obtain ⟨a, e, b, hentries, hname, -, -⟩ := removeEntry_cases h
  have hzero := List.countP_eq_zero.mp (countP_of_find_none hnone) e
    (by rw [hentries]; simp)
  exact hzero hname

end TreeInode

-- ======== single edits

namespace DirFs

variable {s s' s'' : DirFs} {dir id : InodeId} {name : Name}
  {number : InodeNumber} {room : Bool} {io : Nat → Bool}

/-- One directory has other entries, and nothing else differs. -/
structure Edits (s s' : DirFs) (dir : InodeId) (i : TreeInode) : Prop where
  here : (s'.inode dir).entries = i.entries
  rest : ∀ p, p ≠ dir → (s'.inode p).entries = (s.inode p).entries
  used : s'.used = s.used

theorem setLinks_entries (s : DirFs) (a : InodeId) (v : BitVec 8)
    (p : InodeId) : ((s.setLinks a v).inode p).entries = (s.inode p).entries := by
  by_cases hp : p = a
  · rw [hp, setLinks_self]
  · rw [setLinks_of_ne hp]

theorem edits_setInode (s : DirFs) (dir : InodeId) (i : TreeInode) :
    Edits s (s.setInode dir i) dir i :=
  ⟨by rw [setInode_self], fun p hp => by rw [setInode_of_ne hp], rfl⟩

theorem Edits.setLinks {i : TreeInode} (h : Edits s s' dir i) (a : InodeId)
    (v : BitVec 8) : Edits s (s'.setLinks a v) dir i where
  here := (setLinks_entries ..).trans h.here
  rest p hp := (setLinks_entries ..).trans (h.rest p hp)
  used := h.used

theorem find_congr {i j : TreeInode} (h : i.entries = j.entries) (m : Name) :
    i.find m = j.find m := by
  unfold TreeInode.find
  rw [h]

theorem names_congr {i j : TreeInode} (h : i.entries = j.entries)
    (x : InodeNumber) : i.names x = j.names x := by
  unfold TreeInode.names
  rw [h]

theorem liveCount_congr {i j : TreeInode} (h : i.entries = j.entries) :
    i.liveCount = j.liveCount := by
  unfold TreeInode.liveCount
  rw [h]

theorem tryAddEntry_ok {io : Bool}
    (h : s.tryAddEntry io dir name number room = .ok s') :
    io = true ∧ ∃ i, (s.inode dir).addEntry name number room = some i ∧
      Edits s s' dir i := by
  unfold tryAddEntry at h
  split at h
  next => cases h
  next hio =>
    refine ⟨by simpa using hio, ?_⟩
    split at h
    next s₁ hadd =>
      cases h
      obtain ⟨i, hi, rfl⟩ := Option.map_eq_some_iff.mp hadd
      exact ⟨i, hi, edits_setInode ..⟩
    next => cases h

theorem tryAddEntry_error {io : Bool} {e : FsErrno}
    (h : s.tryAddEntry io dir name number room = .error e) :
    io = false ∨ (s.inode dir).addEntry name number room = none := by
  unfold tryAddEntry at h
  split at h
  next hio => exact .inl hio
  next =>
    split at h
    next => cases h
    next hadd => exact .inr (Option.map_eq_none_iff.mp hadd)

theorem tryRemoveEntry_ok {io : Bool}
    (h : s.tryRemoveEntry io dir name = .ok s') :
    io = true ∧ ∃ i, (s.inode dir).removeEntry name = some i ∧
      Edits s s' dir i := by
  unfold tryRemoveEntry at h
  split at h
  next => cases h
  next hio =>
    refine ⟨by simpa using hio, ?_⟩
    split at h
    next s₁ hrem =>
      cases h
      obtain ⟨i, hi, rfl⟩ := Option.map_eq_some_iff.mp hrem
      exact ⟨i, hi, edits_setInode ..⟩
    next => cases h

theorem tryRemoveEntry_error {io : Bool} {e : FsErrno}
    (h : s.tryRemoveEntry io dir name = .error e) :
    io = false ∨ (s.inode dir).find name = none := by
  unfold tryRemoveEntry at h
  split at h
  next hio => exact .inl hio
  next =>
    split at h
    next => cases h
    next hrem =>
      refine .inr ?_
      cases hf : (s.inode dir).find name with
      | none => rfl
      | some n =>
        obtain ⟨i, hi⟩ := TreeInode.removeEntry_isSome hf
        rw [removeEntry, hi] at hrem
        cases hrem

theorem displace_edits {isDir : Bool}
    (h : s.displace dir name isDir = some (s', .ok ())) :
    ((s.inode dir).find name = none ∧ s' = s) ∨
      ∃ i, (s.inode dir).removeEntry name = some i ∧ Edits s s' dir i := by
  rcases displace_ok h with hsame | ⟨n, id, -, -, ⟨-, hdrop⟩ | ⟨-, s₁, v, hrem,
    rfl⟩⟩
  · exact .inl hsame
  · unfold dropDirectory at hdrop
    obtain ⟨s₁, hrem, rfl⟩ := Option.map_eq_some_iff.mp hdrop
    obtain ⟨i, hi, rfl⟩ := Option.map_eq_some_iff.mp hrem
    exact .inr ⟨i, hi, ((edits_setInode s dir i).setLinks _ _).setLinks _ _⟩
  · obtain ⟨i, hi, rfl⟩ := Option.map_eq_some_iff.mp hrem
    exact .inr ⟨i, hi, (edits_setInode s dir i).setLinks _ _⟩

/-- An error displaces nothing; a success leaves the name free. -/
theorem tryDisplace_cases {isDir : Bool} {r : Except FsErrno Unit}
    (h : s.tryDisplace io dir name isDir = some (s', r)) :
    (∃ e, r = .error e ∧ s' = s) ∨ (r = .ok () ∧
      ((s.inode dir).find name = none ∧ s' = s ∨
        ∃ i, (s.inode dir).removeEntry name = some i ∧ Edits s s' dir i)) := by
  have hrefused : ∀ e, some (s, Except.error e) = some (s', r) →
      ∃ e, r = .error e ∧ s' = s := by
    intro e he
    cases he
    exact ⟨e, rfl, rfl⟩
  unfold tryDisplace at h
  split at h
  next => exact .inl (hrefused _ h)
  next =>
    split at h
    next hnone =>
      cases h
      exact .inr ⟨rfl, .inl ⟨hnone, rfl⟩⟩
    next n hf =>
      split at h
      next => cases h
      next id ht =>
        dsimp only at h
        split at h
        next => exact .inl (hrefused _ h)
        next =>
          split at h
          next => exact .inl (hrefused _ h)
          next =>
            split at h
            next => exact .inl (hrefused _ h)
            next =>
              split at h
              next => exact .inl (hrefused _ h)
              next =>
                split at h
                next => exact .inl (hrefused _ h)
                next =>
                  cases r with
                  | error e => exact .inl ⟨e, rfl, displace_error h⟩
                  | ok u => exact .inr ⟨rfl, displace_edits h⟩

theorem tryAddEntry_links {io : Bool}
    (h : s.tryAddEntry io dir name number room = .ok s') (p : InodeId) :
    (s'.inode p).linkCount = (s.inode p).linkCount := by
  unfold tryAddEntry at h
  split at h
  next => cases h
  next =>
    split at h
    next s₁ hadd =>
      cases h
      obtain ⟨i, hi, rfl⟩ := Option.map_eq_some_iff.mp hadd
      by_cases hp : p = dir
      · obtain ⟨a, hole, b, -, -, -, rfl⟩ := TreeInode.addEntry_cases hi
        rw [hp, setInode_self]
      · rw [setInode_of_ne hp]
    next => cases h

-- ======== making new inodes

section Alloc

variable {c : Caller} {fileType : InodeType} {mode : BitVec 12}
  {links : BitVec 8} {fresh : Option InodeNumber} {ok : Bool}

/-- A failed allocation is undone. -/
theorem tryAllocAndLink_error {e : FsErrno}
    (h : s.tryAllocAndLink ok c dir name fileType mode links fresh room
      = some (s', .error e)) : Untouched s s' := by
  unfold tryAllocAndLink at h
  split at h
  next =>
    cases h
    exact .refl s
  next number =>
    dsimp only at h
    split at h
    next => cases h
    next hfree =>
      have hunused : s.used ⟨dir.device, number⟩ = false := by
        cases hu : s.used ⟨dir.device, number⟩ with
        | true => exact absurd (.inl hu) hfree
        | false => rfl
      split at h
      next => cases (Prod.mk.inj (Option.some.inj h)).2
      next e' hadd =>
        cases h
        have hother : ∀ id, id ≠ ⟨dir.device, number⟩ →
            update s.inode ⟨dir.device, number⟩
              (fill c fileType mode links) id = s.inode id :=
          fun id hid => update_of_ne hid _ _
        constructor
        · intro id hid
          have hne : id ≠ ⟨dir.device, number⟩ := by
            intro heq
            subst heq
            rcases hid with hid | hid
            · rw [hunused] at hid
              cases hid
            · exact absurd (update_self ..)
                (by rw [show update s.used _ true _ = false from hid]; simp)
          rw [setLinks_of_ne hne]
          show (update s.inode _ _ id).entries = _ ∧
            (update s.inode _ _ id).linkCount = _
          rw [hother id hne]
          exact ⟨rfl, rfl⟩
        · intro id hno hyes
          have heq : id = ⟨dir.device, number⟩ := by
            by_contra hne
            have hsame : update s.used ⟨dir.device, number⟩ true id
                = s.used id := update_of_ne hne _ _
            rw [show update s.used _ true id = true from hyes, hno]
              at hsame
            cases hsame
          subst heq
          rw [setLinks_self]
          show (update s.inode _ _ _).entries = [] ∧ _
          rw [update_self]
          exact ⟨rfl, rfl⟩

theorem tryAllocAndLink_ok
    (h : s.tryAllocAndLink ok c dir name fileType mode links fresh room
      = some (s', .ok number)) :
    s.used ⟨dir.device, number⟩ = false ∧ s'.used ⟨dir.device, number⟩ = true ∧
      (s'.inode ⟨dir.device, number⟩).linkCount = links := by
  unfold tryAllocAndLink at h
  split at h
  next => cases (Prod.mk.inj (Option.some.inj h)).2
  next n =>
    dsimp only at h
    split at h
    next => cases h
    next hfree =>
      split at h
      next s₁ hadd =>
        obtain ⟨rfl, hnumber⟩ := Prod.mk.inj (Option.some.inj h)
        obtain rfl := Except.ok.inj hnumber
        obtain ⟨-, i, -, hedits⟩ := tryAddEntry_ok hadd
        refine ⟨?_, ?_, ?_⟩
        · cases hu : s.used ⟨dir.device, n⟩ with
          | true => exact absurd (.inl hu) hfree
          | false => rfl
        · rw [hedits.used]
          exact update_self ..
        · rw [tryAddEntry_links hadd]
          show (update s.inode _ _ _).linkCount = links
          rw [update_self]
          rfl
      next => cases (Prod.mk.inj (Option.some.inj h)).2

theorem not_untouched_of_links (hfree : s.used id = false)
    (hused : s'.used id = true) (hlinks : (s'.inode id).linkCount ≠ 0#8) :
    ¬ Untouched s s' :=
  fun h => hlinks (h.new id hfree hused).2

end Alloc

/-- Without its dots the new directory stays allocated, with its links. -/
theorem makeDots_error {own : Bool} {e : FsErrno}
    (h : s.makeDots io dir number own = (s', .error e)) : s'.used = s.used ∧
      (s'.inode ⟨dir.device, number⟩).linkCount
        = (s.inode ⟨dir.device, number⟩).linkCount ∧
      (io 2 = false ∨ io 3 = false ∨ own = false) := by
  unfold makeDots at h
  dsimp only at h
  split at h
  next e' hdot =>
    cases h
    refine ⟨rfl, rfl, ?_⟩
    rcases tryAddEntry_error hdot with hio | hnone
    · exact .inl hio
    · cases own with
      | false => exact .inr (.inr rfl)
      | true =>
        unfold TreeInode.addEntry at hnone
        split at hnone
        next => cases hnone
        next =>
          rw [if_pos (.inl rfl)] at hnone
          cases hnone
  next s₁ hdot =>
    obtain ⟨-, i, -, hedits⟩ := tryAddEntry_ok hdot
    split at h
    next e' hdotdot =>
      cases h
      refine ⟨hedits.used, tryAddEntry_links hdot _, ?_⟩
      rcases tryAddEntry_error hdotdot with hio | hnone
      · exact .inr (.inl hio)
      · cases own with
        | false => exact .inr (.inr rfl)
        | true =>
          unfold TreeInode.addEntry at hnone
          split at hnone
          next => cases hnone
          next =>
            rw [if_pos (.inl rfl)] at hnone
            cases hnone
    next => cases (Prod.mk.inj h).2

-- ======== rename

/-- A rename that goes wrong after its checks, from the state before: the
target was displaced and the entry for the new name is not written; or it
is, and the old name is not removed, or `..` is not rewired. -/
def BreaksOff (s : DirFs) (io : Nat → Bool) (number : InodeNumber)
    (old oldDir newDir : InodeId) (newBase : Name) (room : Bool) : Prop :=
  (io 6 = false ∧ (s.inode newDir).find newBase ≠ none) ∨ (io 6 = true ∧
      ((s.inode newDir).find newBase ≠ none ∨
        (s.inode newDir).addEntry newBase number room ≠ none) ∧
      (io 7 = false ∨ s.Reparents old oldDir newDir ∧
        (io 8 = false ∨ (s.inode old).find dotdot = none ∨ io 9 = false)))

section Splice

variable {s₁ : DirFs} {old oldDir newDir : InodeId} {oldBase newBase : Name}
  {e : FsErrno}

/-- The new name was free, or its entry has been removed. -/
def Cleared (s s₁ : DirFs) (newDir : InodeId) (newBase : Name) : Prop :=
  (s.inode newDir).find newBase = none ∧ s₁ = s ∨
    ∃ i, (s.inode newDir).removeEntry newBase = some i ∧ Edits s s₁ newDir i

theorem Cleared.used (h : Cleared s s₁ newDir newBase) : s₁.used = s.used := by
  rcases h with ⟨-, rfl⟩ | ⟨i, -, hedits⟩
  · rfl
  · exact hedits.used

theorem Cleared.find (h : Cleared s s₁ newDir newBase) {m : Name}
    {p : InodeId} (hm : p = newDir → m ≠ newBase) :
    (s₁.inode p).find m = (s.inode p).find m := by
  rcases h with ⟨-, rfl⟩ | ⟨i, hrem, hedits⟩
  · rfl
  · by_cases hp : p = newDir
    · subst hp
      rw [find_congr hedits.here, TreeInode.find_removeEntry_of_ne hrem (hm rfl)]
    · exact find_congr (hedits.rest p hp) m

theorem Cleared.names (h : Cleared s s₁ newDir newBase)
    (hother : (s.inode newDir).find newBase ≠ some number)
    (hzero : number ≠ 0#16) :
    (s₁.inode newDir).names number = (s.inode newDir).names number := by
  rcases h with ⟨-, rfl⟩ | ⟨i, hrem, hedits⟩
  · rfl
  · rw [names_congr hedits.here,
      TreeInode.names_removeEntry_of_ne hrem hzero hother]

/-- A `rename` whose new entry fails is harmless unless it displaced
something. -/
theorem splice_unadded (hcleared : Cleared s s₁ newDir newBase)
    (hadd : s₁.tryAddEntry (io 6) newDir newBase number room = .error e) :
    Untouched s s₁ ↔ ¬ s.BreaksOff io number old oldDir newDir newBase room := by
  rcases hcleared with ⟨hnone, rfl⟩ | ⟨i, hrem, hedits⟩
  · refine ⟨fun _ hbreaks => ?_, fun _ => .refl _⟩
    rcases hbreaks with ⟨-, hsome⟩ | ⟨hio, hroom, -⟩
    · exact hsome hnone
    · rcases tryAddEntry_error hadd with hfalse | hfull
      · rw [hio] at hfalse
        cases hfalse
      · rcases hroom with hsome | hroom
        · exact hsome hnone
        · exact hroom hfull
  · have hio : io 6 = false := by
      rcases tryAddEntry_error hadd with hfalse | hfull
      · exact hfalse
      · obtain ⟨z, hz, hzero⟩ := TreeInode.hole_of_removeEntry hrem
        rw [← hedits.here] at hz
        exact absurd hfull (TreeInode.addEntry_of_hole hz hzero _ _ _)
    constructor
    · intro hsame
      have hlive := TreeInode.liveCount_removeEntry hrem
      have hcongr := liveCount_congr (hedits.here.symm.trans
        (hsame.entries hedits.used newDir))
      omega
    · intro hno
      exact absurd (.inl ⟨hio, TreeInode.find_of_removeEntry hrem⟩) hno

theorem splice_added (hcleared : Cleared s s₁ newDir newBase)
    (hother : (s.inode newDir).find newBase ≠ some number)
    (hzero : number ≠ 0#16) {i : TreeInode}
    (hadd : (s₁.inode newDir).addEntry newBase number room = some i)
    (hhere : (s'.inode newDir).entries = i.entries)
    (hused : s'.used = s.used) : ¬ Untouched s s' := by
  intro hsame
  have hmore := TreeInode.names_addEntry hadd hzero
  rw [if_pos rfl, hcleared.names hother hzero] at hmore
  have hcongr := names_congr (hhere.symm.trans (hsame.entries hused newDir))
    number
  omega

theorem Cleared.roomy (h : Cleared s s₁ newDir newBase) {i : TreeInode}
    (hadd : (s₁.inode newDir).addEntry newBase number room = some i) :
    (s.inode newDir).find newBase ≠ none ∨
      (s.inode newDir).addEntry newBase number room ≠ none := by
  rcases h with ⟨-, rfl⟩ | ⟨j, hrem, -⟩
  · refine .inr ?_
    rw [hadd]
    exact nofun
  · exact .inl (TreeInode.find_of_removeEntry hrem)

/-- A failed rename changes nothing unless it breaks off half way. -/
theorem trySplice_error (hcleared : Cleared s s₁ newDir newBase)
    (hother : (s.inode newDir).find newBase ≠ some number)
    (hfound : (s.inode oldDir).find oldBase = some number)
    (hself : oldDir = newDir → oldBase ≠ newBase)
    (hold : oldBase ≠ dotdot) (hnew : newBase ≠ dotdot)
    (hsplice : s₁.trySplice io old number oldDir oldBase newDir newBase room
      (s.Reparents old oldDir newDir) = (s', .error e)) :
    Untouched s s' ↔ ¬ s.BreaksOff io number old oldDir newDir newBase room := by
  have hzero := TreeInode.ne_zero_of_find hfound
  unfold trySplice at hsplice
  split at hsplice
  next e' hadd =>
    obtain ⟨rfl, -⟩ := Prod.mk.inj hsplice
    exact splice_unadded hcleared hadd
  next s₂ hadd =>
    obtain ⟨hio, i, hi, hedits⟩ := tryAddEntry_ok hadd
    have hroom := hcleared.roomy hi
    have hused := hedits.used.trans hcleared.used
    -- both sides are decided from here on: the new entry is there
    have hiff : ∀ t, ¬ Untouched s t → (io 7 = false ∨
        s.Reparents old oldDir newDir ∧ (io 8 = false ∨
          (s.inode old).find dotdot = none ∨ io 9 = false)) →
        (Untouched s t ↔
          ¬ s.BreaksOff io number old oldDir newDir newBase room) :=
      fun t hno hcause => ⟨fun h => absurd h hno,
        fun h => absurd (.inr ⟨hio, hroom, hcause⟩) h⟩
    split at hsplice
    next e' hrem =>
      obtain ⟨rfl, -⟩ := Prod.mk.inj hsplice
      apply hiff _ (splice_added hcleared hother hzero hi hedits.here hused)
      rcases tryRemoveEntry_error hrem with hfalse | hnone
      · exact .inl hfalse
      · -- the old name is still there
        have hkept : (s₂.inode oldDir).find oldBase = some number := by
          rw [← hfound, ← hcleared.find fun heq => hself heq]
          by_cases hp : oldDir = newDir
          · subst hp
            rw [find_congr hedits.here,
              TreeInode.find_addEntry_of_ne hi (hself rfl)]
          · exact find_congr (hedits.rest _ hp) _
        rw [hkept] at hnone
        cases hnone
    next s₃ hrem =>
      obtain ⟨-, j, hj, hedits'⟩ := tryRemoveEntry_ok hrem
      split at hsplice
      next hmoves =>
        have hdirs : oldDir ≠ newDir := by
          intro heq
          rw [heq] at hmoves
          exact hmoves.2 rfl
        have hbefore : (s₂.inode oldDir).entries = (s.inode oldDir).entries := by
          rw [hedits.rest _ hdirs]
          rcases hcleared with ⟨-, rfl⟩ | ⟨k, -, hcut⟩
          · rfl
          · exact hcut.rest _ hdirs
        have hless := TreeInode.liveCount_removeEntry hj
        rw [liveCount_congr hbefore] at hless
        -- the old directory has lost an entry
        have hlost : ∀ t : DirFs, t.used = s₃.used →
            (t.inode oldDir).liveCount ≤ j.liveCount → ¬ Untouched s t := by
          intro t htused hle hsame
          have hall := hsame.entries
            (htused.trans (hedits'.used.trans hused)) oldDir
          rw [liveCount_congr hall] at hle
          omega
        unfold tryRewire at hsplice
        split at hsplice
        next e' hup =>
          obtain ⟨rfl, -⟩ := Prod.mk.inj hsplice
          apply hiff _ (hlost _ rfl (Nat.le_of_eq
            (liveCount_congr hedits'.here)))
          refine .inr ⟨hmoves, ?_⟩
          rcases tryRemoveEntry_error hup with hfalse | hnone
          · exact .inl hfalse
          · refine .inr (.inl ?_)
            rw [← hnone]
            have h₁ : (s.inode old).find dotdot = (s₁.inode old).find dotdot :=
              (hcleared.find fun _ => Ne.symm hnew).symm
            have h₂ : (s₁.inode old).find dotdot
                = (s₂.inode old).find dotdot := by
              by_cases hp : old = newDir
              · subst hp
                rw [find_congr hedits.here,
                  TreeInode.find_addEntry_of_ne hi (Ne.symm hnew)]
              · exact (find_congr (hedits.rest _ hp) _).symm
            have h₃ : (s₂.inode old).find dotdot
                = (s₃.inode old).find dotdot := by
              by_cases hp : old = oldDir
              · subst hp
                rw [find_congr hedits'.here,
                  TreeInode.find_removeEntry_of_ne hj (Ne.symm hold)]
              · exact (find_congr (hedits'.rest _ hp) _).symm
            exact h₁.trans (h₂.trans h₃)
        next s₄ hup =>
          obtain ⟨-, k, hk, hedits''⟩ := tryRemoveEntry_ok hup
          split at hsplice
          next e' hdown =>
            obtain ⟨rfl, -⟩ := Prod.mk.inj hsplice
            have hfalse : io 9 = false := by
              rcases tryAddEntry_error hdown with hfalse | hfull
              · exact hfalse
              · obtain ⟨z, hz, hzz⟩ := TreeInode.hole_of_removeEntry hk
                rw [← hedits''.here] at hz
                exact absurd hfull (TreeInode.addEntry_of_hole hz hzz _ _ _)
            refine hiff _ (hlost _ hedits''.used ?_)
              (.inr ⟨hmoves, .inr (.inr hfalse)⟩)
            by_cases hp : oldDir = old
            · subst hp
              have hcut := TreeInode.liveCount_removeEntry hk
              rw [liveCount_congr hedits'.here] at hcut
              rw [liveCount_congr hedits''.here]
              omega
            · rw [liveCount_congr (hedits''.rest _ hp),
                liveCount_congr hedits'.here]
          next => cases (Prod.mk.inj hsplice).2
      next => cases (Prod.mk.inj hsplice).2

end Splice

theorem ancestorVerdict_go {ok : Bool} {old newDir o : InodeId}
    {n : InodeNumber}
    (h : s.ancestorVerdict ok n o newDir = some (.go number old)) :
    RenameVerdict.go n o = .go number old := by
  unfold ancestorVerdict at h
  split at h
  next => cases h
  next =>
    cases hcheck : s.ancestorCheck o n maxPathDepth newDir with
    | none =>
      rw [hcheck] at h
      cases h
    | some r =>
      rw [hcheck] at h
      cases r with
      | error e => cases h
      | ok u => exact Option.some.inj h

theorem guard_passed {A : Type} {p : Prop} [Decidable p] {x y r : A}
    (h : (if p then x else y) = r) (hx : x ≠ r) : ¬ p ∧ y = r := by
  split at h
  next => exact absurd h hx
  next hp => exact ⟨hp, h⟩

/-- What the checks have found out when `rename` goes on. -/
theorem renameChecks_go {c : Caller} {old oldDir newDir : InodeId}
    {oldBase newBase : Name}
    (h : s.renameChecks io c oldDir oldBase newDir newBase
      = some (.go number old)) :
    (s.inode oldDir).find oldBase = some number ∧
      (s.inode newDir).find newBase ≠ some number ∧
      (oldDir = newDir → oldBase ≠ newBase) ∧ oldBase ≠ dotdot ∧
      newBase ≠ dotdot := by
  have hrefused (e : FsErrno) :
      some (RenameVerdict.refused e) ≠ some (.go number old) := by simp
  have hdone : some RenameVerdict.done ≠ some (.go number old) := by simp
  obtain ⟨-, h⟩ := guard_passed h (hrefused _)
  obtain ⟨hob, h⟩ := guard_passed h (hrefused _)
  obtain ⟨-, h⟩ := guard_passed h (hrefused _)
  obtain ⟨hnb, h⟩ := guard_passed h (hrefused _)
  obtain ⟨-, h⟩ := guard_passed h (hrefused _)
  obtain ⟨-, h⟩ := guard_passed h (hrefused _)
  obtain ⟨-, h⟩ := guard_passed h (hrefused _)
  cases hf : (s.inode oldDir).find oldBase with
  | none =>
    rw [hf] at h
    exact absurd h (hrefused _)
  | some n =>
    rw [hf] at h
    dsimp only at h
    cases ht : s.target oldDir n with
    | none =>
      rw [ht] at h
      cases h
    | some o =>
      rw [ht] at h
      obtain ⟨hself, h⟩ := guard_passed h hdone
      obtain ⟨-, h⟩ := guard_passed h (hrefused _)
      obtain ⟨hother, h⟩ := guard_passed h hdone
      have hgo : (RenameVerdict.go n o) = .go number old := by
        split at h
        next => exact ancestorVerdict_go h
        next => exact Option.some.inj h
      obtain ⟨rfl, rfl⟩ := RenameVerdict.go.inj hgo
      refine ⟨rfl, hother, fun heq hbase => ?_, (proper_of_not_bad hob).2,
        (proper_of_not_bad hnb).2⟩
      exact hself ⟨by rw [heq], hbase⟩

-- ======== the result

/-- The calls that have changed the directories when they fail: `mkdir`
after the new directory has its name, when it does not get its own block or
its entries; `creat` when there is no descriptor for the file it has made;
and a `rename` that breaks off after its checks. -/
def Spoils (s : DirFs) (io : Nat → Bool) : MakeOp → Prop
  | .mkdir c dir base mode fresh room own =>
    s.nameRefused (io 0) c dir base = none ∧
    (∃ s₁ number, s.tryAllocAndLink (io 1) c dir base .directory mode 2#8
      fresh room = some (s₁, .ok number)) ∧
    (io 2 = false ∨ io 3 = false ∨ own = false)
  | .creat c dir base mode fresh room descriptor =>
    s.creatRefused (io 0) c dir base = none ∧
    (s.inode dir).find base = none ∧ s.allowed c dir mayWrite = true ∧
    (∃ s₁ number, s.tryAllocAndLink (io 1) c dir base .regular mode 1#8
      fresh room = some (s₁, .ok number)) ∧ descriptor = false
  | .rename c oldDir oldBase newDir newBase room =>
    ∃ number old, s.renameChecks io c oldDir oldBase newDir newBase
        = some (.go number old) ∧
      (∃ s₁, s.tryDisplace io newDir newBase
        ((s.inode old).fileType = .directory) = some (s₁, .ok ())) ∧
      s.BreaksOff io number old oldDir newDir newBase room
  | .mknod _ _ _ _ _ _ _ => False
  | .link _ _ _ _ _ _ => False

theorem made_error {answer : Answer Unit} {e : MakeErrno}
    (h : made answer = some (s', .error e)) :
    ∃ e', answer = some (s', .error e') := by
  obtain ⟨⟨t, r⟩, hanswer, heq⟩ := Option.map_eq_some_iff.mp h
  obtain ⟨rfl, hr⟩ := Prod.mk.inj heq
  cases r with
  | error e' => exact ⟨e', hanswer⟩
  | ok u => cases hr

theorem untouched_iff_of_not {P : Prop} (h : Untouched s s') (hno : ¬ P) :
    Untouched s s' ↔ ¬ P :=
  ⟨fun _ => hno, fun _ => h⟩

variable {c : Caller} {base : Name} {mode : BitVec 12}
  {fresh : Option InodeNumber} {own : Bool} {e : FsErrno}

/-- A failed `mkdir` leaves no trace unless it fails behind the new entry. -/
theorem mkdirCall_error
    (h : s.mkdirCall io c dir base mode fresh room own = some (s', .error e)) :
    Untouched s s' ↔
      ¬ s.Spoils io (.mkdir c dir base mode fresh room own) := by
  unfold mkdirCall at h
  split at h
  next e' hrefused =>
    cases h
    refine untouched_iff_of_not (.refl _) fun hspoils => ?_
    rw [hspoils.1] at hrefused
    cases hrefused
  next hrefused =>
    split at h
    next => cases h
    next s₁ e' halloc =>
      cases h
      refine untouched_iff_of_not (tryAllocAndLink_error halloc) fun hspoils => ?_
      obtain ⟨-, ⟨s₂, number, hok⟩, -⟩ := hspoils
      rw [halloc] at hok
      cases hok
    next s₁ number halloc =>
      obtain ⟨hfree, hused, hlinks⟩ := tryAllocAndLink_ok halloc
      obtain ⟨hsame, hcount, hcause⟩ := makeDots_error (Option.some.inj h)
      constructor
      · intro hun
        refine absurd hun (not_untouched_of_links hfree ?_ ?_)
        · rw [hsame]
          exact hused
        · rw [hcount, hlinks]
          decide
      · intro hno
        exact absurd ⟨hrefused, ⟨s₁, number, halloc⟩, hcause⟩ hno

/-- A node that cannot be made leaves nothing. -/
theorem mknodCall_error {fileType : InodeType}
    (h : s.mknodCall io c dir base fileType mode fresh room
      = some (s', .error e)) : Untouched s s' := by
  unfold mknodCall at h
  split at h
  next =>
    cases h
    exact .refl _
  next =>
    split at h
    next =>
      cases h
      exact .refl _
    next =>
      split at h
      next =>
        cases h
        exact .refl _
      next =>
        split at h
        next => cases h
        next s₁ e' halloc =>
          cases h
          exact tryAllocAndLink_error halloc
        next => cases (Prod.mk.inj (Option.some.inj h)).2

/-- A failed `creat` leaves no trace unless only the descriptor is missing. -/
theorem creatCall_error {descriptor : Bool} {e : MakeErrno}
    (h : s.creatCall io c dir base mode fresh room descriptor
      = some (s', .error e)) :
    Untouched s s' ↔
      ¬ s.Spoils io (.creat c dir base mode fresh room descriptor) := by
  unfold creatCall at h
  split at h
  next e' hrefused =>
    obtain ⟨rfl, -⟩ := Prod.mk.inj (Option.some.inj h)
    refine untouched_iff_of_not (.refl _) fun hspoils => ?_
    rw [hspoils.1] at hrefused
    cases hrefused
  next hrefused =>
    split at h
    next hnone =>
      split at h
      next hdenied =>
        obtain ⟨rfl, -⟩ := Prod.mk.inj (Option.some.inj h)
        refine untouched_iff_of_not (.refl _) fun hspoils => ?_
        rw [hspoils.2.2.1] at hdenied
        cases hdenied
      next hallowed =>
        split at h
        next => cases h
        next s₁ e' halloc =>
          obtain ⟨rfl, -⟩ := Prod.mk.inj (Option.some.inj h)
          refine untouched_iff_of_not (tryAllocAndLink_error halloc)
            fun hspoils => ?_
          obtain ⟨-, -, -, ⟨s₂, number, hok⟩, -⟩ := hspoils
          rw [halloc] at hok
          cases hok
        next s₁ number halloc =>
          obtain ⟨hfree, hused, hlinks⟩ := tryAllocAndLink_ok halloc
          unfold openResult at h
          split at h
          next => cases (Prod.mk.inj (Option.some.inj h)).2
          next hfull =>
            obtain ⟨rfl, -⟩ := Prod.mk.inj (Option.some.inj h)
            constructor
            · intro hun
              refine absurd hun (not_untouched_of_links hfree hused ?_)
              rw [hlinks]
              decide
            · intro hno
              exact absurd ⟨hrefused, hnone, by simpa using hallowed,
                ⟨s₁, number, halloc⟩, by simpa using hfull⟩ hno
    next number hsome =>
      have hsame : s' = s := by
        split at h
        next => cases h
        next id ht =>
          split at h
          next => exact (Prod.mk.inj (Option.some.inj h)).1.symm
          next =>
            unfold openResult at h
            split at h
            next => exact (Prod.mk.inj (Option.some.inj h)).1.symm
            next => exact (Prod.mk.inj (Option.some.inj h)).1.symm
      subst hsame
      refine untouched_iff_of_not (.refl _) fun hspoils => ?_
      rw [hspoils.2.1] at hsome
      cases hsome

/-- A link that fails changes nothing. -/
theorem linkCall_error {oldDir : InodeId} {oldBase : Name}
    (h : s.linkCall io c oldDir oldBase dir base room = some (s', .error e)) :
    Untouched s s' := by
  have hsame : s' = s := by
    by_contra hne
    have hfail (e' : FsErrno) :
        (some (s, .error e') : Answer Unit) ≠ some (s', .error e) :=
      fun h => hne (Prod.mk.inj (Option.some.inj h)).1.symm
    replace h := (guard_passed h (hfail _)).2
    replace h := (guard_passed h (hfail _)).2
    replace h := (guard_passed h (hfail _)).2
    cases hf : (s.inode oldDir).find oldBase with
    | none =>
      rw [hf] at h
      exact hfail _ h
    | some number =>
      rw [hf] at h
      dsimp only at h
      cases ht : s.target oldDir number with
      | none =>
        rw [ht] at h
        cases h
      | some old =>
        rw [ht] at h
        replace h := (guard_passed h (hfail _)).2
        replace h := (guard_passed h (hfail _)).2
        replace h := (guard_passed h (hfail _)).2
        replace h := (guard_passed h (hfail _)).2
        replace h := (guard_passed h (hfail _)).2
        replace h := (guard_passed h (hfail _)).2
        cases hadd : s.tryAddEntry (io 2) dir base old.inodeNumber room with
        | error e' =>
          rw [hadd] at h
          exact hfail _ h
        | ok s₁ =>
          rw [hadd] at h
          cases h
  subst hsame
  exact .refl _

/-- A failed `rename` leaves no trace unless it breaks off in the middle. -/
theorem renameCall_error {oldDir newDir : InodeId} {oldBase newBase : Name}
    (h : s.renameCall io c oldDir oldBase newDir newBase room
      = some (s', .error e)) :
    Untouched s s' ↔
      ¬ s.Spoils io (.rename c oldDir oldBase newDir newBase room) := by
  unfold renameCall at h
  split at h
  next => cases h
  next e' hchecks =>
    cases h
    refine untouched_iff_of_not (.refl _) fun hspoils => ?_
    obtain ⟨number, old, hgo, -⟩ := hspoils
    rw [hchecks] at hgo
    cases hgo
  next => cases (Prod.mk.inj (Option.some.inj h)).2
  next number old hchecks =>
    obtain ⟨hfound, hother, hself, hold, hnew⟩ := renameChecks_go hchecks
    unfold displaceAndSplice at h
    split at h
    next => cases h
    next s₁ e' hdis =>
      cases h
      rcases tryDisplace_cases hdis with ⟨_, -, rfl⟩ | ⟨hr, -⟩
      · refine untouched_iff_of_not (.refl _) fun hspoils => ?_
        obtain ⟨number', old', hgo, ⟨s₂, hok⟩, -⟩ := hspoils
        rw [hchecks] at hgo
        obtain ⟨rfl, rfl⟩ := RenameVerdict.go.inj (Option.some.inj hgo)
        rw [hdis] at hok
        cases hok
      · cases hr
    next s₁ hdis =>
      rcases tryDisplace_cases hdis with ⟨_, hr, -⟩ | ⟨-, hcleared⟩
      · cases hr
      · have hiff := trySplice_error hcleared hother hfound hself hold hnew
          (Option.some.inj h)
        rw [hiff, not_iff_not]
        constructor
        · intro hbreaks
          exact ⟨number, old, hchecks, ⟨s₁, hdis⟩, hbreaks⟩
        · intro hspoils
          obtain ⟨number', old', hgo, -, hbreaks⟩ := hspoils
          rw [hchecks] at hgo
          obtain ⟨rfl, rfl⟩ := RenameVerdict.go.inj (Option.some.inj hgo)
          exact hbreaks

end DirFs

/-- In every state and for every arguments, a call of `mkdir`, `mknod`,
`creat`, `link` or `rename` that fails leaves the entries and link counts of
all directories as they were exactly when it does not spoil them. -/
theorem failed_make_untouched_iff {s s' : DirFs} {io : Nat → Bool}
    {op : MakeOp} {e : MakeErrno} (h : s.make io op = some (s', .error e)) :
    DirFs.Untouched s s' ↔ ¬ s.Spoils io op := by
  cases op with
  | mkdir c dir base mode fresh room own =>
    obtain ⟨e', hcall⟩ := DirFs.made_error h
    exact DirFs.mkdirCall_error hcall
  | mknod c dir base fileType mode fresh room =>
    obtain ⟨e', hcall⟩ := DirFs.made_error h
    exact DirFs.untouched_iff_of_not (DirFs.mknodCall_error hcall) id
  | creat c dir base mode fresh room descriptor =>
    exact DirFs.creatCall_error h
  | link c oldDir oldBase dir base room =>
    obtain ⟨e', hcall⟩ := DirFs.made_error h
    exact DirFs.untouched_iff_of_not (DirFs.linkCall_error hcall) id
  | rename c oldDir oldBase newDir newBase room =>
    obtain ⟨e', hcall⟩ := DirFs.made_error h
    exact DirFs.renameCall_error hcall

/-- A `mkdir` in the root directory, on a disk with one more zone for the
root directory and none for the new one. -/
def MakeOp.halfMkdir : MakeOp :=
  .mkdir DirFs.superuser (DirFs.place 1) ['a'] 0o777#12 (some 2#16) true false

/-- The theorem at that call. -/
theorem failed_make_untouched_iff_mkdir :
    ∃ s', (DirFs.line 1).make (fun _ => true) .halfMkdir
        = some (s', .error (.fs .error)) ∧
      (DirFs.Untouched (DirFs.line 1) s' ↔
        ¬ (DirFs.line 1).Spoils (fun _ => true) .halfMkdir) :=
  ⟨_, rfl, failed_make_untouched_iff rfl⟩

/-- It fails and leaves the name of a directory that has no dots. -/
theorem failed_mkdir_leaves_directory :
    ∃ s', (DirFs.line 1).make (fun _ => true) .halfMkdir
        = some (s', .error (.fs .error)) ∧
      (s'.inode (DirFs.place 1)).find ['a'] = some 2#16 ∧
      (s'.inode (DirFs.place 2)).entries = [] ∧
      (s'.inode (DirFs.place 2)).linkCount = 2#8 ∧
      ¬ DirFs.Untouched (DirFs.line 1) s' := by
  refine ⟨_, rfl, by decide, by decide, by decide, fun h => ?_⟩
  have hlinks := (h.new (DirFs.place 2) (by decide) (by decide)).2
  exact absurd hlinks (by decide)

end LinuxRs.Fs
