/-
`execve` (kernel/src/syscall/handler/process/exec.rs), as far as it decides
about the image and its arguments.

# What is a parameter

The file system gives the program of a path (`Machine.resolve`): whether it
may be executed, its first block and its size. A path that ends in a
character of several bytes names none: `Pathname::parent_path` cuts through
that character and panics (`Machine.cut`). Allocations and page faults
are up to the machine as well. Everything that `execve` computes from these
and from the caller's memory is here; what it resets in the task, such as
signal handlers and descriptors, no argument depends on.

# The interpreter line

Lines are byte slices of the first block. `str::trim` removes characters
with the White_Space property, of one, two or three bytes.
-/
import LinuxRs.Exec.Tables
import LinuxRs.Fs.RawNames

namespace LinuxRs.Exec

open LinuxRs.Lib

-- ======== programs

/-- What `execve` reads of an executable: the effective ids that
`check_exec_permission` grants, what `read_at` finds in the first block, and
the size of the file. -/
structure Program where
  permission : Option (BitVec 16 × BitVec 16)
  firstBlock : Option (List Byte)
  size : BitVec 32

def blockSize : Nat := 1024

/-- The block that `read_at` has filled in from the start. -/
def blockOf (bytes : List Byte) : List Byte :=
  (bytes ++ List.replicate blockSize 0#8).take blockSize

structure AoutHeader where
  aMagic : BitVec 32
  aText : BitVec 32
  aData : BitVec 32
  aBss : BitVec 32
  aSyms : BitVec 32
  aEntry : BitVec 32
  aTrsize : BitVec 32
  aDrsize : BitVec 32

namespace AoutHeader

def fromBlock (block : List Byte) : AoutHeader where
  aMagic := ofLeBytes32 block
  aText := ofLeBytes32 (block.drop 4)
  aData := ofLeBytes32 (block.drop 8)
  aBss := ofLeBytes32 (block.drop 12)
  aSyms := ofLeBytes32 (block.drop 16)
  aEntry := ofLeBytes32 (block.drop 20)
  aTrsize := ofLeBytes32 (block.drop 24)
  aDrsize := ofLeBytes32 (block.drop 28)

def zmagic : BitVec 32 := 267#32

def validate (h : AoutHeader) (fileSize : BitVec 32) : Bool :=
  h.aMagic = zmagic ∧ h.aTrsize = 0#32 ∧ h.aDrsize = 0#32
    ∧ h.aText.toNat + h.aData.toNat + h.aBss.toNat ≤ 50331648
    ∧ blockSize + h.aText.toNat + h.aData.toNat + h.aSyms.toNat
      ≤ fileSize.toNat

end AoutHeader

-- ======== the interpreter line

def isSpace (a : Byte) : Bool := (9#8 ≤ a ∧ a ≤ 13#8) ∨ a = 32#8

def isSpace2 (a b : Byte) : Bool := a = 0xc2#8 ∧ (b = 0x85#8 ∨ b = 0xa0#8)

def isSpace3 (a b c : Byte) : Bool :=
  (a = 0xe1#8 ∧ b = 0x9a#8 ∧ c = 0x80#8)
    ∨ (a = 0xe2#8 ∧ b = 0x80#8 ∧ ((0x80#8 ≤ c ∧ c ≤ 0x8a#8) ∨ c = 0xa8#8
      ∨ c = 0xa9#8 ∨ c = 0xaf#8))
    ∨ (a = 0xe2#8 ∧ b = 0x81#8 ∧ c = 0x9f#8)
    ∨ (a = 0xe3#8 ∧ b = 0x80#8 ∧ c = 0x80#8)

/-- Characters of white space are dropped from the front, given the tests
for those of two and of three bytes. -/
def dropSpace (two : Byte → Byte → Bool) (three : Byte → Byte → Byte → Bool) :
    List Byte → List Byte
  | [] => []
  | [a] => if isSpace a then [] else [a]
  | [a, b] =>
    if isSpace a then dropSpace two three [b]
    else if two a b then [] else [a, b]
  | a :: b :: c :: rest =>
    if isSpace a then dropSpace two three (b :: c :: rest)
    else if two a b then dropSpace two three (c :: rest)
    else if three a b c then dropSpace two three rest
    else a :: b :: c :: rest

def trimStart (line : List Byte) : List Byte :=
  dropSpace isSpace2 isSpace3 line

/-- `str::trim_end`: the same from the last byte on. -/
def trimEnd (line : List Byte) : List Byte :=
  (dropSpace (fun b a => isSpace2 a b) (fun c b a => isSpace3 a b c)
    line.reverse).reverse

structure Shebang where
  path : List Byte
  name : List Byte
  arg : Option (List Byte)

def isBlank (b : Byte) : Bool := b = 32#8 ∨ b = 9#8

def baseName (path : List Byte) : List Byte :=
  (path.reverse.takeWhile (· ≠ Fs.slash)).reverse

def firstLine (block : List Byte) : List Byte :=
  (block.takeWhile fun b => b ≠ 10#8 ∧ b ≠ 0#8).drop 2

def parseShebang (block : List Byte) : Option Shebang :=
  if Utf8.utf8Valid (firstLine block) then
    let line := trimEnd (trimStart (firstLine block))
    if line = [] then none
    else
      let path := line.takeWhile fun b => !isBlank b
      let arg := trimStart (line.dropWhile fun b => !isBlank b)
      some ⟨path, baseName path, if arg = [] then none else some arg⟩
  else none

def isShebang (block : List Byte) : Bool :=
  block.take 2 = [0x23#8, 0x21#8]

-- ======== the call

/-- The file system, the frames that allocations of the call find, and what
page faults map. -/
structure Machine where
  resolve : List Byte → Fs.Outcome Program
  cut : ∀ path p, resolve path = .found p → path.getLast?.all (· < 0x80#8)
  frames : Frames
  demand : Demand

/-- The arguments of the call, in the caller's memory. -/
structure Call where
  mem : UserMem
  filename : Nat
  argv : Nat
  envp : Nat

/-- `uaccess::read_pathname`, as the bytes of the string. -/
def readPathname (mem : UserMem) (addr : Nat) : List Byte :=
  Fs.encode (Fs.readPathname
    ((List.range Fs.maxPathLen).map fun i => mem (addr + i)))

def inspect (p : Program) :
    Except Failure ((BitVec 16 × BitVec 16) × List Byte) :=
  match p.permission with
  | none => .error .access
  | some ids =>
    match p.firstBlock with
    | none => .error .access
    | some bytes => .ok (ids, blockOf bytes)

def readHeader (block : List Byte) (size : BitVec 32) :
    Except Failure AoutHeader :=
  if (AoutHeader.fromBlock block).validate size then
    .ok (.fromBlock block)
  else .error .noexec

/-- What is known of the program before the point of no return. -/
structure Loaded where
  header : AoutHeader
  ids : BitVec 16 × BitVec 16
  pages : ArgumentPages
  argc : Nat

def scriptPages (frames : Frames) (c : Call) (filename : List Byte)
    (line : Shebang) (argc envc : Nat) : Except Failure ArgumentPages :=
  (ArgumentPages.new.copyUserStrings frames c.mem c.envp envc).bind fun a =>
    (a.copyUserStrings frames c.mem (c.argv + 4) (argc - 1)).bind fun a =>
      (a.copyKernelString frames filename).bind fun a =>
        (match line.arg with
          | none => Except.ok a
          | some arg => a.copyKernelString frames arg).bind fun a =>
          a.copyKernelString frames line.name

def binaryPages (frames : Frames) (c : Call) (argc envc : Nat) :
    Except Failure ArgumentPages :=
  (ArgumentPages.new.copyUserStrings frames c.mem c.envp envc).bind fun a =>
    a.copyUserStrings frames c.mem c.argv argc

def loadScript (m : Machine) (c : Call) (filename : List Byte)
    (block : List Byte) (argc envc : Nat) : Except Failure Loaded :=
  match parseShebang block with
  | none => .error .noexec
  | some line =>
    (scriptPages m.frames c filename line argc envc).bind fun a =>
      match m.resolve line.path with
      | .panic => .error .panicked
      | .absent => .error .noent
      | .found interpreter =>
        (inspect interpreter).bind fun r =>
          (readHeader r.2 interpreter.size).bind fun header =>
            .ok ⟨header, r.1, a,
              argc - 1 + 1 + (if line.arg.isSome then 1 else 0) + 1⟩

/-- `sys_execve` up to the point of no return. -/
def load (m : Machine) (c : Call) (argc envc : Nat) : Except Failure Loaded :=
  let filename := readPathname c.mem c.filename
  match m.resolve filename with
  | .panic => .error .panicked
  | .absent => .error .noent
  | .found program =>
    (inspect program).bind fun r =>
      if isShebang r.2 then loadScript m c filename r.2 argc envc
      else
        (readHeader r.2 program.size).bind fun header =>
          (binaryPages m.frames c argc envc).bind fun a =>
            .ok ⟨header, r.1, a, argc⟩

def zeroTail (demand : Demand) : Nat → Nat → Space → Except Failure Space
  | 0, _, s => .ok s
  | fuel + 1, i, s =>
    if i % pageSize = 0 then .ok s
    else (s.writeU8 demand 0#8 i).bind (zeroTail demand fuel (i + 1))

/-- What the new program starts with. -/
structure Image where
  space : Space
  sp : Nat
  eip : BitVec 32
  ids : BitVec 16 × BitVec 16

/-- `sys_execve` from the point of no return on. -/
def commit (m : Machine) (l : Loaded) (envc : Nat) : Except Failure Image :=
  (Space.install m.frames l.pages (.new l.pages.allocs)).bind fun s =>
    (createUserTables m.demand (l.pages.writeCursor + argBase) l.argc envc
      s).bind fun r =>
      (zeroTail m.demand pageSize
        (l.header.aText.toNat + l.header.aData.toNat) r.1).bind fun s =>
        .ok ⟨s, r.2, l.header.aEntry, l.ids⟩

def execve (m : Machine) (c : Call) : Except Failure Image :=
  match countUserPtrs c.mem c.argv with
  | none => .error .endless
  | some argc =>
    match countUserPtrs c.mem c.envp with
    | none => .error .endless
    | some envc =>
      (load m c argc envc).bind fun l =>
        if l.pages.writeCursor = 0 then .error .nomem
        else commit m l envc

end LinuxRs.Exec
