/-
When the calls that take a pathname return.

A call goes through exactly when none of the operations that it comes to
panics. The operations it comes to are those of the walk by bytes
(`PathOp.total`), which never panics: so the condition is about the bytes
of the pathnames and the contents of the directories that they lead
through, `PathOp.Ok`, and not about the run of the code.
-/
import LinuxRs.Fs.RawCalls

namespace LinuxRs.Fs

open LinuxRs.Lib
open LinuxRs.Driver (DevNum)

/-- The pathnames and the disk are fit for a call: no pathname that is
split ends in a byte from 0x80 on, no directory that is searched has a
live name outside UTF-8 before the entry that is looked for, no name that
is added takes more than 14 bytes as a kernel string, and the inodes on
the way are of a known type, on a mounted device and can be read. -/
def PathCall.Fit (c : PathCall) (task : RawTask) (s : RawFs) : Prop :=
  ∀ q ∈ (c.prog task).asked PathOp.total s, q.1.Ok q.2

/-- A call returns a result or an error exactly when the pathnames and the
disk are fit for it. -/
theorem path_call_returns_iff (c : PathCall) (task : RawTask) (s : RawFs) :
    ((c.prog task).run PathOp.step s).isSome ↔ c.Fit task s :=
  Asking.run_isSome_iff PathOp.step_of_ok PathOp.step_of_not_ok _ s

def plainRoot : InodeId := ⟨⟨0x301#16⟩, 1#16⟩

def plainTask : RawTask where
  rootDirectory := some plainRoot
  currentDirectory := some plainRoot
  euid := 0#16
  egid := 0#16
  umask := 0#12
  descriptor := true

def plainFs (entries : List RawEntry) : RawFs where
  inode id :=
    if id = plainRoot then
      some ⟨some .directory, 0o755#12, 0#16, 0#8, 2#8, entries⟩
    else some .zeroed
  mounts := ⟨[some ⟨⟨0x301#16⟩, plainRoot, none⟩]⟩

def undecodableEntry : RawEntry :=
  ⟨5#16, 0xff#8 :: List.replicate 13 0#8, by decide⟩

/-- Each kind of panic is reached: `stat` of a name that ends in 0xe9,
`mkdir` of a name of 15 letters, and `stat` of a plain name in a directory
with an undecodable one. -/
theorem path_call_panics :
    ((PathCall.stat [0xe9#8]).prog plainTask).run PathOp.step (plainFs [])
        = none
      ∧ ((PathCall.mkdir (List.replicate 15 0x61#8) 0o755#12 (some 2#16)
          true true).prog plainTask).run PathOp.step (plainFs []) = none
      ∧ ((PathCall.stat [0x61#8]).prog plainTask).run PathOp.step
          (plainFs [undecodableEntry]) = none := by
  refine ⟨rfl, rfl, rfl⟩

end LinuxRs.Fs
