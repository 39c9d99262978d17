/-
What a created name looks like in the directory.

A call that creates `name` in the current directory reads the name from
the caller byte by byte, splits it off and stores the bytes of the kernel
string. The string has a character for every byte of the caller, so its
bytes are those of the caller only when all of them are below 0x80:
`stored_byte_for_byte_iff`.

# The argument

`resolveParent_here` runs the split, `enter` is the effect of `add_entry`
on the directory, and each creating call ends in a state that is `Entered`.
From such a state the name is found again when it is stored as it was
given (`Entered.found`), and a name with a byte from 0x80 on is stored as
something longer (`encode_length_lt`).
-/
import LinuxRs.Fs.PathTotality

namespace LinuxRs.Fs

open LinuxRs.Lib
open LinuxRs.Driver (DevNum)

-- ======== the bytes of a name

/-- A name of 1 to 14 bytes without `/` and NUL. -/
structure NameBytes (name : List Byte) : Prop where
  nonempty : name ≠ []
  short : name.length ≤ nameLength
  noSlash : slash ∉ name
  noNul : 0#8 ∉ name

def fieldOf (name : List Byte) : List Byte :=
  name ++ List.replicate (nameLength - name.length) 0#8

theorem readString_of_noNul {max : Nat} {bytes : List Byte}
    (hlen : bytes.length ≤ max) (hnul : 0#8 ∉ bytes) :
    readString max bytes = bytes := by
  induction max generalizing bytes with
  | zero =>
    obtain rfl := List.length_eq_zero_iff.mp (Nat.le_zero.mp hlen)
    rfl
  | succ max ih =>
    cases bytes with
    | nil => rfl
    | cons b rest =>
      have hb : b ≠ 0#8 := fun h => hnul (h ▸ List.mem_cons_self)
      rw [readString, if_neg hb, ih (Nat.le_of_succ_le_succ hlen)
          fun h => hnul (List.mem_cons_of_mem _ h)]

theorem NameBytes.readPathname_eq {name : List Byte} (h : NameBytes name) :
    readPathname name = name :=
  readString_of_noNul (h.short.trans (by decide)) h.noNul

/-- A text that is not ASCII is longer as UTF-8. -/
theorem encode_length_lt {name : Text} (h : ¬ isAscii name) :
    name.length < (encode name).length := by
  have hle : ∀ text : Text, text.length ≤ (encode text).length := by
    intro text
    induction text with
    | nil => exact Nat.le_refl _
    | cons b text ih =>
      have := encodeChar_length_pos b
      rw [encode_cons, List.length_append, List.length_cons]
      omega
  induction name with
  | nil => exact absurd rfl h
  | cons b name ih =>
    rw [encode_cons, List.length_append, List.length_cons, encodeChar_length]
    by_cases hb : b < 0x80#8
    · have hrest : ¬ isAscii name := by
        intro hascii
        apply h
        exact (Bool.and_eq_true _ _).mpr ⟨decide_eq_true hb, hascii⟩
      have := ih hrest
      rw [if_pos hb]
      omega
    · have := hle name
      rw [if_neg hb]
      omega

theorem zero_not_mem_encodeChar : ∀ b : Byte, b ≠ 0#8 → 0#8 ∉ encodeChar b := by
  decide

theorem zero_not_mem_encode {name : Text} (h : 0#8 ∉ name) :
    0#8 ∉ encode name := by
  intro hmem
  obtain ⟨b, hb, hzero⟩ := List.mem_flatMap.mp hmem
  exact zero_not_mem_encodeChar b (fun heq => h (heq ▸ hb)) hzero

theorem takeWhile_padding {bytes : List Byte} (h : 0#8 ∉ bytes) (n : Nat) :
    (bytes ++ List.replicate n 0#8).takeWhile (· ≠ 0#8) = bytes := by
  have hall : ∀ b ∈ bytes, decide (b ≠ 0#8) = true :=
    fun b hb => decide_eq_true fun heq => h (heq ▸ hb)
  rw [List.takeWhile_append_of_pos hall]
  cases n with
  | zero => simp
  | succ n => simp [List.replicate_succ]

theorem padded_eq {name : Text} (h : (encode name).length ≤ nameLength) :
    RawEntry.padded name = fieldOf (encode name) := by
  unfold RawEntry.padded fieldOf
  rw [List.take_append, List.take_of_length_le h, List.take_replicate,
    Nat.min_eq_left (Nat.sub_le _ _)]

def made (name : Text) (number : InodeNumber) : RawEntry :=
  ⟨number, RawEntry.padded name, RawEntry.padded_length name⟩

theorem made_text {name : Text} (number : InodeNumber) (hnul : 0#8 ∉ name)
    (hlen : (encode name).length ≤ nameLength) :
    (made name number).text = encode name := by
  show (RawEntry.padded name).takeWhile (· ≠ 0#8) = encode name
  rw [padded_eq hlen]
  exact takeWhile_padding (zero_not_mem_encode hnul) _

theorem padded_eq_fieldOf_iff {name : Text} (h : NameBytes name)
    (hlen : (encode name).length ≤ nameLength) :
    RawEntry.padded name = fieldOf name ↔ isAscii name := by
  rw [padded_eq hlen]
  constructor
  · intro heq
    by_contra hascii
    have htext := congrArg (·.takeWhile (· ≠ 0#8)) heq
    simp only [fieldOf] at htext
    rw [takeWhile_padding (zero_not_mem_encode h.noNul),
      takeWhile_padding h.noNul] at htext
    have hlt := encode_length_lt hascii
    rw [htext] at hlt
    exact Nat.lt_irrefl _ hlt
  · intro hascii
    rw [encode_of_isAscii hascii]

-- ======== one more directory entry

/-- The entries with one more: in the first deleted slot, or at the end. -/
def enter (entries : List RawEntry) (e : RawEntry) : List RawEntry :=
  match entries.findIdx? (fun x => !x.live) with
  | some slot => entries.set slot e
  | none => entries ++ [e]

theorem enter_cases (entries : List RawEntry) (e : RawEntry) :
    (∃ slot old, entries[slot]? = some old ∧ old.live = false
        ∧ enter entries e = entries.set slot e)
      ∨ enter entries e = entries ++ [e] := by
  unfold enter
  split
  next slot h =>
    obtain ⟨hlt, hdead, -⟩ := List.findIdx?_eq_some_iff_getElem.mp h
    refine .inl ⟨slot, entries[slot], List.getElem?_eq_getElem hlt, ?_, rfl⟩
    simpa using hdead
  next h => exact .inr rfl

theorem enter_slot {entries : List RawEntry} {e x : RawEntry} {slot : Nat}
    (hx : (enter entries e)[slot]? = some x) (hlive : x.live = true)
    (hfree : ∀ old, entries[slot]? = some old → old.live = false) : x = e := by
  rcases enter_cases entries e with ⟨i, old, hi, -, heq⟩ | heq
  · rw [heq, List.getElem?_set] at hx
    split at hx
    next h =>
      split at hx
      next => exact (Option.some.inj hx).symm
      next => cases hx
    next h => exact absurd hlive (by simp [hfree x hx])
  · rw [heq, List.getElem?_append] at hx
    split at hx
    next h => exact absurd hlive (by simp [hfree x hx])
    next h =>
      cases hn : slot - entries.length with
      | zero =>
        rw [hn] at hx
        exact (Option.some.inj hx).symm
      | succ n =>
        rw [hn] at hx
        cases hx

theorem enter_has (entries : List RawEntry) (e : RawEntry) :
    ∃ slot : Nat, (enter entries e)[slot]? = some e
      ∧ ∀ old : RawEntry, entries[slot]? = some old → old.live = false := by
  rcases enter_cases entries e with ⟨i, old, hi, hdead, heq⟩ | heq
  · refine ⟨i, ?_, ?_⟩
    · rw [heq, List.getElem?_set_self (List.getElem?_eq_some_iff.mp hi).1]
    · intro old' hold'
      rw [hi] at hold'
      exact Option.some.inj hold' ▸ hdead
  · refine ⟨entries.length, ?_, ?_⟩
    · rw [heq, List.getElem?_concat_length]
    · intro old hold
      rw [List.getElem?_eq_none (Nat.le_refl _)] at hold
      cases hold

theorem mem_enter {entries : List RawEntry} {e x : RawEntry}
    (h : x ∈ enter entries e) : x = e ∨ x ∈ entries := by
  rcases enter_cases entries e with ⟨i, old, -, -, heq⟩ | heq
  · rw [heq] at h
    exact (List.mem_or_eq_of_mem_set h).symm
  · rw [heq] at h
    simpa [or_comm] using h

theorem searched_enter {entries : List RawEntry} {e : RawEntry} {name : Text}
    (habsent : searched name entries = none) (hnamed : e.named name) :
    searched name (enter entries e) = some e.inodeNumber := by
  have hnone : ∀ x ∈ entries, ¬ x.named name := by
    simpa [searched] using habsent
  obtain ⟨slot, hslot, -⟩ := enter_has entries e
  have hmem : e ∈ enter entries e := List.mem_of_getElem? hslot
  unfold searched
  cases hfind : (enter entries e).find? (·.named name) with
  | none => exact absurd hnamed (List.find?_eq_none.mp hfind e hmem)
  | some x =>
    have hx := List.find?_some hfind
    rcases mem_enter (List.mem_of_find?_eq_some hfind) with rfl | hold
    · rfl
    · exact absurd hx (hnone x hold)

-- ======== ready to create

/-- The directory can take a new name for an inode: it is the current
directory of the task and can be searched and written to, its names can be
read and the new one is not among them, and the inode is another one, with
nothing mounted on it. -/
structure Ready (task : RawTask) (s : RawFs) (dir : InodeId) (name : Text)
    (number : InodeNumber) : Prop where
  root : task.rootDirectory.isSome
  here : task.currentDirectory = some dir
  directory : (s.loaded dir).fileType = some .directory
  search : s.permitted dir mayExec task.euid task.egid
  write : s.permitted dir mayWrite task.euid task.egid
  readable : ∀ e ∈ (s.loaded dir).entries, e.readable
  absent : searched name (s.loaded dir).entries = none
  live : number ≠ 0#16
  apart : dir ≠ ⟨dir.device, number⟩
  inode : (s.inode ⟨dir.device, number⟩).isSome
  mounted : s.mounts.resolveInode ⟨dir.device, number⟩
    = .found ⟨dir.device, number⟩
  descriptor : task.descriptor

/-- The directory has the name, and it alone has changed. -/
structure Entered (s s' : RawFs) (dir : InodeId) (name : Text)
    (number : InodeNumber) : Prop where
  entries : (s'.loaded dir).entries
    = enter (s.loaded dir).entries (made name number)
  fileType : (s'.loaded dir).fileType = (s.loaded dir).fileType
  flags : (s'.loaded dir).flags = (s.loaded dir).flags
  userId : (s'.loaded dir).userId = (s.loaded dir).userId
  groupId : (s'.loaded dir).groupId = (s.loaded dir).groupId
  linked : (s'.loaded dir).linkCount ≠ 0#8
  mounts : s'.mounts = s.mounts
  inode : (s'.inode ⟨dir.device, number⟩).isSome

@[simp] theorem loaded_setInode_self (s : RawFs) (id : InodeId)
    (inode : RawInode) : (s.setInode id inode).loaded id = inode := by
  simp [RawFs.loaded, RawFs.setInode]

theorem loaded_setInode_of_ne {id other : InodeId} (h : other ≠ id)
    (s : RawFs) (inode : RawInode) :
    (s.setInode id inode).loaded other = s.loaded other := by
  simp [RawFs.loaded, RawFs.setInode, h]

theorem Entered.of_loaded {s s' : RawFs} {dir : InodeId} {name : Text}
    {number : InodeNumber} (links : BitVec 8)
    (hload : s'.loaded dir = { s.loaded dir with
      linkCount := links
      entries := enter (s.loaded dir).entries (made name number) })
    (hlinks : links ≠ 0#8) (hmounts : s'.mounts = s.mounts)
    (hinode : (s'.inode ⟨dir.device, number⟩).isSome) :
    Entered s s' dir name number := by
  refine ⟨?_, ?_, ?_, ?_, ?_, ?_, hmounts, hinode⟩
  · rw [hload]
  · rw [hload]
  · rw [hload]
  · rw [hload]
  · rw [hload]
  · rw [hload]
    exact hlinks

theorem putEntry_room (s : RawFs) (dir : InodeId) (e : RawEntry) :
    s.putEntry dir e true = some (s.setInode dir { s.loaded dir with
      entries := enter (s.loaded dir).entries e }) := by
  unfold RawFs.putEntry enter
  dsimp only
  cases (s.loaded dir).entries.findIdx? (fun x => !x.live) with
  | none => simp
  | some slot => rfl

theorem permitted_of_same {s s' : RawFs} {id : InodeId} {mask : BitVec 12}
    {uid gid : BitVec 16} (hflags : (s'.loaded id).flags = (s.loaded id).flags)
    (huser : (s'.loaded id).userId = (s.loaded id).userId)
    (hgroup : (s'.loaded id).groupId = (s.loaded id).groupId)
    (hlinks : (s'.loaded id).linkCount ≠ 0#8)
    (h : s.permitted id mask uid gid) : s'.permitted id mask uid gid := by
  unfold RawFs.permitted at h ⊢
  dsimp only at h ⊢
  rw [hflags, huser, hgroup, if_neg hlinks]
  split at h
  next => cases h
  next => exact h

theorem linkCount_ne_zero_of_permitted {s : RawFs} {id : InodeId}
    {mask : BitVec 12} {uid gid : BitVec 16}
    (h : s.permitted id mask uid gid) : (s.loaded id).linkCount ≠ 0#8 := by
  intro hzero
  unfold RawFs.permitted at h
  rw [if_pos hzero] at h
  cases h

-- ======== the operations, run

section Operations

variable (s : RawFs)

@[simp] theorem run_parentPath (raw : Text) :
    (RawTask.parentPath raw).run PathOp.step s
      = (rawParentPath raw).map fun r => (s, r) :=
  Asking.run_ask_ret _ _

@[simp] theorem run_fileType (id : InodeId) :
    (RawTask.fileType id).run PathOp.step s
      = (s.loaded id).fileType.map fun t => (s, t) :=
  Asking.run_ask_ret _ _

@[simp] theorem run_permitted (task : RawTask) (id : InodeId)
    (mask : BitVec 12) : (task.permitted id mask).run PathOp.step s
      = some (s, s.permitted id mask task.euid task.egid) := rfl

@[simp] theorem run_resolveInode (id : InodeId) :
    (RawTask.resolveInode id).run PathOp.step s
      = PathOp.step (.resolveInode id) s :=
  Asking.run_ask_ret _ _

@[simp] theorem run_lookup (dir : InodeId) (name : Text) :
    (RawTask.lookup dir name).run PathOp.step s
      = PathOp.step (.lookup dir name) s :=
  Asking.run_ask_ret _ _

@[simp] theorem run_addEntry (dir : InodeId) (name : Text)
    (number : InodeNumber) (room : Bool) :
    (RawTask.addEntry dir name number room).run PathOp.step s
      = PathOp.step (.addEntry dir name number room) s :=
  Asking.run_ask_ret _ _

@[simp] theorem run_allocInode (id : InodeId) (inode : RawInode) :
    (RawTask.allocInode id inode).run PathOp.step s
      = PathOp.step (.allocInode id inode) s :=
  Asking.run_ask_ret _ _

@[simp] theorem run_addLinkCount (id : InodeId) (change : BitVec 8) :
    (RawTask.addLinkCount id change).run PathOp.step s
      = some (s.setInode id { s.loaded id with
          linkCount := (s.loaded id).linkCount + change }, ()) := rfl

end Operations

theorem step_lookup {s : RawFs} {dir : InodeId} (name : Text)
    (hdir : (s.loaded dir).fileType = some .directory)
    (hread : ∀ e ∈ (s.loaded dir).entries, e.readable) :
    PathOp.step (.lookup dir name) s
      = some (s, searched name (s.loaded dir).entries) := by
  apply PathOp.step_of_ok
  refine ⟨decide_eq_true hdir, ?_⟩
  have hsub : ∀ entries : List RawEntry,
      ∀ e ∈ examined (·.named name) entries, e ∈ entries := by
    intro entries
    induction entries with
    | nil => exact fun e he => he
    | cons x rest ih =>
      intro e he
      unfold examined at he
      split at he
      next => exact List.mem_cons.mpr (.inl (List.mem_singleton.mp he))
      next =>
        rcases List.mem_cons.mp he with heq | he
        · exact List.mem_cons.mpr (.inl heq)
        · exact List.mem_cons_of_mem _ (ih e he)
  exact fun e he => hread e (hsub _ e he)

theorem step_addEntry {s : RawFs} (dir : InodeId) (name : Text)
    (number : InodeNumber) (hdir : (s.loaded dir).fileType = some .directory) :
    PathOp.step (.addEntry dir name number true) s
      = if (encode name).length ≤ nameLength then
          some (s.setInode dir { s.loaded dir with
            entries := enter (s.loaded dir).entries (made name number) }, true)
        else none := by
  have hdir : s.isDirectory dir = true := decide_eq_true hdir
  simp only [PathOp.step, hdir, if_true, RawEntry.new]
  split
  next hlen =>
    simp only [Option.map_some, putEntry_room]
    rfl
  next => rfl

theorem addEntry_short {s : RawFs} (id : InodeId) (name : Text)
    (number : InodeNumber) (hlen : (encode name).length ≤ nameLength)
    (hdir : (s.loaded id).fileType = some .directory) :
    ∃ s', PathOp.step (.addEntry id name number true) s = some (s', true)
      ∧ s'.mounts = s.mounts ∧ (s'.inode id).isSome
      ∧ (s'.loaded id).fileType = some .directory
      ∧ ∀ other, other ≠ id → s'.loaded other = s.loaded other := by
  refine ⟨_, (step_addEntry id name number hdir).trans (if_pos hlen), rfl,
    ?_, ?_, fun other hne => loaded_setInode_of_ne hne s _⟩
  · simp [RawFs.setInode]
  · rw [loaded_setInode_self]
    exact hdir

section Here

variable {task : RawTask} {s : RawFs} {dir : InodeId} {name : Text}
  {number : InodeNumber}

/-- A plain name is looked up in the working directory. -/
theorem resolveParent_here (hname : NameBytes name)
    (hroot : task.rootDirectory.isSome) (hhere : task.currentDirectory = some dir)
    (hdir : (s.loaded dir).fileType = some .directory)
    (hsearch : s.permitted dir mayExec task.euid task.egid) :
    (task.resolveParent name).run PathOp.step s
      = if splits name then some (s, some (dir, name)) else none := by
  obtain ⟨root, hroot⟩ := Option.isSome_iff_exists.mp hroot
  have hstart : task.start root name = some dir := by
    unfold RawTask.start
    rw [if_neg, hhere]
    intro hhead
    exact hname.noSlash (List.mem_of_mem_head? hhead)
  have hsplit : splitName name = ([], name) := by
    have hall : ∀ b ∈ name.reverse, decide (b ≠ slash) = true := fun b hb =>
      decide_eq_true fun heq => hname.noSlash (heq ▸ List.mem_reverse.mp hb)
    have hlast : ByteIndex.lastPart slash name = name := by
      unfold ByteIndex.lastPart
      rw [List.takeWhile_eq_self_iff.mpr hall, List.reverse_reverse]
    have hbefore : ByteIndex.beforeLast slash name = [] := by
      have := ByteIndex.beforeLast_append slash name
      rw [hlast] at this
      exact List.append_left_eq_self.mp this
    unfold splitName
    rw [hlast, hbefore]
    rfl
  unfold RawTask.resolveParent
  rw [if_neg hname.nonempty, hroot]
  dsimp only
  rw [hstart]
  rw [Asking.run_bind, run_parentPath, rawParentPath_eq]
  by_cases hs : splits name
  · rw [if_pos hs, if_pos hs, hsplit]
    simp [RawTask.walkParents, RawTask.searchable, hdir, hsearch,
      hname.nonempty]
  · rw [if_neg hs, if_neg hs]
    rfl

namespace Ready

theorem resolveParent (h : Ready task s dir name number)
    (hname : NameBytes name) :
    (task.resolveParent (readPathname name)).run PathOp.step s
      = if splits name then some (s, some (dir, name)) else none := by
  rw [hname.readPathname_eq]
  exact resolveParent_here hname h.root h.here h.directory h.search

theorem lookup (h : Ready task s dir name number) :
    PathOp.step (.lookup dir name) s = some (s, none) := by
  rw [step_lookup name h.directory h.readable, h.absent]

def linked (s : RawFs) (dir : InodeId) (name : Text) (number : InodeNumber)
    (inode : RawInode) : RawFs :=
  (s.setInode ⟨dir.device, number⟩ inode).setInode dir { s.loaded dir with
    entries := enter (s.loaded dir).entries (made name number) }

theorem allocAndLink (h : Ready task s dir name number) (inode : RawInode) :
    (RawTask.allocAndLink dir name inode (some number) true).run PathOp.step s
      = if (encode name).length ≤ nameLength then
          some (linked s dir name number inode, .ok ⟨dir.device, number⟩)
        else none := by
  have halloc : PathOp.step (.allocInode ⟨dir.device, number⟩ inode) s
      = some (s.setInode ⟨dir.device, number⟩ inode, ()) :=
    PathOp.step_of_ok _ _ h.inode
  have hkeep := loaded_setInode_of_ne h.apart s inode
  have hadd := step_addEntry (s := s.setInode ⟨dir.device, number⟩ inode)
    dir name number (by rw [hkeep]; exact h.directory)
  rw [hkeep] at hadd
  unfold RawTask.allocAndLink
  simp only [Asking.run_bind, run_allocInode, halloc, Option.bind_some,
    run_addEntry, hadd]
  split
  next => rfl
  next => rfl

theorem linked_entered (h : Ready task s dir name number) (inode : RawInode) :
    Entered s (linked s dir name number inode) dir name number := by
  refine .of_loaded _ (loaded_setInode_self _ _ _)
    (linkCount_ne_zero_of_permitted h.search) rfl ?_
  simp [linked, RawFs.setInode, Ne.symm h.apart]

theorem linked_fileType (h : Ready task s dir name number) (inode : RawInode) :
    ((linked s dir name number inode).loaded ⟨dir.device, number⟩) = inode := by
  unfold linked
  rw [loaded_setInode_of_ne (Ne.symm h.apart), loaded_setInode_self]

end Ready

end Here

-- ======== the creating calls

/-- What a creating call comes to: the name is entered, or the call
panics. -/
def Makes (s : RawFs) (dir : InodeId) (name : Text) (number : InodeNumber)
    (answer : Option (RawFs × RawTask.Reply)) : Prop :=
  if splits name ∧ (encode name).length ≤ nameLength then
    ∃ s', answer = some (s', .ok ()) ∧ Entered s s' dir name number
  else answer = none

/-- The calls that make `name` an entry for the inode `number` in the
directory, with room for it and a number to take. -/
def PathCall.Creates (task : RawTask) (s : RawFs) (dir : InodeId)
    (name : List Byte) (number : InodeNumber) : PathCall → Prop
  | .open path flags _ fresh room => path = name ∧ flags.access.isSome
      ∧ flags.create ∧ fresh = some number ∧ room
  | .mkdir path _ fresh room own => path = name ∧ fresh = some number ∧ room
      ∧ own ∧ (s.loaded dir).linkCount ≠ 255#8
  | .mknod path type _ fresh room => path = name ∧ task.euid = 0#16
      ∧ (type = .blockDevice ∨ type = .characterDevice)
      ∧ fresh = some number ∧ room
  | .link oldPath newPath room => newPath = name ∧ room
      ∧ (task.resolvePath (readPathname oldPath)).run PathOp.step s
          = some (s, some ⟨dir.device, number⟩)
      ∧ ∃ type, (s.loaded ⟨dir.device, number⟩).fileType = some type
          ∧ type ≠ .directory
  | _ => False

section Calls

variable {task : RawTask} {s : RawFs} {dir : InodeId} {name : List Byte}
  {number : InodeNumber}

theorem makes_open (h : Ready task s dir name number) (hname : NameBytes name)
    {flags : RawTask.OpenFlags} (hmode : flags.access.isSome)
    (hcreate : flags.create) (mode : BitVec 12) :
    Makes s dir name number ((task.sysOpen name flags mode (some number)
      true).run PathOp.step s) := by
  obtain ⟨access, haccess⟩ := Option.isSome_iff_exists.mp hmode
  unfold RawTask.sysOpen Makes
  rw [haccess]
  simp only [Asking.run_bind, h.resolveParent hname]
  by_cases hs : splits name
  · simp only [hs, if_true, Option.bind_some, if_neg hname.nonempty,
      Asking.run_bind, run_lookup, h.lookup, hcreate, run_permitted,
      h.write, h.allocAndLink, true_and]
    split
    next hlen =>
      refine ⟨_, ?_, h.linked_entered (task.newInode .regular mode 1#8)⟩
      simp [RawTask.openInode, h.linked_fileType, RawTask.newInode,
        h.descriptor]
    next => rfl
  · simp [hs]

theorem makes_mknod (h : Ready task s dir name number)
    (hname : NameBytes name) (hroot : task.euid = 0#16) {type : InodeType}
    (htype : type = .blockDevice ∨ type = .characterDevice)
    (mode : BitVec 12) :
    Makes s dir name number ((task.sysMknod name type mode (some number)
      true).run PathOp.step s) := by
  have hdevice : ¬ (type ≠ .blockDevice ∧ type ≠ .characterDevice) := by
    rcases htype with rfl | rfl
    · decide
    · decide
  have hsuper : ¬ task.euid ≠ 0#16 := not_not.mpr hroot
  unfold RawTask.sysMknod RawTask.writableParent Makes
  simp only [if_neg hsuper, Asking.run_bind, h.resolveParent hname]
  by_cases hs : splits name
  · simp only [hs, if_true, Option.bind_some, if_neg hname.nonempty,
      Asking.run_bind, run_lookup, h.lookup, run_permitted, h.write,
      Asking.run_pure, if_neg hdevice, h.allocAndLink, true_and]
    split
    next hlen => exact ⟨_, rfl, h.linked_entered _⟩
    next => rfl
  · simp [hs]

theorem makes_link (h : Ready task s dir name number)
    (hname : NameBytes name) {oldPath : List Byte}
    (hold : (task.resolvePath (readPathname oldPath)).run PathOp.step s
      = some (s, some ⟨dir.device, number⟩)) {type : InodeType}
    (htype : (s.loaded ⟨dir.device, number⟩).fileType = some type)
    (hplain : type ≠ .directory) :
    Makes s dir name number
      ((task.sysLink oldPath name true).run PathOp.step s) := by
  unfold RawTask.sysLink Makes
  simp only [Asking.run_bind, hold, Option.bind_some, run_fileType, htype,
    Option.map_some, if_neg hplain, h.resolveParent hname]
  by_cases hs : splits name
  · simp only [hs, if_true, Option.bind_some, if_neg hname.nonempty,
      Asking.run_bind, run_lookup, h.lookup, run_permitted, h.write,
      run_addEntry, step_addEntry dir name number h.directory, true_and,
      ne_eq, not_true_eq_false, if_false]
    split
    next hlen =>
      refine ⟨_, rfl, .of_loaded _ ?_
        (linkCount_ne_zero_of_permitted h.search) rfl ?_⟩
      · rw [loaded_setInode_of_ne h.apart, loaded_setInode_self]
      · simp [RawFs.setInode]
    next => rfl
  · simp [hs]

/-- `mkdir` enters the encoded name. -/
theorem makes_mkdir (h : Ready task s dir name number) (hname : NameBytes name)
    (hlinks : (s.loaded dir).linkCount ≠ 255#8) (mode : BitVec 12) :
    Makes s dir name number ((task.sysMkdir name mode (some number) true
      true).run PathOp.step s) := by
  unfold RawTask.sysMkdir RawTask.writableParent Makes
  simp only [Asking.run_bind, h.resolveParent hname]
  by_cases hs : splits name
  · simp only [hs, if_true, Option.bind_some, if_neg hname.nonempty,
      Asking.run_bind, run_lookup, h.lookup, run_permitted, h.write,
      Asking.run_pure, h.allocAndLink, true_and]
    split
    next hlen =>
      have hnew := h.linked_fileType (task.newInode .directory mode 2#8)
      have hload : (Ready.linked s dir name number
          (task.newInode .directory mode 2#8)).loaded dir = _ :=
        loaded_setInode_self _ _ _
      have hmounts : (Ready.linked s dir name number
          (task.newInode .directory mode 2#8)).mounts = s.mounts := rfl
      simp only [Option.bind_some]
      generalize Ready.linked s dir name number
        (task.newInode .directory mode 2#8) = s₁ at hnew hload hmounts
      obtain ⟨s₂, hdot, hmounts₂, -, hdir₂, hkeep₂⟩ :=
        addEntry_short (s := s₁) ⟨dir.device, number⟩ rawDot number
          (by decide) (by rw [hnew]; rfl)
      obtain ⟨s₃, hdotdot, hmounts₃, hinode₃, -, hkeep₃⟩ :=
        addEntry_short ⟨dir.device, number⟩ rawDotdot dir.inodeNumber
          (by decide) hdir₂
      have hsame : s₃.loaded dir = _ :=
        ((hkeep₃ dir h.apart).trans (hkeep₂ dir h.apart)).trans hload
      simp only [Asking.run_bind, run_addEntry, hdot, Option.bind_some,
        if_true, hdotdot, run_addLinkCount, Asking.run_pure]
      refine ⟨_, rfl, .of_loaded ((s.loaded dir).linkCount + 1#8)
        ((loaded_setInode_self _ _ _).trans ?_) ?_
        ((hmounts₃.trans hmounts₂).trans hmounts) ?_⟩
      · rw [hsame]
      · intro hzero
        apply hlinks
        bv_omega
      · simpa [RawFs.setInode, Ne.symm h.apart] using hinode₃
    next => rfl
  · simp [hs]

theorem makes_of_creates {c : PathCall} (h : Ready task s dir name number)
    (hname : NameBytes name) (hc : c.Creates task s dir name number) :
    Makes s dir name number ((c.prog task).run PathOp.step s) := by
  cases c with
  | stat path => cases hc
  | «open» path flags mode fresh room =>
    obtain ⟨rfl, haccess, hcreate, rfl, rfl⟩ := hc
    exact makes_open h hname haccess hcreate mode
  | mkdir path mode fresh room own =>
    obtain ⟨rfl, rfl, rfl, rfl, hlinks⟩ := hc
    exact makes_mkdir h hname hlinks mode
  | mknod path type mode fresh room =>
    obtain ⟨rfl, hroot, htype, rfl, rfl⟩ := hc
    exact makes_mknod h hname hroot htype mode
  | link oldPath newPath room =>
    obtain ⟨rfl, rfl, hold, type, htype, hplain⟩ := hc
    exact makes_link h hname hold htype hplain
  | unlink path => cases hc
  | rmdir path => cases hc
  | rename oldPath newPath room => cases hc
  | chdir path => cases hc

-- ======== the law

theorem splits_of_isAscii (h : isAscii name) : splits name = true := by
  unfold splits
  cases hlast : name.getLast? with
  | none => rfl
  | some b => exact List.all_eq_true.mp h b (List.mem_of_getLast? hlast)

/-- An entered name is found again, if it is ASCII. -/
theorem Entered.found {s' : RawFs} (h : Ready task s dir name number)
    (hname : NameBytes name) (hascii : isAscii name)
    (hin : Entered s s' dir name number) :
    (task.resolvePath (readPathname (made name number).text)).run PathOp.step s'
      = some (s', some ⟨dir.device, number⟩) := by
  have hencode := encode_of_isAscii hascii
  have hlen : (encode name).length ≤ nameLength := by
    rw [hencode]
    exact hname.short
  have htext := made_text number hname.noNul hlen
  have hnamed : (made name number).named name = true := by
    have hlive : (made name number).live = true := decide_eq_true h.live
    unfold RawEntry.named
    rw [hlive, htext, decide_eq_true rfl, Bool.and_true]
  have hread : ∀ e ∈ (s'.loaded dir).entries, e.readable = true := by
    intro e he
    rw [hin.entries] at he
    rcases mem_enter he with rfl | hold
    · unfold RawEntry.readable
      rw [htext, hencode, utf8Valid_of_isAscii hascii, Bool.or_true]
    · exact h.readable e hold
  have hdir : (s'.loaded dir).fileType = some .directory :=
    hin.fileType.trans h.directory
  have hsearch : s'.permitted dir mayExec task.euid task.egid :=
    permitted_of_same hin.flags hin.userId hin.groupId hin.linked h.search
  have hlookup : PathOp.step (.lookup dir name) s' = some (s', some number) := by
    rw [step_lookup name hdir hread, hin.entries,
      searched_enter h.absent hnamed]
    rfl
  have hinode : PathOp.step (.resolveInode ⟨dir.device, number⟩) s'
      = some (s', ⟨dir.device, number⟩) := by
    simp only [PathOp.step, hin.inode, if_true, hin.mounts, h.mounted]
  rw [htext, hencode, hname.readPathname_eq]
  unfold RawTask.resolvePath
  rw [Asking.run_bind, resolveParent_here hname h.root h.here hdir hsearch,
    if_pos (splits_of_isAscii hascii)]
  simp only [Option.bind_some, if_neg hname.nonempty, Asking.run_bind,
    run_lookup, hlookup, run_resolveInode, hinode, Asking.run_pure]
  rfl

/-- A creating call stores a name byte for byte, in a slot that was free,
and the bytes that are read back from there lead to the inode again,
exactly when all bytes of the name are below 0x80. -/
theorem stored_byte_for_byte_iff {c : PathCall} (hname : NameBytes name)
    (h : Ready task s dir name number)
    (hc : c.Creates task s dir name number) :
    (∃ (s' : RawFs) (slot : Nat) (e : RawEntry),
        (c.prog task).run PathOp.step s = some (s', .ok ())
          ∧ (s'.loaded dir).entries[slot]? = some e
          ∧ (∀ old, (s.loaded dir).entries[slot]? = some old →
              old.live = false)
          ∧ e.inodeNumber = number ∧ e.name = fieldOf name
          ∧ (task.resolvePath (readPathname e.text)).run PathOp.step s'
              = some (s', some ⟨dir.device, number⟩))
      ↔ ∀ b ∈ name, b < 0x80#8 := by
  have hmakes := makes_of_creates h hname hc
  have hall : isAscii name ↔ ∀ b ∈ name, b < 0x80#8 := by
    simp [isAscii]
  rw [← hall]
  unfold Makes at hmakes
  constructor
  · intro hstored
    obtain ⟨s', slot, e, hrun, hslot, hfree, hnumber, hfield, -⟩ := hstored
    split at hmakes
    next hfits =>
      obtain ⟨s'', hrun', hin⟩ := hmakes
      rw [hrun] at hrun'
      obtain rfl : s' = s'' := congrArg (·.1) (Option.some.inj hrun')
      rw [hin.entries] at hslot
      have hlive : e.live = true := by
        simpa [RawEntry.live, hnumber] using h.live
      obtain rfl := enter_slot hslot hlive hfree
      exact (padded_eq_fieldOf_iff hname hfits.2).mp hfield
    next =>
      rw [hmakes] at hrun
      cases hrun
  · intro hascii
    have hlen : (encode name).length ≤ nameLength := by
      rw [encode_of_isAscii hascii]
      exact hname.short
    rw [if_pos ⟨splits_of_isAscii hascii, hlen⟩] at hmakes
    obtain ⟨s', hrun, hin⟩ := hmakes
    obtain ⟨slot, hslot, hfree⟩ :=
      enter_has (s.loaded dir).entries (made name number)
    rw [← hin.entries] at hslot
    exact ⟨s', slot, made name number, hrun, hslot, hfree, rfl,
      (padded_eq_fieldOf_iff hname hlen).mpr hascii, hin.found h hname hascii⟩

end Calls

def creating (name : List Byte) : PathCall :=
  .open name ⟨some .writeOnly, true, false, false⟩ 0o644#12 (some 2#16) true

theorem ready_plain {name : Text} :
    Ready plainTask (plainFs []) plainRoot name 2#16 := by
  refine ⟨rfl, rfl, rfl, rfl, rfl, ?_, rfl, by decide, by decide, rfl, rfl, rfl⟩
  intro e he
  cases he

theorem stored_byte_for_byte_iff_letters :
    ((creating [0x61#8, 0x62#8]).prog plainTask).run PathOp.step (plainFs [])
        ≠ none
      ∧ ∃ (s' : RawFs) (slot : Nat) (e : RawEntry),
        ((creating [0x61#8, 0x62#8]).prog plainTask).run PathOp.step
            (plainFs []) = some (s', .ok ())
          ∧ (s'.loaded plainRoot).entries[slot]? = some e
          ∧ (∀ old, ((plainFs []).loaded plainRoot).entries[slot]? = some old →
              old.live = false)
          ∧ e.inodeNumber = 2#16 ∧ e.name = fieldOf [0x61#8, 0x62#8]
          ∧ (plainTask.resolvePath (readPathname e.text)).run PathOp.step s'
              = some (s', some ⟨plainRoot.device, 2#16⟩) := by
  have hname : NameBytes [0x61#8, 0x62#8] :=
    ⟨by decide, by decide, by decide, by decide⟩
  have hstored := (stored_byte_for_byte_iff (c := creating _) hname ready_plain
    ⟨rfl, rfl, rfl, rfl, rfl⟩).mpr (by decide)
  refine ⟨?_, hstored⟩
  obtain ⟨s', slot, e, hrun, -⟩ := hstored
  rw [hrun]
  exact Option.some_ne_none _

/-- The name 0xe9 0x61 is stored as 0xc3 0xa9 0x61, and these bytes are
not found. -/
theorem stored_name_grows :
    ∃ s', ((creating [0xe9#8, 0x61#8]).prog plainTask).run PathOp.step
        (plainFs []) = some (s', .ok ())
      ∧ (s'.loaded plainRoot).entries.map (·.name)
          = [fieldOf [0xc3#8, 0xa9#8, 0x61#8]]
      ∧ fieldOf [0xc3#8, 0xa9#8, 0x61#8] ≠ fieldOf [0xe9#8, 0x61#8]
      ∧ (plainTask.resolvePath (readPathname [0xc3#8, 0xa9#8, 0x61#8])).run
          PathOp.step s' = some (s', none) := by
  refine ⟨_, rfl, rfl, by decide, rfl⟩

end LinuxRs.Fs
