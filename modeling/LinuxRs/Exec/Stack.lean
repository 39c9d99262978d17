/-
The new address space of `execve` and the tables on its stack
(kernel/src/syscall/handler/process/exec.rs, `install_into`,
`create_user_tables` and `fill_ptr_table`; kernel/src/mm/space.rs).

# Faults

The tables are written and the strings are scanned through user addresses,
so a page that is not there is mapped by the fault handler first. What it
maps is up to the executable and to the other tasks (`Demand`); a page that
cannot be had kills the task.

# Why the scan finds the strings

The tables are rebuilt by walking over the packed strings, one NUL after the
other. All tables lie below the first string, so nothing that is written
hits a string (`Laid`), and the walk meets the strings in the order in which
they were packed.
-/
import LinuxRs.Exec.Arguments

namespace LinuxRs.Exec

open LinuxRs.Lib

def taskLinearSize : Nat := 67108864

def entriesPerTable : Nat := 1024

def argPage : Nat := taskLinearSize / pageSize - maxArgPages

def argBase : Nat := taskLinearSize - maxArgPages * pageSize

-- ======== spaces

/-- `MemorySpace`, from the start of its segment on: its pages, the page
tables that are there, and the allocations made so far. -/
structure Space where
  pages : PageMap
  tables : Nat → Bool
  allocs : Nat

/-- What the fault handler maps for a page that is not there; `none` kills
the task. -/
abbrev Demand := Nat → Option Page

namespace Space

def new (allocs : Nat) : Space := ⟨fun _ => none, fun _ => false, allocs⟩

/-- `MemorySpace::ensure_page_table`, of the table for a page. -/
def ensurePageTable (frames : Frames) (s : Space) (n : Nat) : Option Space :=
  if s.tables (n / entriesPerTable) then some s
  else if frames s.allocs then
    some { s with
      tables := Function.update s.tables (n / entriesPerTable) true
      allocs := s.allocs + 1 }
  else none

/-- `MemorySpace::map_page`, of a frame with its content; `none` is an
error. -/
def mapPage (frames : Frames) (s : Space) (n : Nat) (page : Page) :
    Option Space :=
  (s.ensurePageTable frames n).bind fun s =>
    match s.pages n with
    | some _ => none
    | none => some { s with pages := s.pages.fill n page }

/-- The loop of `ArgumentPages::install_into`, from the last page down. -/
def installFrom (frames : Frames) (a : ArgumentPages) :
    Nat → Space → Except Failure Space
  | 0, s => .ok s
  | i + 1, s =>
    match a.pages i with
    | none => installFrom frames a i s
    | some page =>
      match s.mapPage frames (argPage + i) page with
      | none => .error .panicked
      | some s => installFrom frames a i s

def install (frames : Frames) (a : ArgumentPages) (s : Space) :
    Except Failure Space :=
  installFrom frames a maxArgPages s

-- ======== user accesses

variable (demand : Demand)

def touch (s : Space) (n : Nat) : Except Failure Space :=
  match s.pages n with
  | some _ => .ok s
  | none =>
    match demand n with
    | none => .error .killed
    | some page => .ok { s with pages := s.pages.fill n page }

def writeU8 (b : Byte) (addr : Nat) (s : Space) : Except Failure Space :=
  (s.touch demand (addr / pageSize)).bind fun s =>
    .ok { s with pages := s.pages.store addr b }

def readU8 (addr : Nat) (s : Space) : Except Failure (Space × Byte) :=
  (s.touch demand (addr / pageSize)).bind fun s =>
    match s.pages.byteAt addr with
    | none => .error .killed
    | some b => .ok (s, b)

def writeBytes : List Byte → Nat → Space → Except Failure Space
  | [], _, s => .ok s
  | b :: bs, addr, s =>
    (s.writeU8 demand b addr).bind (writeBytes bs (addr + 1))

def writeU32 (v : BitVec 32) (addr : Nat) (s : Space) : Except Failure Space :=
  writeBytes demand (leBytes32 v) addr s

-- ======== the tables

/-- The inner loop of `fill_ptr_table`: to the NUL. -/
def scanString : Nat → Nat → Space → Except Failure (Space × Nat)
  | 0, _, _ => .error .endless
  | fuel + 1, scan, s =>
    (s.readU8 demand scan).bind fun r =>
      if r.2 ≠ 0#8 then scanString fuel (scan + 1) r.1
      else .ok (r.1, scan)

/-- The loop of `fill_ptr_table`, with the strings left and the index. -/
def fillFrom (base : Nat) :
    Nat → Nat → Nat → Space → Except Failure (Space × Nat)
  | 0, _, scan, s => .ok (s, scan)
  | left + 1, i, scan, s =>
    (s.writeU32 demand (BitVec.ofNat 32 scan) (base + 4 * i)).bind fun s =>
      (s.scanString demand addressSpace scan).bind fun r =>
        fillFrom base left (i + 1) (r.2 + 1) r.1

def fillPtrTable (scan base count : Nat) (s : Space) :
    Except Failure (Space × Nat) :=
  (s.fillFrom demand base count 0 scan).bind fun r =>
    (r.1.writeU32 demand 0#32 (base + 4 * count)).bind fun s =>
      .ok (s, r.2)

end Space

/-- Where `create_user_tables` puts `envp[]`; the area holds so few strings
that nothing here underflows. -/
def envpBase (argsStart envc : Nat) : Nat :=
  argsStart - argsStart % 4 - (envc + 1) * 4

def argvBase (argsStart argc envc : Nat) : Nat :=
  envpBase argsStart envc - (argc + 1) * 4

def tablesSp (argsStart argc envc : Nat) : Nat :=
  argvBase argsStart argc envc - 12

def createUserTables (demand : Demand) (argsStart argc envc : Nat)
    (s : Space) : Except Failure (Space × Nat) :=
  let sp := tablesSp argsStart argc envc
  let envp := envpBase argsStart envc
  let argv := argvBase argsStart argc envc
  (s.writeU32 demand (BitVec.ofNat 32 envp) (sp + 8)).bind fun s =>
    (s.writeU32 demand (BitVec.ofNat 32 argv) (sp + 4)).bind fun s =>
      (s.writeU32 demand (BitVec.ofNat 32 argc) sp).bind fun s =>
        (s.fillPtrTable demand argsStart argv argc).bind fun r =>
          (r.1.fillPtrTable demand r.2 envp envc).bind fun r =>
            .ok (r.1, sp)

-- ======== what is there

/-- The string lies at the address, with its zero byte and no other. -/
def CString (m : Nat → Option Byte) (addr : Nat) (s : List Byte) : Prop :=
  PointsTo m addr (s ++ [0#8]) ∧ 0#8 ∉ s

/-- Pointers to the strings, in order, up to a null pointer. -/
def PointerTable (m : Nat → Option Byte) : Nat → List (List Byte) → Prop
  | base, [] => PointsTo m base (leBytes32 0#32)
  | base, s :: ss => ∃ p : BitVec 32, p ≠ 0#32
      ∧ PointsTo m base (leBytes32 p) ∧ CString m p.toNat s
      ∧ PointerTable m (base + 4) ss

/-- The stack of a new image: `argc`, `argv` and `envp`. -/
def StackHolds (m : Nat → Option Byte) (sp : Nat)
    (argv envp : List (List Byte)) : Prop :=
  ∃ argvPtr envpPtr : BitVec 32,
    PointsTo m sp (leBytes32 (BitVec.ofNat 32 argv.length))
      ∧ PointsTo m (sp + 4)
      (leBytes32 argvPtr) ∧ PointsTo m (sp + 8) (leBytes32 envpPtr)
      ∧ PointerTable m argvPtr.toNat argv ∧ PointerTable m envpPtr.toNat envp

-- ======== uniqueness

section

variable {m : Nat → Option Byte} {addr base sp : Nat} {s t : List Byte}
  {ss ts : List (List Byte)}

theorem CString.length_le (h : CString m addr s) (h' : CString m addr t) :
    s.length ≤ t.length := by
  apply Nat.le_of_not_lt
  intro hlt
  have hnul : m (addr + t.length) = some 0#8 := by
    apply h'.1
    rw [List.getElem?_append_right (Nat.le_refl _), Nat.sub_self]
    rfl
  have hbyte : m (addr + t.length) = some s[t.length] := by
    apply h.1
    rw [List.getElem?_append_left hlt]
    exact List.getElem?_eq_getElem hlt
  apply h.2
  rw [Option.some.inj (hnul.symm.trans hbyte)]
  exact List.getElem_mem hlt

theorem CString.unique (h : CString m addr s) (h' : CString m addr t) :
    s = t := by
  have hlen := Nat.le_antisymm (h.length_le h') (h'.length_le h)
  exact (pointsTo_append_iff.mp h.1).1.unique
    (pointsTo_append_iff.mp h'.1).1 hlen

theorem word_unique {p q : BitVec 32} (h : PointsTo m addr (leBytes32 p))
    (h' : PointsTo m addr (leBytes32 q)) : p = q := by
  have hbytes : leBytes32 p = leBytes32 q := h.unique h' rfl
  have hword := congrArg ofLeBytes32 hbytes
  rw [ofLeBytes32_leBytes32, ofLeBytes32_leBytes32] at hword
  exact hword

theorem PointerTable.unique (h : PointerTable m base ss)
    (h' : PointerTable m base ts) : ss = ts := by
  induction ss generalizing base ts with
  | nil =>
    cases ts with
    | nil => rfl
    | cons t ts =>
      obtain ⟨p, hp, hword, -⟩ := h'
      exact absurd (word_unique hword h) hp
  | cons s ss ih =>
    obtain ⟨p, hp, hword, hs, hss⟩ := h
    cases ts with
    | nil => exact absurd (word_unique hword h') hp
    | cons t ts =>
      obtain ⟨q, -, hword', ht, hts⟩ := h'
      obtain rfl := word_unique hword hword'
      rw [hs.unique ht, ih hss hts]

theorem StackHolds.unique {argv argv' envp envp' : List (List Byte)}
    (h : StackHolds m sp argv envp) (h' : StackHolds m sp argv' envp') :
    argv = argv' ∧ envp = envp' := by
  obtain ⟨a, e, -, ha, he, hargv, henvp⟩ := h
  obtain ⟨a', e', -, ha', he', hargv', henvp'⟩ := h'
  obtain rfl := word_unique ha ha'
  obtain rfl := word_unique he he'
  exact ⟨hargv.unique hargv', henvp.unique henvp'⟩

end

end LinuxRs.Exec
