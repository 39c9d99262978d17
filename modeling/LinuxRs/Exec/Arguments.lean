/-
The argument pages of `execve` (kernel/src/syscall/handler/process/exec.rs,
`ArgumentPages`), and the caller's memory they are filled from.

# Downwards

Strings are copied backwards, byte by byte, from the top of an area of 32
pages that are allocated when a byte first falls into them. What matters
later on is one fact (`ArgumentPages.Packed`): the bytes from the cursor to
the top. A string that is copied comes to stand in front of it, whatever
page boundaries it crosses.

# The caller's memory

A table is a NULL-terminated list of pointers to NUL-terminated strings
(`GivenTable`). The loops of the source that look for the end have no bound;
a loop that has gone through the whole address space never ends, which is
`Failure.endless`.

# Frames

Whether an allocation finds a frame is up to the rest of the system:
`Frames` says so for every allocation of the call.
-/
import LinuxRs.Lib.PartialMemory
import LinuxRs.Lib.Slice

namespace LinuxRs.Exec

open LinuxRs.Lib
open Function (update update_self update_of_ne)

abbrev Byte := BitVec 8

def pageSize : Nat := 4096

def maxArgPages : Nat := 32

/-- How `execve` can end other than by returning to the new image: with an
error, in a loop without end, in a panic, or with the task killed for lack
of memory. -/
inductive Failure
  | noent
  | access
  | noexec
  | nomem
  | endless
  | panicked
  | killed

theorem bind_ok {E A B : Type} {x : Except E A} {f : A → Except E B} {b : B}
    (h : x.bind f = .ok b) : ∃ a, x = .ok a ∧ f a = .ok b := by
  cases x with
  | error e => cases h
  | ok a => exact ⟨a, rfl, h⟩

-- ======== pages

/-- A page by offsets; only the first `pageSize` count. -/
abbrev Page := Nat → Byte

abbrev PageMap := Nat → Option Page

namespace PageMap

def byteAt (p : PageMap) (addr : Nat) : Option Byte :=
  (p (addr / pageSize)).map (· (addr % pageSize))

def fill (p : PageMap) (n : Nat) (page : Page) : PageMap :=
  update p n (some page)

def store (p : PageMap) (addr : Nat) (b : Byte) : PageMap :=
  update p (addr / pageSize) ((p (addr / pageSize)).map fun page =>
      update page (addr % pageSize) b)

variable {p : PageMap} {n addr : Nat} {page : Page} {b : Byte}

theorem fill_keeps (h : p n = none) (a : Nat) :
    KeepsOutside p.byteAt (p.fill n page).byteAt a 0 := by
  intro x v _ hv
  unfold byteAt fill at *
  rw [update_of_ne]
  · exact hv
  · intro heq
    rw [heq, h] at hv
    cases hv

theorem store_writes (h : p (addr / pageSize) = some page) :
    Writes p.byteAt (p.store addr b).byteAt addr [b] := by
  constructor
  · apply pointsTo_singleton_iff.mpr
    unfold byteAt store
    rw [update_self, h]
    show some (update page (addr % pageSize) b (addr % pageSize)) = _
    rw [update_self]
  · intro x v hx hv
    rw [List.length_singleton] at hx
    unfold byteAt store at *
    by_cases hpage : x / pageSize = addr / pageSize
    · have hoffset : x % pageSize ≠ addr % pageSize := by
        unfold pageSize at *
        omega
      rw [hpage] at hv ⊢
      rw [update_self, h] at *
      show some (update page (addr % pageSize) b (x % pageSize)) = _
      rw [update_of_ne hoffset]
      exact hv
    · rw [update_of_ne hpage]
      exact hv

end PageMap

-- ======== argument pages

abbrev Frames := Nat → Bool

/-- `ArgumentPages`, with the allocations made so far. -/
structure ArgumentPages where
  pages : PageMap
  writeCursor : Nat
  allocs : Nat

def argTop : Nat := maxArgPages * pageSize - 4

namespace ArgumentPages

def new : ArgumentPages := ⟨fun _ => none, argTop, 0⟩

/-- `ArgumentPages::ensure_page`; a frame is zeroed when it is allocated. -/
def ensurePage (frames : Frames) (a : ArgumentPages) (offset : Nat) :
    Except Failure ArgumentPages :=
  match a.pages (offset / pageSize) with
  | some _ => .ok a
  | none =>
    if frames a.allocs then
      .ok { a with
        pages := a.pages.fill (offset / pageSize) fun _ => 0#8
        allocs := a.allocs + 1 }
    else .error .nomem

def pushByte (frames : Frames) (byte : Byte) (a : ArgumentPages) :
    Except Failure ArgumentPages :=
  if a.writeCursor = 0 then .error .nomem
  else
    let cursor := a.writeCursor - 1
    (ensurePage frames { a with writeCursor := cursor } cursor).bind fun a =>
      .ok { a with pages := a.pages.store cursor byte }

def pushAll (frames : Frames) : List Byte → ArgumentPages →
    Except Failure ArgumentPages
  | [], a => .ok a
  | byte :: bytes, a => (a.pushByte frames byte).bind (pushAll frames bytes)

def copyKernelString (frames : Frames) (bytes : List Byte)
    (a : ArgumentPages) : Except Failure ArgumentPages :=
  (a.pushByte frames 0#8).bind (pushAll frames bytes.reverse)

end ArgumentPages

-- ======== the caller's memory

abbrev UserMem := Nat → Byte

def addressSpace : Nat := 4294967296

def readU32 (mem : UserMem) (addr : Nat) : BitVec 32 :=
  ofLeBytes32 [mem addr, mem (addr + 1), mem (addr + 2), mem (addr + 3)]

def countFrom (mem : UserMem) (argv : Nat) : Nat → Nat → Option Nat
  | 0, _ => none
  | fuel + 1, count =>
    if readU32 mem (argv + 4 * count) = 0#32 then some count
    else countFrom mem argv fuel (count + 1)

def countUserPtrs (mem : UserMem) (argv : Nat) : Option Nat :=
  if argv = 0 then some 0 else countFrom mem argv addressSpace 0

def strlenFrom (mem : UserMem) (addr : Nat) : Nat → Nat → Option Nat
  | 0, _ => none
  | fuel + 1, len =>
    if mem (addr + len) = 0#8 then some len
    else strlenFrom mem addr fuel (len + 1)

def userStrlen (mem : UserMem) (addr : Nat) : Option Nat :=
  strlenFrom mem addr addressSpace 0

namespace ArgumentPages

/-- The loop of `copy_one_user_string`, over the first bytes of a string
backwards. -/
def pushUserBytes (frames : Frames) (mem : UserMem) (addr : Nat) :
    Nat → ArgumentPages → Except Failure ArgumentPages
  | 0, a => .ok a
  | i + 1, a => (a.pushByte frames (mem (addr + i))).bind
      (pushUserBytes frames mem addr i)

def copyOneUserString (frames : Frames) (mem : UserMem) (addr : Nat)
    (a : ArgumentPages) : Except Failure ArgumentPages :=
  match userStrlen mem addr with
  | none => .error .endless
  | some len => (a.pushByte frames 0#8).bind
      (pushUserBytes frames mem addr len)

/-- `ArgumentPages::copy_user_strings`; a NULL pointer panics. -/
def copyUserStrings (frames : Frames) (mem : UserMem) (argv : Nat) :
    Nat → ArgumentPages → Except Failure ArgumentPages
  | 0, a => .ok a
  | i + 1, a =>
    let addr := readU32 mem (argv + 4 * i)
    if addr = 0#32 then .error .panicked
    else (copyOneUserString frames mem addr.toNat a).bind
      (copyUserStrings frames mem argv i)

end ArgumentPages

-- ======== what the caller gives

def GivenString (mem : UserMem) (addr : Nat) (s : List Byte) : Prop :=
  PointsTo (fun x => some (mem x)) addr (s ++ [0#8]) ∧ 0#8 ∉ s

structure GivenPtrs (mem : UserMem) (argv : Nat) (ss : List (List Byte)) :
    Prop where
  strings : ∀ i s, ss[i]? = some s → readU32 mem (argv + 4 * i) ≠ 0#32
      ∧ GivenString mem (readU32 mem (argv + 4 * i)).toNat s
  ends : readU32 mem (argv + 4 * ss.length) = 0#32

/-- What is passed for a list of strings; a NULL table is an empty one. -/
def GivenTable (mem : UserMem) (argv : Nat) (ss : List (List Byte)) : Prop :=
  (argv = 0 ∧ ss = []) ∨ (argv ≠ 0 ∧ GivenPtrs mem argv ss)

def packed (ss : List (List Byte)) : List Byte :=
  ss.flatMap fun s => s ++ [0#8]

theorem packed_cons (s : List Byte) (ss : List (List Byte)) :
    packed (s :: ss) = s ++ [0#8] ++ packed ss := rfl

theorem packed_singleton (s : List Byte) : packed [s] = s ++ [0#8] :=
  List.append_nil _

theorem packed_append (ss ts : List (List Byte)) :
    packed (ss ++ ts) = packed ss ++ packed ts := List.flatMap_append

variable {mem : UserMem} {addr argv n : Nat} {s : List Byte}
  {ss : List (List Byte)}

theorem GivenString.length_eq (h : GivenString mem addr s)
    (hn : userStrlen mem addr = some n) : n = s.length := by
  obtain ⟨hbytes, hnul⟩ := h
  have hloop : ∀ fuel len, len ≤ s.length →
      strlenFrom mem addr fuel len = some n → n = s.length := by
    intro fuel
    induction fuel with
    | zero =>
      intro len _ h
      cases h
    | succ fuel ih =>
      intro len hle h
      unfold strlenFrom at h
      by_cases hlt : len < s.length
      · have hget := List.getElem?_eq_getElem hlt
        have hbyte : mem (addr + len) = s[len] := by
          apply Option.some.inj
          apply hbytes
          rw [List.getElem?_append_left hlt]
          exact hget
        have hne : mem (addr + len) ≠ 0#8 := by
          intro hzero
          apply hnul
          rw [← hzero, hbyte]
          exact List.getElem_mem hlt
        rw [if_neg hne] at h
        exact ih (len + 1) hlt h
      · have hlen : len = s.length := by omega
        subst hlen
        have hend : mem (addr + s.length) = 0#8 := by
          apply Option.some.inj
          apply hbytes
          rw [List.getElem?_append_right (Nat.le_refl _), Nat.sub_self]
          rfl
        rw [if_pos hend] at h
        exact (Option.some.inj h).symm
  exact hloop _ 0 (Nat.zero_le _) hn

/-- The pointers counted are those of the given strings. -/
theorem GivenTable.length_eq (h : GivenTable mem argv ss)
    (hn : countUserPtrs mem argv = some n) : n = ss.length := by
  unfold countUserPtrs at hn
  rcases h with ⟨hnull, rfl⟩ | ⟨hargv, hptrs⟩
  · rw [if_pos hnull] at hn
    exact (Option.some.inj hn).symm
  · rw [if_neg hargv] at hn
    have hloop : ∀ fuel count, count ≤ ss.length →
        countFrom mem argv fuel count = some n → n = ss.length := by
      intro fuel
      induction fuel with
      | zero =>
        intro count _ h
        cases h
      | succ fuel ih =>
        intro count hle h
        unfold countFrom at h
        by_cases hlt : count < ss.length
        · have hget := List.getElem?_eq_getElem hlt
          rw [if_neg (hptrs.strings count _ hget).1] at h
          exact ih (count + 1) hlt h
        · have hcount : count = ss.length := by omega
          subst hcount
          rw [if_pos hptrs.ends] at h
          exact (Option.some.inj h).symm
    exact hloop _ 0 (Nat.zero_le _) hn

theorem GivenPtrs.tail (h : GivenPtrs mem argv (s :: ss)) :
    GivenPtrs mem (argv + 4) ss := by
  have haddr : ∀ i, argv + 4 + 4 * i = argv + 4 * (i + 1) := by
    intro i
    omega
  refine ⟨fun i t ht => ?_, ?_⟩
  · rw [haddr]
    exact h.strings (i + 1) t ht
  · rw [haddr]
    exact h.ends

-- ======== packing

namespace ArgumentPages

variable {frames : Frames} {a a' : ArgumentPages} {b : Byte} {bs : List Byte}

/-- These bytes are in the pages, from the write cursor to the top. -/
structure Packed (a : ArgumentPages) (bs : List Byte) : Prop where
  cursor : a.writeCursor + bs.length = argTop
  bytes : PointsTo a.pages.byteAt a.writeCursor bs

theorem Packed.new : Packed new [] := ⟨rfl, pointsTo_nil _ _⟩

/-- A byte goes in front of what is packed already. -/
theorem Packed.pushByte (h : Packed a bs) (hpush : a.pushByte frames b = .ok a') :
    Packed a' (b :: bs) := by
  unfold ArgumentPages.pushByte at hpush
  split at hpush
  next => cases hpush
  next hpos =>
    obtain ⟨a₁, hensure, hstore⟩ := bind_ok hpush
    cases hstore
    have hcursor := h.cursor
    have hkept : a₁.writeCursor = a.writeCursor - 1
        ∧ (∃ page, a₁.pages ((a.writeCursor - 1) / pageSize) = some page)
        ∧ PointsTo a₁.pages.byteAt a.writeCursor bs := by
      unfold ensurePage at hensure
      cases hpage : a.pages ((a.writeCursor - 1) / pageSize) with
      | some page =>
        rw [hpage] at hensure
        cases hensure
        exact ⟨rfl, ⟨page, hpage⟩, h.bytes⟩
      | none =>
        rw [hpage] at hensure
        dsimp only at hensure
        split at hensure
        next =>
          cases hensure
          refine ⟨rfl, ⟨_, update_self ..⟩, ?_⟩
          exact (PageMap.fill_keeps hpage 0).pointsTo h.bytes
            (.inr (Nat.zero_le _))
        next => cases hensure
    obtain ⟨hat, ⟨page, hpage⟩, hbytes⟩ := hkept
    have hwrites := PageMap.store_writes (b := b) hpage
    refine ⟨?_, ?_⟩
    · dsimp only
      rw [hat, List.length_cons]
      omega
    · dsimp only
      rw [hat]
      apply pointsTo_cons_iff.mpr
      refine ⟨pointsTo_singleton_iff.mp hwrites.holds, ?_⟩
      rw [Nat.sub_add_cancel (Nat.pos_of_ne_zero hpos)]
      apply hwrites.keeps.pointsTo hbytes
      right
      rw [List.length_singleton]
      omega

theorem Packed.pushAll (h : Packed a bs) (new : List Byte)
    (hpush : pushAll frames new a = .ok a') : Packed a' (new.reverse ++ bs) := by
  induction new generalizing a bs with
  | nil =>
    cases hpush
    exact h
  | cons b new ih =>
    obtain ⟨a₁, hone, hrest⟩ := bind_ok hpush
    rw [List.reverse_cons, List.append_assoc, List.singleton_append]
    exact ih (h.pushByte hone) hrest

theorem Packed.copyKernelString (h : Packed a bs) (bytes : List Byte)
    (hcopy : copyKernelString frames bytes a = .ok a') :
    Packed a' (bytes ++ [0#8] ++ bs) := by
  obtain ⟨a₁, hnul, hbytes⟩ := bind_ok hcopy
  have hall := (h.pushByte hnul).pushAll bytes.reverse hbytes
  rw [List.reverse_reverse] at hall
  rw [List.append_assoc, List.singleton_append]
  exact hall

theorem Packed.pushUserBytes (h : Packed a bs)
    (hs : GivenString mem addr s) (i : Nat) (hi : i ≤ s.length)
    (hcopy : pushUserBytes frames mem addr i a = .ok a') :
    Packed a' (s.take i ++ bs) := by
  induction i generalizing a bs with
  | zero =>
    cases hcopy
    exact h
  | succ i ih =>
    obtain ⟨a₁, hone, hrest⟩ := bind_ok hcopy
    have hlt : i < s.length := hi
    have hbyte : mem (addr + i) = s[i] := by
      apply Option.some.inj
      apply hs.1
      rw [List.getElem?_append_left hlt]
      exact List.getElem?_eq_getElem hlt
    rw [hbyte] at hone
    have hall := ih (h.pushByte hone) (Nat.le_of_lt hlt) hrest
    rw [List.take_succ_eq_append_getElem hlt, List.append_assoc,
      List.singleton_append]
    exact hall

theorem Packed.copyOneUserString (h : Packed a bs)
    (hs : GivenString mem addr s)
    (hcopy : copyOneUserString frames mem addr a = .ok a') :
    Packed a' (s ++ [0#8] ++ bs) := by
  unfold ArgumentPages.copyOneUserString at hcopy
  cases hlen : userStrlen mem addr with
  | none =>
    rw [hlen] at hcopy
    cases hcopy
  | some len =>
    rw [hlen] at hcopy
    obtain rfl := hs.length_eq hlen
    obtain ⟨a₁, hnul, hbytes⟩ := bind_ok hcopy
    have hall := (h.pushByte hnul).pushUserBytes hs s.length
      (Nat.le_refl _) hbytes
    rw [List.take_length] at hall
    rw [List.append_assoc, List.singleton_append]
    exact hall

theorem Packed.copyUserStrings (h : Packed a bs)
    (hss : GivenPtrs mem argv ss) (i : Nat) (hi : i ≤ ss.length)
    (hcopy : copyUserStrings frames mem argv i a = .ok a') :
    Packed a' (packed (ss.take i) ++ bs) := by
  induction i generalizing a bs with
  | zero =>
    cases hcopy
    exact h
  | succ i ih =>
    have hlt : i < ss.length := hi
    obtain ⟨hptr, hs⟩ := hss.strings i _ (List.getElem?_eq_getElem hlt)
    unfold ArgumentPages.copyUserStrings at hcopy
    rw [if_neg hptr] at hcopy
    obtain ⟨a₁, hone, hrest⟩ := bind_ok hcopy
    have hall := ih (h.copyOneUserString hs hone) (Nat.le_of_lt hlt) hrest
    rw [List.take_succ_eq_append_getElem hlt, packed_append,
      packed_singleton, List.append_assoc]
    exact hall

theorem Packed.copyTable (h : Packed a bs) (hss : GivenTable mem argv ss)
    (hcopy : ArgumentPages.copyUserStrings frames mem argv ss.length a
      = .ok a') : Packed a' (packed ss ++ bs) := by
  rcases hss with ⟨-, rfl⟩ | ⟨-, hptrs⟩
  · cases hcopy
    exact h
  · have hall := h.copyUserStrings hptrs _ (Nat.le_refl _) hcopy
    rw [List.take_length] at hall
    exact hall

end ArgumentPages

end LinuxRs.Exec
