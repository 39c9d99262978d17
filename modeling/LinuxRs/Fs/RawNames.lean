/-
Names as bytes: how a pathname comes into the kernel
(kernel/src/segment/uaccess.rs), how it is split (kernel/src/fs/path.rs)
and how names stand in a directory (kernel/src/fs/layout.rs).

# Three conversions

`read_string` makes one character of every byte, so a kernel string has
only characters below U+0100, and a byte from 0x80 on takes two bytes in
it. `Pathname::parent_path` cuts the string at byte positions. And
`DiskDirectoryEntry` stores the bytes of the string in a field of 14
bytes and reads them back as UTF-8. A text is therefore the list of its
characters here, each a byte of the caller, and `encode` gives the bytes
of the string.
-/
import LinuxRs.Fs.Path
import LinuxRs.Lib.Utf8

namespace LinuxRs.Fs

open LinuxRs.Lib.Utf8 (utf8Valid)
open LinuxRs.Lib.ByteIndex (beforeLast lastPart)

abbrev Byte := BitVec 8

abbrev Text := List Byte

def slash : Byte := 0x2f#8

-- ======== UTF-8

def encodeChar (b : Byte) : List Byte :=
  if b < 0x80#8 then [b] else [0xc0#8 ||| (b >>> 6), 0x80#8 ||| (b &&& 0x3f#8)]

def encode (text : Text) : List Byte := text.flatMap encodeChar

def isAscii (text : Text) : Bool := text.all (· < 0x80#8)

theorem encode_of_isAscii {text : Text} (h : isAscii text) :
    encode text = text := by
  induction text with
  | nil => rfl
  | cons b text ih =>
    obtain ⟨hb, htext⟩ := (Bool.and_eq_true _ _).mp h
    have hone : encodeChar b = [b] := if_pos (of_decide_eq_true hb)
    show encodeChar b ++ encode text = b :: text
    rw [hone, ih htext]
    rfl

theorem utf8Valid_of_isAscii {text : Text} (h : isAscii text) :
    utf8Valid text = true := by
  fun_induction utf8Valid text <;> simp_all [isAscii] <;> bv_omega

-- ======== the pathname

def maxPathLen : Nat := 256

/-- `read_string`: up to the first NUL, and not more than `max` bytes. -/
def readString : Nat → List Byte → Text
  | 0, _ => []
  | _, [] => []
  | max + 1, b :: rest => if b = 0#8 then [] else b :: readString max rest

def readPathname (bytes : List Byte) : Text := readString maxPathLen bytes

inductive RawComponent
  | current
  | parent
  | name (n : Text)

def rawDot : Text := [0x2e#8]

def rawDotdot : Text := [0x2e#8, 0x2e#8]

def RawComponent.fromRaw (n : Text) : RawComponent :=
  if n = rawDot then .current else if n = rawDotdot then .parent else .name n

/-- The components that `PathComponents` yields. -/
def rawComponents (raw : Text) : List RawComponent :=
  ((raw.splitOn slash).filter (· ≠ [])).map .fromRaw

/-- `Pathname::parent_path`; `none` is a panic. -/
def rawParentPath (raw : Text) : Option (List RawComponent × Text) :=
  (parentSlices (fun b => (encodeChar b).length) slash raw).map
    fun (parent, basename) => (rawComponents parent, basename)

theorem encodeChar_length (b : Byte) :
    (encodeChar b).length = if b < 0x80#8 then 1 else 2 := by
  unfold encodeChar
  split <;> rfl

theorem encodeChar_length_pos (b : Byte) : 0 < (encodeChar b).length := by
  rw [encodeChar_length]
  split <;> decide

theorem encode_cons (b : Byte) (a : Text) :
    encode (b :: a) = encodeChar b ++ encode a := rfl

-- ======== the split pathname

def splitName (raw : Text) : List RawComponent × Text :=
  (rawComponents (beforeLast slash raw), lastPart slash raw)

/-- The pathnames that can be split: those that do not end in a character
of two bytes. -/
def splits (raw : Text) : Bool := raw.getLast?.all (· < 0x80#8)

theorem rawParentPath_eq (raw : Text) :
    rawParentPath raw = if splits raw then some (splitName raw) else none := by
  have hone : ∀ b, decide ((encodeChar b).length = 1) = decide (b < 0x80#8) := by
    intro b
    rw [encodeChar_length]
    split <;> simp_all
  unfold rawParentPath splits
  rw [parentSlices_eq encodeChar_length_pos rfl]
  simp only [hone]
  split <;> rfl

-- ======== entries

def nameLength : Nat := 14

structure RawEntry where
  inodeNumber : InodeNumber
  name : List Byte
  full : name.length = nameLength

namespace RawEntry

def text (e : RawEntry) : List Byte := e.name.takeWhile (· ≠ 0#8)

def empty : RawEntry := ⟨0#16, List.replicate nameLength 0#8, by decide⟩

/-- The field of 14 bytes for a name; what is too long is cut off here. -/
def padded (name : Text) : List Byte :=
  (encode name ++ List.replicate nameLength 0#8).take nameLength

theorem padded_length (name : Text) : (padded name).length = nameLength := by
  unfold padded
  rw [List.length_take, List.length_append, List.length_replicate]
  omega

/-- `DiskDirectoryEntry::new`, which panics on a name that is too long. -/
def new (name : Text) (inodeNumber : InodeNumber) : Option RawEntry :=
  if (encode name).length ≤ nameLength then
    some ⟨inodeNumber, padded name, padded_length name⟩
  else none

def live (e : RawEntry) : Bool := e.inodeNumber ≠ 0#16

def named (name : Text) (e : RawEntry) : Bool := e.live && e.text = encode name

def readable (e : RawEntry) : Bool := !e.live || utf8Valid e.text

end RawEntry

/-- The scan of `Inode::lookup`; the outer `none` is a panic in
`DiskDirectoryEntry::name`. -/
def scan (name : Text) : List RawEntry → Option (Option InodeNumber)
  | [] => some none
  | e :: rest =>
    if e.inodeNumber = 0#16 then scan name rest
    else if utf8Valid e.text then
      if e.text = encode name then some (some e.inodeNumber)
      else scan name rest
    else none

def searched (name : Text) (entries : List RawEntry) : Option InodeNumber :=
  (entries.find? (·.named name)).map (·.inodeNumber)

def examined (p : RawEntry → Bool) : List RawEntry → List RawEntry
  | [] => []
  | e :: rest => if p e then [e] else e :: examined p rest

/-- The scan compares names until it finds the one, and panics on one that is
no UTF-8. -/
theorem scan_eq (name : Text) (entries : List RawEntry) :
    scan name entries
      = if (examined (·.named name) entries).all (·.readable) then
          some (searched name entries)
        else none := by
  induction entries with
  | nil => rfl
  | cons e rest ih =>
    unfold scan examined searched
    rw [ih, List.find?_cons]
    by_cases hlive : e.inodeNumber = 0#16
    · have hnamed : e.named name = false := by
        simp [RawEntry.named, RawEntry.live, hlive]
      have hread : e.readable = true := by
        simp [RawEntry.readable, RawEntry.live, hlive]
      simp [hlive, hnamed, hread, searched]
    · by_cases hvalid : utf8Valid e.text
      · have hread : e.readable = true := by
          simp [RawEntry.readable, hvalid]
        by_cases htext : e.text = encode name
        · have hnamed : e.named name = true := by
            simp [RawEntry.named, RawEntry.live, hlive, htext]
          rw [if_neg hlive, if_pos hvalid, if_pos htext, if_pos hnamed, hnamed]
          simp [hread]
        · have hnamed : e.named name = false := by
            simp [RawEntry.named, htext]
          simp [hlive, hvalid, htext, hnamed, hread, searched]
      · have hread : e.readable = false := by
          simp [RawEntry.readable, RawEntry.live, hlive, hvalid]
        by_cases hnamed : e.named name
        · simp [hlive, hvalid, hnamed, hread]
        · simp [hlive, hvalid, hnamed, hread]

end LinuxRs.Fs
