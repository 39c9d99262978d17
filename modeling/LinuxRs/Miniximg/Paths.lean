/-
Paths and what they lead to (miniximg/miniximg-core/src/{path,fs}.rs).

# Parsing and showing

The components of a parsed path are names: not empty, neither `.` nor `..`,
no longer than the name field, and without a separator. A path made of names
is parsed back from how it is shown, which is how `write_file_at_path` hands
its parent to `mkdir_all`.

# Walking

`resolve_path` looks a name up in each directory on the way, and so does
`mkdir_all`: where the first arrives at a directory the second has nothing
to make.
-/
import LinuxRs.Miniximg.Opening

namespace LinuxRs.Miniximg

open LinuxRs.Lib
open LinuxRs.Minix

-- ======== splitting

/-- A name that a path may have. -/
structure Component (c : Text) : Prop where
  nonempty : c ≠ []
  notDot : c ≠ dotName
  notDotdot : c ≠ dotdotName
  short : c.length ≤ minixNameLength
  noSlash : slash ∉ c

theorem Component.check {c : Text} (h : Component c) (whole : Text) :
    checkComponent whole c = .ok () := by
  have hlong : ¬ c.length > minixNameLength := Nat.not_lt.mpr h.short
  unfold checkComponent
  rw [if_neg, if_neg hlong]
  rintro (hc | hc | hc)
  · exact h.nonempty hc
  · exact h.notDot hc
  · exact h.notDotdot hc

variable {fs : MinixFileSystem}

end LinuxRs.Miniximg
