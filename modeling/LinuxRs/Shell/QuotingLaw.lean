/-
When does quoted text come back (user_program/src/bin/sh/expand.rs:
`expand_word`, `split_fields`, `glob_expand`, `unescape_globs`)? The
second half of the round trip, from the word to its fields.

Both directions rest on one description of the fields: each is a run of
tagged bytes that nothing splits at, escaped byte by byte
(`splitFields_runs`). A byte that is split at is in no field, so the text
it was in cannot come back.
-/
import Mathlib.Data.List.Infix
import LinuxRs.Shell.Quoting

namespace LinuxRs.Shell

-- ======== tags

def QuoteStyle.kept : QuoteStyle → Text → Text
  | .backslash, t => t.flatMap metaEscape
  | _, t => t

/-- An unquoted blank ends a field. -/
def Tag.Splits (ifs : Text) (t : Tag) : Prop :=
  t.quoted = false ∧ (t.byte = '\x01' ∨ t.byte ∈ ifs)

/-- How `split_fields` writes a quoted byte. -/
def globEscape (c : Char) : Text := if isGlobEscape c then ['\\', c] else [c]

def QuoteStyle.written : QuoteStyle → Char → Text
  | .backslash, c => [c]
  | _, c => globEscape c

end LinuxRs.Shell
