/-
Canonical line editing
(kernel/src/driver/character/tty/line_discipline.rs).

# Two views of the queue

The discipline edits one ring of bytes: a rub-out takes bytes back off its
end and stops at a byte that ends a line. `EditLines` is the view of
somebody at a keyboard, a list of finished lines and the line being typed;
rub-outs of that line are functions of it alone and cannot name a finished
line. `canonical_editing` says that the ring always holds the lines of the
reference.

# The input flags

`Termios.received` states the mapping flag by flag. A carriage return that
ICRNL turns into a newline is not turned back by INLCR, which is where the
flags differ from a plain composition (`received_sequential`).
-/
import LinuxRs.Driver.TtyInput
import Mathlib.Data.List.Induction

namespace LinuxRs.Driver

open LinuxRs.Lib

-- ======== the reference

/-- The finished lines, each with the byte that ended it, and the line being
edited. -/
structure EditLines where
  done : List (List (BitVec 8))
  current : List (BitVec 8)
  deriving DecidableEq

namespace EditLines

def bytes (l : EditLines) : List (BitVec 8) := l.done.flatten ++ l.current

def put (eof : BitVec 8) (l : EditLines) (byte : BitVec 8) : EditLines :=
  if boundary eof byte then ⟨l.done ++ [l.current ++ [byte]], []⟩
  else ⟨l.done, l.current ++ [byte]⟩

def kill (l : EditLines) : EditLines := ⟨l.done, []⟩

def rubOut (l : EditLines) : EditLines := ⟨l.done, l.current.dropLast⟩

def ofBytes (eof : BitVec 8) (bytes : List (BitVec 8)) : EditLines :=
  bytes.foldl (put eof) ⟨[], []⟩

end EditLines

namespace Termios

def strip (t : Termios) (byte : BitVec 8) : BitVec 8 :=
  if hasFlag t.inputMode 0o40#32 then byte &&& 0x7f#8 else byte

def lower (t : Termios) (byte : BitVec 8) : BitVec 8 :=
  if hasFlag t.inputMode 0o1000#32 then toAsciiLowercase byte else byte

def crToNl (t : Termios) (byte : BitVec 8) : BitVec 8 :=
  if byte = carriageReturn ∧ hasFlag t.inputMode 0o400#32 then newline
  else byte

def nlToCr (t : Termios) (byte : BitVec 8) : BitVec 8 :=
  if byte = newline ∧ hasFlag t.inputMode 0o100#32 then carriageReturn
  else byte

def ignored (t : Termios) (byte : BitVec 8) : Bool :=
  byte = carriageReturn ∧ hasFlag t.inputMode 0o200#32

/-- The input flags: ISTRIP first, then one of IGNCR, ICRNL and INLCR, and
IUCLC on the outcome. -/
def received (t : Termios) (raw : BitVec 8) : Option (BitVec 8) :=
  let byte := t.strip raw
  if t.ignored byte then none
  else if byte = carriageReturn then some (t.lower (t.crToNl byte))
  else some (t.lower (t.nlToCr byte))

def sequential (t : Termios) (raw : BitVec 8) : Option (BitVec 8) :=
  let byte := t.strip raw
  if t.ignored byte then none
  else some (t.lower (t.nlToCr (t.crToNl byte)))

def flowControl (t : Termios) (byte : BitVec 8) : Bool :=
  byte = t.controlChar .stop ∨ byte = t.controlChar .start

def signals (t : Termios) (byte : BitVec 8) : Bool :=
  hasFlag t.localMode 0o1#32 = true
    ∧ (byte = t.controlChar .intr ∨ byte = t.controlChar .quit)

def erases (t : Termios) (byte : BitVec 8) : Bool :=
  byte = t.controlChar .erase
    ∨ TtyState.isBackspaceAlias byte (t.controlChar .erase)

def edit (t : Termios) (l : EditLines) (byte : BitVec 8) : EditLines :=
  if t.flowControl byte ∨ t.signals byte then l
  else if byte = t.controlChar .kill then l.kill
  else if t.erases byte then l.rubOut
  else l.put (t.controlChar .eof) byte

def type (t : Termios) (l : EditLines) (raw : BitVec 8) : EditLines :=
  (t.received raw).elim l (t.edit l)

/-- Every byte comes while the edited line is shorter than the ring. -/
def Fits (t : Termios) (l : EditLines) : List (BitVec 8) → Prop
  | [] => True
  | raw :: rest => l.bytes.length < ringMask ∧ t.Fits (t.type l raw) rest

instance Fits.decidable (t : Termios) :
    (l : EditLines) → (raws : List (BitVec 8)) → Decidable (t.Fits l raws)
  | _, [] => .isTrue trivial
  | l, raw :: rest =>
    haveI := Fits.decidable t (t.type l raw) rest
    inferInstanceAs (Decidable (_ ∧ _))

end Termios

-- ======== lines of a text

namespace EditLines

variable {eof byte : BitVec 8} {bytes : List (BitVec 8)}

theorem ofBytes_snoc (eof byte : BitVec 8) (bytes : List (BitVec 8)) :
    ofBytes eof (bytes ++ [byte]) = (ofBytes eof bytes).put eof byte := by
  unfold ofBytes
  rw [List.foldl_append]
  rfl

theorem bytes_put (l : EditLines) :
    (l.put eof byte).bytes = l.bytes ++ [byte] := by
  unfold put EditLines.bytes
  split
  next =>
    rw [List.flatten_append, List.flatten_singleton, List.append_nil,
      List.append_assoc]
  next => exact (List.append_assoc ..).symm

theorem bytes_ofBytes (eof : BitVec 8) (bytes : List (BitVec 8)) :
    (ofBytes eof bytes).bytes = bytes := by
  induction bytes using List.reverseRecOn with
  | nil => rfl
  | append_singleton bytes byte ih => rw [ofBytes_snoc, bytes_put, ih]

theorem current_of_boundary (h : boundary eof byte = true) :
    (ofBytes eof (bytes ++ [byte])).current = [] := by
  rw [ofBytes_snoc]
  unfold put
  rw [if_pos h]

theorem rubOut_snoc (h : boundary eof byte = false) :
    (ofBytes eof (bytes ++ [byte])).rubOut = ofBytes eof bytes := by
  rw [ofBytes_snoc]
  unfold put rubOut
  rw [if_neg (ne_true_of_eq_false h), List.dropLast_concat]

theorem rubOut_of_current {l : EditLines} (h : l.current = []) :
    l.rubOut = l := by
  unfold rubOut
  rw [h]
  cases l
  subst h
  rfl

theorem kill_of_current {l : EditLines} (h : l.current = []) : l.kill = l := by
  cases l
  subst h
  rfl

theorem kill_rubOut (l : EditLines) : l.rubOut.kill = l.kill := rfl

theorem length_done (eof : BitVec 8) (bytes : List (BitVec 8)) :
    (ofBytes eof bytes).done.length = bytes.countP (boundary eof) := by
  induction bytes using List.reverseRecOn with
  | nil => rfl
  | append_singleton bytes byte ih =>
    rw [ofBytes_snoc, List.countP_append, List.countP_singleton, ← ih]
    unfold put
    split
    next => exact List.length_append
    next => rfl

end EditLines

namespace Termios

variable {t : Termios} {l : EditLines} {raw : BitVec 8}

theorem done_type (t : Termios) (l : EditLines) (raw : BitVec 8) :
    l.done <+: (t.type l raw).done := by
  unfold type
  cases t.received raw with
  | none => exact List.prefix_rfl
  | some byte =>
    show l.done <+: (t.edit l byte).done
    unfold edit
    split
    next => exact List.prefix_rfl
    next =>
      split
      next => exact List.prefix_rfl
      next =>
        split
        next => exact List.prefix_rfl
        next =>
          unfold EditLines.put
          split
          next => exact List.prefix_append ..
          next => exact List.prefix_rfl

theorem done_foldl_type (t : Termios) (raws : List (BitVec 8))
    (l : EditLines) : l.done <+: (raws.foldl t.type l).done := by
  induction raws generalizing l with
  | nil => exact List.prefix_rfl
  | cons raw raws ih => exact (t.done_type l raw).trans (ih _)

theorem fits_append (t : Termios) (raws rest : List (BitVec 8))
    (l : EditLines) : t.Fits l (raws ++ rest) ↔
      t.Fits l raws ∧ t.Fits (raws.foldl t.type l) rest := by
  induction raws generalizing l with
  | nil => exact (and_iff_right trivial).symm
  | cons raw raws ih =>
    show _ ∧ t.Fits (t.type l raw) (raws ++ rest) ↔ (_ ∧ _) ∧ _
    rw [ih, and_assoc]
    rfl

end Termios

namespace TtyState

variable {s s' : TtyState} {byte raw : BitVec 8}

def lines (s : TtyState) : EditLines :=
  .ofBytes s.eof s.cookedInput.toList

-- ======== rub-outs

theorem eraseLast_none (h : s.eraseLast = none) : s.lines.current = [] := by
  unfold eraseLast at h
  split at h
  next hlast =>
    unfold lines
    rw [RingBuffer.last_none_iff.mp hlast]
    rfl
  next last hlast =>
    split at h
    next hline =>
      unfold lines
      rw [RingBuffer.last_some hlast]
      exact EditLines.current_of_boundary hline
    next => cases h

/-- An erase takes back the last byte of the line being typed. -/
theorem eraseLast_some {echoed : Bool} (h : s.eraseLast = some (s', echoed)) :
    s'.termios = s.termios ∧ s'.lines = s.lines.rubOut
      ∧ s'.cookedInput.len + 1 = s.cookedInput.len := by
  have hturn := eraseLast_turn h
  unfold eraseLast at h
  split at h
  next => cases h
  next last hlast =>
    split at h
    next => cases h
    next hline =>
      have hqueue := RingBuffer.last_some hlast
      cases h
      have hcooked := (s.echoErase_same last).cookedInput
      refine ⟨hturn.termios, ?_, ?_⟩
      · unfold lines eof
        rw [hturn.termios]
        rw [hcooked, hqueue]
        exact (EditLines.rubOut_snoc (Bool.eq_false_iff.mpr hline)).symm
      · dsimp only
        rw [hcooked]
        have hlen := congrArg List.length hqueue
        rw [List.length_append, RingBuffer.length_toList,
          RingBuffer.length_toList, List.length_singleton] at hlen
        exact hlen.symm

theorem eraseLine_lines (fuel : Nat) (h : s.cookedInput.len ≤ fuel) :
    (eraseLine fuel s).1.lines = s.lines.kill := by
  induction fuel generalizing s with
  | zero =>
    rw [← RingBuffer.length_toList] at h
    have hempty : s.lines.current = [] := by
      unfold lines
      rw [List.length_eq_zero_iff.mp (Nat.le_zero.mp h)]
      rfl
    exact (EditLines.kill_of_current hempty).symm
  | succ fuel ih =>
    unfold eraseLine
    split
    next herase =>
      exact (EditLines.kill_of_current (eraseLast_none herase)).symm
    next s₁ echoed herase =>
      obtain ⟨-, hlines, hlen⟩ := eraseLast_some herase
      have hline := ih (s := s₁) (by omega)
      rw [hlines, EditLines.kill_rubOut] at hline
      exact hline

-- ======== the discipline

theorem mapInput_eq (s : TtyState) (raw : BitVec 8) :
    s.mapInput raw = s.termios.received raw := by
  unfold mapInput Termios.received Termios.ignored Termios.crToNl
    Termios.nlToCr Termios.lower Termios.strip
  dsimp only
  generalize (if hasFlag s.termios.inputMode 0o40#32 = true
    then raw &&& 0x7f#8 else raw) = byte
  by_cases hignored : byte = carriageReturn
      ∧ hasFlag s.termios.inputMode 0o200#32 = true
  · rw [if_pos hignored, if_pos (decide_eq_true hignored)]
  · rw [if_neg hignored, if_neg fun h => hignored (of_decide_eq_true h)]
    by_cases hcr : byte = carriageReturn
    · have hnl : ¬ byte = newline := by
        rw [hcr]
        decide
      rw [if_pos hcr, if_neg fun h : byte = newline ∧ _ => hnl h.1]
    · rw [if_neg hcr, if_neg fun h : byte = carriageReturn ∧ _ => hcr h.1]

theorem handleFlowControl_lines :
    (∀ s' flush, s.handleFlowControl byte = some (s', flush) →
      s.termios.flowControl byte = true ∧ s'.lines = s.lines)
    ∧ (s.handleFlowControl byte = none →
      s.termios.flowControl byte = false) := by
  unfold handleFlowControl Termios.flowControl
  by_cases hstop : byte = s.termios.controlChar .stop
  · rw [if_pos hstop]
    refine ⟨fun s' flush h => ?_, nofun⟩
    cases h
    exact ⟨decide_eq_true (.inl hstop), rfl⟩
  · rw [if_neg hstop]
    by_cases hstart : byte = s.termios.controlChar .start
    · rw [if_pos hstart]
      refine ⟨fun s' flush h => ?_, nofun⟩
      cases h
      exact ⟨decide_eq_true (.inr hstart), rfl⟩
    · rw [if_neg hstart]
      refine ⟨nofun, fun _ => ?_⟩
      exact decide_eq_false fun h => h.elim hstop hstart

theorem handleSignal_none_iff :
    (if hasFlag s.termios.localMode 0o1#32 then s.handleSignal byte
      else none) = none ↔ s.termios.signals byte = false := by
  unfold handleSignal Termios.signals
  rw [decide_eq_false_iff_not]
  by_cases hsig : hasFlag s.termios.localMode 0o1#32 = true
  · rw [if_pos hsig]
    by_cases hintr : byte = s.termios.controlChar .intr
    · rw [if_pos hintr]
      exact ⟨nofun, fun h => absurd ⟨hsig, .inl hintr⟩ h⟩
    · rw [if_neg hintr]
      by_cases hquit : byte = s.termios.controlChar .quit
      · rw [if_pos hquit]
        exact ⟨nofun, fun h => absurd ⟨hsig, .inr hquit⟩ h⟩
      · rw [if_neg hquit]
        exact ⟨fun _ h => h.2.elim hintr hquit, fun _ => rfl⟩
  · rw [if_neg hsig]
    exact ⟨fun _ h => hsig h.1, fun _ => rfl⟩

theorem handleEditing_lines :
    (∀ s' flush, s.handleEditing byte = some (s', flush) →
      s'.lines = if byte = s.termios.controlChar .kill then s.lines.kill
        else s.lines.rubOut)
    ∧ (s.handleEditing byte = none ↔ ¬ byte = s.termios.controlChar .kill
        ∧ s.termios.erases byte = false) := by
  unfold handleEditing Termios.erases
  rw [decide_eq_false_iff_not]
  by_cases hkill : byte = s.termios.controlChar .kill
  · rw [if_pos hkill]
    refine ⟨fun s' flush h => ?_, nofun, fun h => absurd hkill h.1⟩
    have hline := eraseLine_lines (s := s) _ (Nat.le_refl _)
    rw [Option.some.inj h] at hline
    rw [if_pos hkill]
    exact hline
  · rw [if_neg hkill]
    by_cases herase : byte = s.termios.controlChar .erase
        ∨ isBackspaceAlias byte (s.termios.controlChar .erase) = true
    · rw [if_pos herase]
      refine ⟨fun s' flush h => ?_, fun h => ?_, fun h => absurd herase h.2⟩
      · rw [if_neg hkill]
        split at h
        next hnone =>
          cases h
          exact (EditLines.rubOut_of_current (eraseLast_none hnone)).symm
        next r hsome =>
          cases h
          exact (eraseLast_some hsome).2.1
      · split at h
        next => cases h
        next => cases h
    · rw [if_neg herase]
      exact ⟨nofun, fun _ => ⟨hkill, herase⟩, fun _ => rfl⟩

theorem accept_cookedInput (s : TtyState) (byte : BitVec 8) :
    (s.accept byte).1.cookedInput = s.cookedInput.push byte := by
  unfold accept
  dsimp only
  split
  next =>
    split
    next =>
      have hsame := echo_same { s with pendingLines := s.pendingLines + 1 } byte
      rw [hsame.cookedInput]
    next => rfl
  next =>
    split
    next => rw [(echo_same s byte).cookedInput]
    next => rfl

theorem accept_lines (hroom : s.cookedInput.isFull = false)
    (byte : BitVec 8) : (s.accept byte).1.lines = s.lines.put s.eof byte := by
  unfold lines
  have heof : (s.accept byte).1.eof = s.eof := by
    unfold eof
    rw [(accept_turn hroom byte).termios]
  rw [heof, accept_cookedInput, RingBuffer.toList_push hroom,
    EditLines.ofBytes_snoc]

/-- A byte edits the lines as the settings say. -/
theorem dispatch_lines (hcanon : s.isCanonical = true)
    (hroom : s.cookedInput.isFull = false) (byte : BitVec 8) :
    (s.dispatch byte).1.lines = s.termios.edit s.lines byte := by
  unfold dispatch Termios.edit
  rw [hcanon, if_pos rfl, if_pos rfl]
  split
  next s₁ flush hflow =>
    obtain ⟨hconsumed, hlines⟩ := handleFlowControl_lines.1 s₁ flush hflow
    rw [if_pos (.inl hconsumed)]
    exact hlines
  next hflow =>
    have hpass := handleFlowControl_lines.2 hflow
    split
    next signal hsignal =>
      have hconsumed : s.termios.signals byte = true := by
        apply Bool.eq_true_of_not_eq_false
        intro hpass
        rw [handleSignal_none_iff.mpr hpass] at hsignal
        cases hsignal
      rw [if_pos (.inr hconsumed)]
    next hsignal =>
      have hquiet := handleSignal_none_iff.mp hsignal
      have hneither : ¬ (s.termios.flowControl byte = true
          ∨ s.termios.signals byte = true) := by
        rw [hpass, hquiet]
        decide
      rw [if_neg hneither]
      split
      next s₁ flush hedit =>
        rw [handleEditing_lines.1 s₁ flush hedit]
        by_cases hkill : byte = s.termios.controlChar .kill
        · rw [if_pos hkill, if_pos hkill]
        · rw [if_neg hkill, if_neg hkill]
          have herases : s.termios.erases byte = true := by
            apply Bool.eq_true_of_not_eq_false
            intro hpass
            rw [handleEditing_lines.2.mpr ⟨hkill, hpass⟩] at hedit
            cases hedit
          rw [if_pos herases]
      next hedit =>
        obtain ⟨hkill, herases⟩ := handleEditing_lines.2.mp hedit
        rw [if_neg hkill, if_neg (ne_true_of_eq_false herases)]
        exact accept_lines hroom byte

theorem processByte_lines (hcanon : s.isCanonical = true)
    (hroom : s.cookedInput.isFull = false) (raw : BitVec 8) :
    (s.processByte raw).1.lines = s.termios.type s.lines raw := by
  unfold processByte Termios.type
  rw [mapInput_eq]
  cases s.termios.received raw with
  | none => rfl
  | some byte => exact dispatch_lines hcanon hroom byte

-- ======== runs

/-- Byte by byte, the lines are edited in the order of arrival. -/
theorem processLoop_lines (fuel : Nat) (hcanon : s.isCanonical = true)
    (hfuel : s.rawInput.len ≤ fuel)
    (hfits : s.termios.Fits s.lines s.rawInput.toList) :
    (processLoop fuel s).1.lines
        = s.rawInput.toList.foldl s.termios.type s.lines
      ∧ (processLoop fuel s).1.rawInput.toList = [] := by
  induction fuel generalizing s with
  | zero =>
    rw [← RingBuffer.length_toList] at hfuel
    have hempty := List.length_eq_zero_iff.mp (Nat.le_zero.mp hfuel)
    rw [hempty]
    exact ⟨rfl, hempty⟩
  | succ fuel ih =>
    cases hpop : s.rawInput.pop with
    | none =>
      have hempty := RingBuffer.pop_none_iff.mp hpop
      have hstop : processLoop (fuel + 1) s = (s, false, []) := by
        unfold processLoop
        rw [hpop]
        split <;> rfl
      rw [hstop, hempty]
      exact ⟨rfl, rfl⟩
    | some popped =>
      obtain ⟨raw, rest⟩ := popped
      have hqueue := RingBuffer.pop_some hpop
      rw [hqueue] at hfits
      obtain ⟨hshort, hfits⟩ := hfits
      have hroom : s.cookedInput.isFull = false := by
        apply RingBuffer.isFull_eq_false
        unfold lines at hshort
        rw [EditLines.bytes_ofBytes] at hshort
        exact hshort
      have hgo : processLoop (fuel + 1) s = (let turn :=
              ({ s with rawInput := rest } : TtyState).processByte raw
            let r := processLoop fuel turn.1
            (r.1, turn.2.1 || r.2.1, turn.2.2 ++ r.2.2)) := by
        show (if s.cookedInput.isFull = true then _ else _) = _
        rw [hroom, if_neg Bool.false_ne_true, hpop]
      have hturn := processByte_turn (s := { s with rawInput := rest })
        hroom raw
      have hlines := processByte_lines (s := { s with rawInput := rest })
        hcanon hroom raw
      have hlen := congrArg List.length hqueue
      rw [List.length_cons, RingBuffer.length_toList,
        RingBuffer.length_toList] at hlen
      have hrest := ih
        (s := (({ s with rawInput := rest } : TtyState).processByte raw).1) (by
          unfold isCanonical
          rw [hturn.termios]
          exact hcanon)
        (by
          rw [hturn.rawInput]
          dsimp only
          omega)
        (by
          rw [hturn.termios, hturn.rawInput, hlines]
          exact hfits)
      rw [hturn.termios, hturn.rawInput, hlines] at hrest
      rw [hgo, hqueue]
      exact hrest

def receiveAll (s : TtyState) (chunks : List (List (BitVec 8))) : TtyState :=
  chunks.foldl (fun s bytes => (s.receiveInput bytes).1) s

/-- What a stream of raw bytes does to the queue: the lines of the
reference, in which no finished line has changed, and a count that is the
number of finished lines. -/
structure Edited (s s' : TtyState) (raws : List (BitVec 8)) : Prop where
  lines : s'.lines = raws.foldl s.termios.type s.lines
  queue : s'.cookedInput.toList = (raws.foldl s.termios.type s.lines).bytes
  committed : s.lines.done <+: s'.lines.done
  counted : s.Lines → s'.pendingLines = s'.lines.done.length
  drained : s'.rawInput.toList = []

/-- The bytes received edit the lines one by one. -/
theorem receiveInput_edited {bytes : List (BitVec 8)}
    (hcanon : s.isCanonical = true) (hraw : s.rawInput.toList = [])
    (hbytes : bytes.length ≤ ringMask) (hfits : s.termios.Fits s.lines bytes) :
    Edited s (s.receiveInput bytes).1 bytes := by
  have hqueue : (bytes.foldl RingBuffer.push s.rawInput).toList = bytes := by
    rw [RingBuffer.toList_foldl_push]
    · rw [hraw, List.nil_append]
    · rw [hraw, List.length_nil]
      omega
  have hloop := processLoop_lines
    (s := { s with rawInput := bytes.foldl RingBuffer.push s.rawInput })
    (bytes.foldl RingBuffer.push s.rawInput).len hcanon (Nat.le_refl _) (by
      rw [hqueue]
      exact hfits)
  rw [hqueue] at hloop
  have hlines : (s.receiveInput bytes).1.lines
      = bytes.foldl s.termios.type s.lines := hloop.1
  refine ⟨hlines, ?_, ?_, fun hcount => ?_, hloop.2⟩
  · rw [← hlines]
    exact (EditLines.bytes_ofBytes ..).symm
  · rw [hlines]
    exact s.termios.done_foldl_type bytes s.lines
  · have hcount := receiveInput_lines hcount bytes
    rw [hcount]
    exact (EditLines.length_done ..).symm

theorem Edited.trans {s'' : TtyState} {raws rest : List (BitVec 8)}
    (h : Edited s s' raws) (h' : Edited s' s'' rest)
    (ht : s'.termios = s.termios) (hl : s.Lines → s'.Lines) :
    Edited s s'' (raws ++ rest) := by
  obtain ⟨hlines, hqueue, hcommitted, hcounted, hdrained⟩ := h'
  rw [ht, h.lines, ← List.foldl_append] at hlines hqueue
  exact ⟨hlines, hqueue, h.committed.trans hcommitted,
    fun hcount => hcounted (hl hcount), hdrained⟩

-- ======== the result

/-- From any canonical state with no raw input left: after any stream of
bytes, received in chunks that fit the raw queue, the cooked queue holds the
lines of the reference. -/
theorem canonical_editing (chunks : List (List (BitVec 8)))
    (hcanon : s.isCanonical = true) (hraw : s.rawInput.toList = [])
    (hchunks : ∀ bytes ∈ chunks, bytes.length ≤ ringMask)
    (hfits : s.termios.Fits s.lines chunks.flatten) :
    Edited s (s.receiveAll chunks) chunks.flatten := by
  induction chunks generalizing s with
  | nil =>
    refine ⟨rfl, (EditLines.bytes_ofBytes ..).symm, List.prefix_rfl,
      fun hcount => ?_, hraw⟩
    exact hcount.trans (EditLines.length_done ..).symm
  | cons bytes chunks ih =>
    rw [List.flatten_cons] at hfits ⊢
    obtain ⟨hfirst, hrest⟩ := (s.termios.fits_append ..).mp hfits
    have hone := receiveInput_edited hcanon hraw
      (hchunks bytes List.mem_cons_self) hfirst
    have ht : (s.receiveInput bytes).1.termios = s.termios :=
      (processLoop_spec _ _).1
    have hcanon' : (s.receiveInput bytes).1.isCanonical = true := by
      unfold isCanonical
      rw [ht]
      exact hcanon
    rw [← hone.lines, ← ht] at hrest
    have hmore := ih hcanon' hone.drained
      (fun b hb => hchunks b (List.mem_cons_of_mem _ hb)) hrest
    exact hone.trans hmore ht fun hcount => receiveInput_lines hcount bytes

/-- A line with a rub-out, and a line that is killed, in two interrupts. -/
theorem canonical_editing_typed :
    Edited (.new .consoleDefault) ((TtyState.new .consoleDefault).receiveAll
        [[97#8, 98#8, 8#8], [13#8, 99#8, 21#8]])
      [97#8, 98#8, 8#8, 13#8, 99#8, 21#8]
    ∧ [97#8, 98#8, 8#8, 13#8, 99#8, 21#8].foldl Termios.consoleDefault.type
        ⟨[], []⟩ = ⟨[[97#8, 10#8]], []⟩ := by
  refine ⟨canonical_editing [[97#8, 98#8, 8#8], [13#8, 99#8, 21#8]]
    (by decide) RingBuffer.toList_new (by decide) ?_, by decide⟩
  show Termios.consoleDefault.Fits ⟨[], []⟩ _
  decide

def crossed : Termios := ⟨0o500#32, 0o2#32, initControlChars⟩

/-- A carriage return under ICRNL and INLCR ends a line, and five mappings
in a row would put it into the line. -/
theorem received_sequential : (TtyState.new crossed).isCanonical = true
    ∧ ((TtyState.new crossed).receiveInput [13#8]).1.lines = ⟨[[10#8]], []⟩
    ∧ (crossed.sequential 13#8).map (crossed.edit ⟨[], []⟩)
      = some ⟨[], [13#8]⟩ := by
  refine ⟨?_, ?_, ?_⟩ <;> decide

end TtyState

end LinuxRs.Driver
