/-
The text reads of the user library: `Read::read_to_string` and
`BufRead::read_line` (user_lib/src/io/mod.rs).

# What a reader delivers

A reader is any state with `read`, `fill_buf` and `consume`. What it delivers
up to its end (`Drains`), or up to a newline (`Lines`), says nothing of the
string being read into: chunks, interruptions in between, and an error where
one ends the delivery.

# The string in between

Both calls take the bytes out of the caller's string, append to them and put
them back, rolled back if what was appended is not text. The error of a read
is returned before they are put back, and the caller is left with an empty
string. So the contents survive exactly if no such error comes, or there were
none.

Strings are their UTF-8 bytes. A read hands over the bytes it put into the
buffer.
-/
import LinuxRs.Lib.Utf8

namespace LinuxRs.User

open LinuxRs.Lib

-- ======== the code

/-- `ErrorKind`, as far as the text reads tell kinds apart. -/
inductive ReadError
  | interrupted
  | invalidData
  | other (code : Nat)

/-- An implementation of `Read` and `BufRead`. -/
structure Reader (σ : Type) where
  read : Nat → σ → Except ReadError (List UInt8) × σ
  fillBuf : σ → Except ReadError (List UInt8) × σ
  consume : Nat → σ → σ

/-- What a call returns, the bytes it leaves and the reader it leaves. -/
structure Got (σ : Type) where
  result : Except ReadError Nat
  buf : List UInt8
  reader : σ

def defaultBufSize : Nat := 1024

def newlineByte : UInt8 := 0x0a

def isUtf8 (bytes : List UInt8) : Bool := bytes.toByteArray.validateUTF8

namespace Reader

variable {σ : Type}

/-- `default_read_to_end`, for a number of rounds; `none` when the reader has
not come to its end by then. -/
def readToEnd (io : Reader σ) (startLen : Nat) :
    Nat → List UInt8 → σ → Option (Got σ)
  | 0, _, _ => none
  | rounds + 1, buf, s =>
    match io.read defaultBufSize s with
    | (.ok [], s) => some ⟨.ok (buf.length - startLen), buf, s⟩
    | (.ok (b :: probe), s) => readToEnd io startLen rounds (buf ++ b :: probe) s
    | (.error .interrupted, s) => readToEnd io startLen rounds buf s
    | (.error e, s) => some ⟨.error e, buf, s⟩

/-- `default_read_until`, for a number of rounds. -/
def readUntil (io : Reader σ) (delim : UInt8) :
    Nat → Nat → List UInt8 → σ → Option (Got σ)
  | 0, _, _, _ => none
  | rounds + 1, total, buf, s =>
    match io.fillBuf s with
    | (.error .interrupted, s) => readUntil io delim rounds total buf s
    | (.error e, s) => some ⟨.error e, buf, s⟩
    | (.ok available, s) =>
      match available.findIdx? (· == delim) with
      | some i =>
        some ⟨.ok (total + (i + 1)), buf ++ available.take (i + 1),
          io.consume (i + 1) s⟩
      | none =>
        let s := io.consume available.length s
        if available.length = 0 then some ⟨.ok total, buf ++ available, s⟩
        else
          readUntil io delim rounds (total + available.length)
            (buf ++ available) s

/-- How both calls end: the bytes go back into the caller's string, which was
emptied at `core::mem::take`, unless the read failed. `valid` is the check of
what was read. -/
def putBack (start : Nat) (valid : List UInt8 → Bool) (r : Got σ) : Got σ :=
  match r.result with
  | .error e => ⟨.error e, [], r.reader⟩
  | .ok n =>
    if valid r.buf then ⟨.ok n, r.buf, r.reader⟩
    else ⟨.error .invalidData, r.buf.take start, r.reader⟩

/-- `read_to_string`, which checks the whole string. -/
def readToString (io : Reader σ) (rounds : Nat) (buf : List UInt8) (s : σ) :
    Option (Got σ) :=
  (io.readToEnd buf.length rounds buf s).map (putBack buf.length isUtf8)

/-- `read_line`, which checks what it appended. -/
def readLine (io : Reader σ) (rounds : Nat) (buf : List UInt8) (s : σ) :
    Option (Got σ) :=
  (io.readUntil newlineByte rounds 0 buf s).map
    (putBack buf.length fun bytes => isUtf8 (bytes.drop buf.length))

-- ======== what a reader delivers

/-- What comes from a reader before its end, and the error that ended it if
it was one. -/
inductive Drains (io : Reader σ) :
    σ → List UInt8 → Option ReadError → σ → Prop
  | ended {s s' : σ} (h : io.read defaultBufSize s = (.ok [], s')) :
      Drains io s [] none s'
  | failed {s s' : σ} {e : ReadError} (he : e ≠ .interrupted)
      (h : io.read defaultBufSize s = (.error e, s')) :
      Drains io s [] (some e) s'
  | interrupted {s s' s'' : σ} {d : List UInt8} {e : Option ReadError}
      (h : io.read defaultBufSize s = (.error .interrupted, s'))
      (hrest : Drains io s' d e s'') : Drains io s d e s''
  | chunk {s s' s'' : σ} {b : UInt8} {bytes d : List UInt8}
      {e : Option ReadError}
      (h : io.read defaultBufSize s = (.ok (b :: bytes), s'))
      (hrest : Drains io s' d e s'') : Drains io s (b :: bytes ++ d) e s''

/-- What comes from a reader up to and with the next newline, or before its
end. -/
inductive Lines (io : Reader σ) :
    σ → List UInt8 → Option ReadError → σ → Prop
  | ended {s s' : σ} (h : io.fillBuf s = (.ok [], s')) :
      Lines io s [] none (io.consume 0 s')
  | failed {s s' : σ} {e : ReadError} (he : e ≠ .interrupted)
      (h : io.fillBuf s = (.error e, s')) : Lines io s [] (some e) s'
  | interrupted {s s' s'' : σ} {d : List UInt8} {e : Option ReadError}
      (h : io.fillBuf s = (.error .interrupted, s'))
      (hrest : Lines io s' d e s'') : Lines io s d e s''
  | newline {s s' : σ} {line more : List UInt8} (hline : newlineByte ∉ line)
      (h : io.fillBuf s = (.ok (line ++ newlineByte :: more), s')) :
      Lines io s (line ++ [newlineByte]) none (io.consume (line.length + 1) s')
  | chunk {s s' s'' : σ} {bytes d : List UInt8} {e : Option ReadError}
      (hne : bytes ≠ []) (hbytes : newlineByte ∉ bytes)
      (h : io.fillBuf s = (.ok bytes, s'))
      (hrest : Lines io (io.consume bytes.length s') d e s'') :
      Lines io s (bytes ++ d) e s''

end Reader

def IsText (bytes : List UInt8) : Prop := ∃ cs, bytes = Utf8.bytes cs

/-- What a text read owes the caller's string, given what the reader
delivered. -/
structure Keeps {σ : Type} (buf delivered : List UInt8)
    (error : Option ReadError) (r : Got σ) : Prop where
  /-- It succeeds exactly if text came and no error, and counts it. -/
  result_ok : ∀ n, r.result = .ok n ↔
    error = none ∧ IsText delivered ∧ n = delivered.length
  /-- On success what came is appended. -/
  appended : ∀ n, r.result = .ok n → r.buf = buf ++ delivered
  /-- On every error the string starts with what it held. -/
  kept : ∀ e, r.result = .error e → buf <+: r.buf
  /-- If what came is not text, it is the string it was. -/
  rolledBack : error = none → ¬ IsText delivered →
    r.result = .error .invalidData ∧ r.buf = buf
  /-- An error of the reader is passed on. -/
  passed : ∀ e, error = some e → r.result = .error e
  /-- The string is text again. -/
  text : IsText r.buf

-- ======== text

theorem isUtf8_iff {bytes : List UInt8} :
    isUtf8 bytes = true ↔ IsText bytes := by
  unfold isUtf8
  rw [ByteArray.validateUTF8_eq_true_iff]
  constructor
  · rintro ⟨cs, hcs⟩
    have hdata := congrArg (fun a : ByteArray => a.data.toList) hcs
    refine ⟨cs, ?_⟩
    unfold List.utf8Encode at hdata
    simpa [Utf8.bytes] using hdata
  · rintro ⟨cs, hcs⟩
    rw [hcs]
    exact ⟨cs, rfl⟩

theorem isText_append_iff {text : List Char} {d : List UInt8} :
    IsText (Utf8.bytes text ++ d) ↔ IsText d := by
  constructor
  · intro h
    obtain ⟨cs, hcs⟩ := h
    obtain ⟨rest, -, hrest⟩ := Utf8.prefix_of_bytes hcs.symm
    exact ⟨rest, hrest⟩
  · intro h
    obtain ⟨cs, rfl⟩ := h
    exact ⟨text ++ cs, (Utf8.bytes_append text cs).symm⟩

theorem isText_nil : IsText [] := ⟨[], rfl⟩

-- ======== the raw reads

namespace Reader

variable {σ : Type} {io : Reader σ} {s s' : σ} {d : List UInt8}
  {e : Option ReadError}

def answer (e : Option ReadError) (n : Nat) : Except ReadError Nat :=
  match e with
  | none => .ok n
  | some e => .error e

/-- With enough rounds all the bytes are there. -/
theorem Drains.readToEnd_eq (h : Drains io s d e s') (startLen : Nat) :
    ∀ buf, ∃ least, ∀ rounds, least ≤ rounds →
      io.readToEnd startLen rounds buf s =
        some ⟨answer e ((buf ++ d).length - startLen), buf ++ d, s'⟩ := by
  induction h with
  | ended h =>
    intro buf
    refine ⟨1, fun rounds hrounds => ?_⟩
    obtain ⟨r, rfl⟩ := Nat.exists_eq_add_one.mpr hrounds
    unfold readToEnd
    rw [h, List.append_nil]
    rfl
  | @failed s s' e he h =>
    intro buf
    refine ⟨1, fun rounds hrounds => ?_⟩
    obtain ⟨r, rfl⟩ := Nat.exists_eq_add_one.mpr hrounds
    unfold readToEnd
    rw [h, List.append_nil]
    cases e with
    | interrupted => exact absurd rfl he
    | invalidData => rfl
    | other code => rfl
  | interrupted h _ ih =>
    intro buf
    obtain ⟨least, hleast⟩ := ih buf
    refine ⟨least + 1, fun rounds hrounds => ?_⟩
    obtain ⟨r, rfl⟩ := Nat.exists_eq_add_one.mpr (Nat.zero_lt_of_lt hrounds)
    unfold readToEnd
    rw [h]
    exact hleast r (Nat.le_of_succ_le_succ hrounds)
  | @chunk s s' s'' b bytes d e h _ ih =>
    intro buf
    obtain ⟨least, hleast⟩ := ih (buf ++ b :: bytes)
    refine ⟨least + 1, fun rounds hrounds => ?_⟩
    obtain ⟨r, rfl⟩ := Nat.exists_eq_add_one.mpr (Nat.zero_lt_of_lt hrounds)
    unfold readToEnd
    rw [h]
    have hrest := hleast r (Nat.le_of_succ_le_succ hrounds)
    rw [List.append_assoc] at hrest
    exact hrest

/-- What the loop returned it has got from the reader. -/
theorem drains_of_readToEnd {startLen : Nat} {r : Got σ} :
    ∀ {rounds buf s}, io.readToEnd startLen rounds buf s = some r →
      ∃ d e, Drains io s d e r.reader := by
  intro rounds
  induction rounds with
  | zero =>
    intro buf s h
    cases h
  | succ rounds ih =>
    intro buf s h
    unfold readToEnd at h
    split at h
    next s' hread =>
      obtain rfl := Option.some.inj h
      exact ⟨[], none, .ended hread⟩
    next b probe s' hread =>
      obtain ⟨d, e, hrest⟩ := ih h
      exact ⟨b :: probe ++ d, e, .chunk hread hrest⟩
    next s' hread =>
      obtain ⟨d, e, hrest⟩ := ih h
      exact ⟨d, e, .interrupted hread hrest⟩
    next e s' he hread =>
      obtain rfl := Option.some.inj h
      exact ⟨[], some e, .failed he hread⟩

theorem findIdx_line {delim : UInt8} {line more : List UInt8}
    (h : delim ∉ line) :
    (line ++ delim :: more).findIdx? (· == delim) = some line.length := by
  induction line with
  | nil => simp [List.findIdx?_cons]
  | cons b line ih =>
    rw [List.mem_cons, not_or] at h
    have hb : (b == delim) = false := by
      rw [beq_eq_false_iff_ne]
      exact fun heq => h.1 heq.symm
    rw [List.cons_append, List.findIdx?_cons, hb, ih h.2]
    rfl

theorem findIdx_none {delim : UInt8} {bytes : List UInt8} :
    bytes.findIdx? (· == delim) = none ↔ delim ∉ bytes := by
  rw [List.findIdx?_eq_none_iff]
  constructor
  · intro h hmem
    have hdelim := h delim hmem
    simp at hdelim
  · intro h b hb
    rw [beq_eq_false_iff_ne]
    rintro rfl
    exact h hb

/-- With enough rounds the line is there. -/
theorem Lines.readUntil_eq (h : Lines io s d e s') :
    ∀ total buf, ∃ least, ∀ rounds, least ≤ rounds →
      io.readUntil newlineByte rounds total buf s =
        some ⟨answer e (total + d.length), buf ++ d, s'⟩ := by
  induction h with
  | ended h =>
    intro total buf
    refine ⟨1, fun rounds hrounds => ?_⟩
    obtain ⟨r, rfl⟩ := Nat.exists_eq_add_one.mpr hrounds
    unfold readUntil
    rw [h]
    rfl
  | @failed s s' e he h =>
    intro total buf
    refine ⟨1, fun rounds hrounds => ?_⟩
    obtain ⟨r, rfl⟩ := Nat.exists_eq_add_one.mpr hrounds
    unfold readUntil
    rw [h, List.append_nil]
    cases e with
    | interrupted => exact absurd rfl he
    | invalidData => rfl
    | other code => rfl
  | interrupted h _ ih =>
    intro total buf
    obtain ⟨least, hleast⟩ := ih total buf
    refine ⟨least + 1, fun rounds hrounds => ?_⟩
    obtain ⟨r, rfl⟩ := Nat.exists_eq_add_one.mpr (Nat.zero_lt_of_lt hrounds)
    unfold readUntil
    rw [h]
    exact hleast r (Nat.le_of_succ_le_succ hrounds)
  | @newline s s' line more hline h =>
    intro total buf
    refine ⟨1, fun rounds hrounds => ?_⟩
    obtain ⟨r, rfl⟩ := Nat.exists_eq_add_one.mpr hrounds
    have htake : (line ++ newlineByte :: more).take (line.length + 1) =
        line ++ [newlineByte] := by
      rw [List.take_length_add_append]
      rfl
    unfold readUntil
    rw [h]
    dsimp only
    rw [findIdx_line hline]
    dsimp only
    rw [htake, List.length_append]
    rfl
  | @chunk s s' s'' bytes d e hne hbytes h _ ih =>
    intro total buf
    obtain ⟨least, hleast⟩ := ih (total + bytes.length) (buf ++ bytes)
    refine ⟨least + 1, fun rounds hrounds => ?_⟩
    obtain ⟨r, rfl⟩ := Nat.exists_eq_add_one.mpr (Nat.zero_lt_of_lt hrounds)
    have hlen : bytes.length ≠ 0 := fun hzero =>
      hne (List.length_eq_zero_iff.mp hzero)
    have hrest := hleast r (Nat.le_of_succ_le_succ hrounds)
    rw [List.append_assoc, Nat.add_assoc, ← List.length_append] at hrest
    unfold readUntil
    rw [h]
    dsimp only
    rw [Iff.mpr findIdx_none hbytes]
    dsimp only
    rw [if_neg hlen]
    exact hrest

theorem line_of_findIdx {delim : UInt8} {bytes : List UInt8} {i : Nat}
    (h : bytes.findIdx? (· == delim) = some i) :
    ∃ line more, bytes = line ++ delim :: more ∧ line.length = i ∧
      delim ∉ line := by
  induction bytes generalizing i with
  | nil => cases h
  | cons b bytes ih =>
    rw [List.findIdx?_cons] at h
    split at h
    next hb =>
      obtain rfl := Option.some.inj h
      obtain rfl := eq_of_beq hb
      exact ⟨[], bytes, rfl, rfl, List.not_mem_nil⟩
    next hb =>
      obtain ⟨j, hj, rfl⟩ := Option.map_eq_some_iff.mp h
      obtain ⟨line, more, rfl, rfl, hline⟩ := ih hj
      refine ⟨b :: line, more, rfl, rfl, fun hmem => ?_⟩
      rcases List.mem_cons.mp hmem with heq | hin
      · rw [heq, beq_self_eq_true] at hb
        exact hb rfl
      · exact hline hin

theorem lines_of_readUntil {r : Got σ} :
    ∀ {rounds total buf s},
      io.readUntil newlineByte rounds total buf s = some r →
      ∃ d e, Lines io s d e r.reader := by
  intro rounds
  induction rounds with
  | zero =>
    intro total buf s h
    cases h
  | succ rounds ih =>
    intro total buf s h
    unfold readUntil at h
    split at h
    next s' hfill =>
      obtain ⟨d, e, hrest⟩ := ih h
      exact ⟨d, e, .interrupted hfill hrest⟩
    next e s' he hfill =>
      obtain rfl := Option.some.inj h
      exact ⟨[], some e, .failed he hfill⟩
    next available s' hfill =>
      split at h
      next i hi =>
        obtain rfl := Option.some.inj h
        obtain ⟨line, more, rfl, rfl, hline⟩ := line_of_findIdx hi
        exact ⟨_, none, .newline hline hfill⟩
      next hnone =>
        have hbytes := Iff.mp findIdx_none hnone
        split at h
        next hzero =>
          obtain rfl := Option.some.inj h
          obtain rfl := List.length_eq_zero_iff.mp hzero
          exact ⟨[], none, .ended hfill⟩
        next hlen =>
          obtain ⟨d, e, hrest⟩ := ih h
          refine ⟨available ++ d, e, .chunk ?_ hbytes hfill hrest⟩
          rintro rfl
          exact hlen rfl

-- ======== the string

@[simp] theorem putBack_reader {start : Nat} {valid : List UInt8 → Bool}
    (r : Got σ) : (putBack start valid r).reader = r.reader := by
  unfold putBack
  split
  next => rfl
  next =>
    split
    next => rfl
    next => rfl

/-- The text is kept exactly if the check is one of what was added. -/
theorem keeps_putBack_iff {text : List Char} {valid : List UInt8 → Bool}
    (hvalid : valid (Utf8.bytes text ++ d) = true ↔ IsText d) (s' : σ) :
    Keeps (Utf8.bytes text) d e (putBack (Utf8.bytes text).length valid
        ⟨answer e d.length, Utf8.bytes text ++ d, s'⟩) ↔
      e = none ∨ text = [] := by
  cases e with
  | some error =>
    constructor
    · intro h
      have hkept : Utf8.bytes text <+: [] := h.kept error rfl
      rw [List.prefix_nil] at hkept
      by_contra hor
      rw [not_or] at hor
      exact Utf8.bytes_ne_nil hor.2 hkept
    · intro h
      rcases h with hnone | rfl
      · cases hnone
      · exact
          { result_ok := fun n => by
              constructor
              · intro hok
                cases hok
              · intro hn
                cases hn.1
            appended := fun n hok => by cases hok
            kept := fun _ _ => List.prefix_rfl
            rolledBack := fun hnone => by cases hnone
            passed := fun e he => by
              obtain rfl := Option.some.inj he
              rfl
            text := isText_nil }
  | none =>
    refine ⟨fun _ => .inl rfl, fun _ => ?_⟩
    unfold putBack answer
    dsimp only
    by_cases hd : IsText d
    · rw [if_pos (hvalid.mpr hd)]
      exact
        { result_ok := fun n => by
            constructor
            · intro hn
              injection hn with hn
              exact ⟨rfl, hd, hn.symm⟩
            · intro hn
              rw [hn.2.2]
          appended := fun _ _ => rfl
          kept := fun _ herr => by cases herr
          rolledBack := fun _ hnot => absurd hd hnot
          passed := fun _ he => by cases he
          text := isText_append_iff.mpr hd }
    · rw [if_neg fun hv => hd (hvalid.mp hv), List.take_left]
      exact
        { result_ok := fun n => by
            constructor
            · intro hok
              cases hok
            · intro hn
              exact absurd hn.2.1 hd
          appended := fun n hok => by cases hok
          kept := fun _ _ => List.prefix_rfl
          rolledBack := fun _ _ => ⟨rfl, rfl⟩
          passed := fun _ he => by cases he
          text := ⟨text, rfl⟩ }

end Reader

open Reader

/-- Whatever a reader does and whatever text the string held: when the reader
comes to an end (to a newline, for `read_line`) the call returns, and it has
kept the string and appended what came exactly if no read failed before that
or the string was empty. A call returns only then. -/
theorem text_reads_keep_iff {σ : Type} (io : Reader σ) (text : List Char)
    (s : σ) :
    ((∀ d e s', Drains io s d e s' → ∃ least, ∀ rounds, least ≤ rounds →
        ∃ r, io.readToString rounds (Utf8.bytes text) s = some r ∧
          r.reader = s' ∧
          (Keeps (Utf8.bytes text) d e r ↔ e = none ∨ text = [])) ∧
      ∀ rounds r, io.readToString rounds (Utf8.bytes text) s = some r →
        ∃ d e, Drains io s d e r.reader) ∧
    (∀ d e s', Lines io s d e s' → ∃ least, ∀ rounds, least ≤ rounds →
        ∃ r, io.readLine rounds (Utf8.bytes text) s = some r ∧
          r.reader = s' ∧
          (Keeps (Utf8.bytes text) d e r ↔ e = none ∨ text = [])) ∧
      ∀ rounds r, io.readLine rounds (Utf8.bytes text) s = some r →
        ∃ d e, Lines io s d e r.reader := by
  refine ⟨⟨?_, ?_⟩, ?_, ?_⟩
  · intro d e s' h
    obtain ⟨least, hleast⟩ :=
      h.readToEnd_eq (Utf8.bytes text).length (Utf8.bytes text)
    refine ⟨least, fun rounds hrounds => ?_⟩
    unfold readToString
    rw [hleast rounds hrounds, List.length_append, Nat.add_sub_cancel_left]
    refine ⟨_, rfl, putBack_reader _, keeps_putBack_iff ?_ s'⟩
    exact isUtf8_iff.trans isText_append_iff
  · intro rounds r h
    obtain ⟨got, hgot, rfl⟩ := Option.map_eq_some_iff.mp h
    rw [putBack_reader]
    exact drains_of_readToEnd hgot
  · intro d e s' h
    obtain ⟨least, hleast⟩ := h.readUntil_eq 0 (Utf8.bytes text)
    refine ⟨least, fun rounds hrounds => ?_⟩
    unfold readLine
    rw [hleast rounds hrounds, Nat.zero_add]
    refine ⟨_, rfl, putBack_reader _, keeps_putBack_iff ?_ s'⟩
    rw [List.drop_left]
    exact isUtf8_iff
  · intro rounds r h
    obtain ⟨got, hgot, rfl⟩ := Option.map_eq_some_iff.mp h
    rw [putBack_reader]
    exact lines_of_readUntil hgot

def broken : Reader Unit where
  read _ s := (.error (.other 5), s)
  fillBuf s := (.error (.other 5), s)
  consume _ s := s

def oneLine : Reader Bool where
  read _ s := (.ok (if s then [0x68, 0x0a] else []), false)
  fillBuf s := (.ok (if s then [0x68, 0x0a] else []), s)
  consume _ _ := false

/-- Reading the line behind a word: it is appended. -/
theorem one_line_kept : ∃ least r,
    oneLine.readLine least (Utf8.bytes ['x']) true = some r ∧
      Keeps (Utf8.bytes ['x']) [0x68, 0x0a] none r := by
  have hline : Lines oneLine true [0x68, 0x0a] none false :=
    @Lines.newline Bool oneLine true true [0x68] [] (by decide) rfl
  obtain ⟨least, hleast⟩ :=
    (text_reads_keep_iff oneLine ['x'] true).2.1 _ _ _ hline
  obtain ⟨r, hr, -, hkeeps⟩ := hleast least (Nat.le_refl least)
  exact ⟨least, r, hr, hkeeps.mpr (.inl rfl)⟩

/-- A word in the string and a reader whose first call fails: the error is
returned, and the word is gone. -/
theorem broken_loses_text :
    broken.readLine 1 (Utf8.bytes ['x']) () =
        some ⟨.error (.other 5), [], ()⟩ ∧
      broken.readToString 1 (Utf8.bytes ['x']) () =
        some ⟨.error (.other 5), [], ()⟩ ∧
      ¬ Utf8.bytes ['x'] <+: [] := by
  refine ⟨rfl, rfl, ?_⟩
  decide

end LinuxRs.User
