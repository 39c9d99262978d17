/-
The buffered reader of the user library (user_lib/src/io/buffered.rs).

# The two positions

The inner reader stands behind the bytes it put into the buffer, so the
logical position is its position less the bytes that are still unread. The
invariant is that the buffer holds the bytes of the stream in front of the
inner position (`Aligned`); every call keeps it, failed ones too, and so
every read is right.

# Seeking

A seek from the current position that stays in the buffer moves `pos` only.
Any other seek drops the buffer and goes to the inner reader as it is. From
the current position that is short by the unread bytes, and it is right
exactly when there are none. A seek that the inner reader refuses has dropped
the buffer by then, and one in the buffer has moved `pos`, so a failed seek
leaves the position only if there was nothing to drop or to move.

# Words

Lengths and positions are words of 32 bits. `consume` adds before it takes
the minimum, so its sum wraps around; a build with overflow checks panics
there.
-/
import LinuxRs.User.BufWriter

namespace LinuxRs.User

open LinuxRs.Lib

-- ======== readers

inductive SeekFrom
  | start (p : Nat)
  | ending (n : Int)
  | current (n : Int)

def SeekFrom.address (length position : Nat) : SeekFrom → Int
  | .start p => p
  | .ending n => length + n
  | .current n => position + n

/-- A reader that can seek: `Read::read` with the length of the buffer it is
given, and `Seek::seek`. -/
structure Inner (σ : Type) where
  read : Nat → σ → Except ErrorKind (List (BitVec 8)) × σ
  seek : SeekFrom → σ → Except ErrorKind Nat × σ

variable {σ : Type}

def Inner.streamPosition (io : Inner σ) (s : σ) : Except ErrorKind Nat × σ :=
  io.seek (.current 0) s

/-- What `Read` and `Seek` promise of a stream: a read returns bytes from the
position on and moves behind them, a seek moves to where it was asked to and
says so, and a call that fails moves nothing. -/
structure Seekable (io : Inner σ) (data : List (BitVec 8)) (position : σ → Nat) :
    Prop where
  read_ok : ∀ {len s bytes s'}, io.read len s = (.ok bytes, s') →
    bytes.length ≤ len ∧ bytes = (data.drop (position s)).take bytes.length ∧
      position s' = position s + bytes.length
  read_err : ∀ {len s e s'}, io.read len s = (.error e, s') →
    position s' = position s
  seek_ok : ∀ {target s p s'}, io.seek target s = (.ok p, s') →
    position s' = p ∧ (p : Int) = target.address data.length (position s)
  seek_err : ∀ {target s e s'}, io.seek target s = (.error e, s') →
    position s' = position s

-- ======== source

/-- `BufReader`: the buffer over the inner reader. -/
structure BufReader (σ : Type) where
  buf : List (BitVec 8)
  pos : Nat
  cap : Nat
  inner : σ

namespace BufReader

def wordSize : Nat := 4294967296

def withCapacity (capacity : BitVec 32) (inner : σ) : BufReader σ :=
  ⟨List.replicate capacity.toNat 0, 0, 0, inner⟩

def buffer (r : BufReader σ) : List (BitVec 8) := (r.buf.take r.cap).drop r.pos

def discardBuffer (r : BufReader σ) : BufReader σ := { r with pos := 0, cap := 0 }

/-- The loop of `fill_buf`, for a number of rounds; `none` when the inner
reader was interrupted in all of them. -/
def refill (io : Inner σ) : Nat → BufReader σ →
    Option (Except ErrorKind Unit × BufReader σ)
  | 0, _ => none
  | rounds + 1, r =>
    match io.read r.buf.length r.inner with
    | (.ok bytes, inner) =>
      some (.ok (), {
        buf := bytes ++ r.buf.drop bytes.length
        pos := 0
        cap := bytes.length
        inner := inner })
    | (.error .interrupted, inner) => refill io rounds { r with inner := inner }
    | (.error e, inner) => some (.error e, { r with inner := inner })

def fillBuf (io : Inner σ) (rounds : Nat) (r : BufReader σ) :
    Option (Except ErrorKind (List (BitVec 8)) × BufReader σ) :=
  let filled := if r.cap ≤ r.pos then refill io rounds r else some (.ok (), r)
  filled.map fun x => (x.1.map fun _ => x.2.buffer, x.2)

def consume (amt : Nat) (r : BufReader σ) : BufReader σ :=
  { r with pos := min ((r.pos + amt) % wordSize) r.cap }

/-- The end of `read`, with what `fill_buf` returned. -/
def readFilled (len : Nat) : Except ErrorKind (List (BitVec 8)) × BufReader σ →
      Except ErrorKind (List (BitVec 8)) × BufReader σ
  | (.error e, r) => (.error e, r)
  | (.ok available, r) =>
    (.ok (available.take len), r.consume (min available.length len))

def read (io : Inner σ) (rounds len : Nat) (r : BufReader σ) :
    Option (Except ErrorKind (List (BitVec 8)) × BufReader σ) :=
  if r.pos = r.cap ∧ r.buf.length ≤ len then
    let x := io.read len r.inner
    some (x.1, { r.discardBuffer with inner := x.2 })
  else (r.fillBuf io rounds).map (readFilled len)

/-- The branch of `seek` for a position in the buffer. -/
def Absorbs (r : BufReader σ) : SeekFrom → Prop
  | .current n => -(r.pos : Int) ≤ n ∧ n ≤ ((r.cap - r.pos : Nat) : Int)
  | _ => False

instance (r : BufReader σ) (target : SeekFrom) : Decidable (r.Absorbs target) := by
  unfold Absorbs
  cases target <;> infer_instance

def nudged (r : BufReader σ) : SeekFrom → Nat
  | .current n => (r.pos + n).toNat
  | _ => r.pos

def seek (io : Inner σ) (target : SeekFrom) (r : BufReader σ) :
    Except ErrorKind Nat × BufReader σ :=
  if r.Absorbs target then
    let r := { r with pos := r.nudged target }
    let x := io.streamPosition r.inner
    (x.1.map fun p => p - (r.cap - r.pos), { r with inner := x.2 })
  else
    let x := io.seek target r.inner
    (x.1, { r.discardBuffer with inner := x.2 })

end BufReader

-- ======== calls

/-- The calls of a reader. -/
inductive ReadCall
  | read (len : Nat)
  | fillBuf
  | consume (amt : BitVec 32)
  | seek (target : SeekFrom)

inductive Reply
  | bytes (result : Except ErrorKind (List (BitVec 8)))
  | done
  | position (result : Except ErrorKind Nat)

/-- One call; `none` when the inner reader is interrupted for longer than a
number of rounds. -/
def BufReader.call (io : Inner σ) (rounds : Nat) (r : BufReader σ) :
    ReadCall → Option (Reply × BufReader σ)
  | .read len => (r.read io rounds len).map fun x => (.bytes x.1, x.2)
  | .fillBuf => (r.fillBuf io rounds).map fun x => (.bytes x.1, x.2)
  | .consume amt => some (.done, r.consume amt.toNat)
  | .seek target => let x := r.seek io target; some (.position x.1, x.2)

def BufReader.step (io : Inner σ) (rounds : Nat) (r : BufReader σ)
    (c : ReadCall) : Option (BufReader σ) :=
  (r.call io rounds c).map Prod.snd

def BufReader.logical (position : σ → Nat) (r : BufReader σ) : Nat :=
  position r.inner - (r.cap - r.pos)

section Law

variable (io : Inner σ) (data : List (BitVec 8)) (position : σ → Nat)

/-- What a call on a buffered reader has to do, with its answer and the state
it leaves. -/
def Lawful (r : BufReader σ) : ReadCall → Reply → BufReader σ → Prop
  | .read len, .bytes (.ok bytes), r' =>
    bytes.length ≤ len ∧
      bytes = (data.drop (r.logical position)).take bytes.length ∧
      r'.logical position = r.logical position + bytes.length
  | .fillBuf, .bytes (.ok bytes), r' =>
    bytes = (data.drop (r.logical position)).take bytes.length ∧
      r'.logical position = r.logical position
  | .consume amt, _, r' =>
    r'.logical position = r.logical position + min amt.toNat r.buffer.length
  | .seek target, .position (.ok p), r' =>
    r'.logical position = p ∧ ∀ n, target = .current n →
      (r'.logical position : Int) = r.logical position + n
  | _, _, r' => r'.logical position = r.logical position

/-- Whenever the call answers, it answers by the law. -/
def Behaves (rounds : Nat) (r : BufReader σ) (c : ReadCall) : Prop :=
  ∀ reply r', r.call io rounds c = some (reply, r') →
    Lawful data position r c reply r'

/-- The inner reader does not refuse the seek. -/
def Grants (r : BufReader σ) (target : SeekFrom) : Prop :=
  ∃ p, (io.seek target r.inner).1 = .ok p

/-- A seek in the buffer moves nothing or learns the inner position; for any
other, nothing is unread, or it is not from the current position and is
granted. -/
def HarmlessSeek (r : BufReader σ) (target : SeekFrom) : Prop :=
  if r.Absorbs target then target = .current 0 ∨ Grants io r (.current 0)
  else r.pos = r.cap ∨ (∀ n, target ≠ .current n) ∧ Grants io r target

/-- A call with a harmless seek, or a `consume` that does not wrap around. -/
def Harmless (r : BufReader σ) : ReadCall → Prop
  | .seek target => HarmlessSeek io r target
  | .consume amt => r.pos + amt.toNat < BufReader.wordSize
  | _ => True

/-- The buffer holds the bytes in front of the position of the reader. -/
structure BufReader.Aligned (r : BufReader σ) : Prop where
  pos_le : r.pos ≤ r.cap
  cap_le : r.cap ≤ r.buf.length
  word : r.buf.length < BufReader.wordSize
  behind : r.cap ≤ position r.inner
  bytes : r.buf.take r.cap = (data.drop (position r.inner - r.cap)).take r.cap

end Law

-- ======== the buffer

variable {io : Inner σ} {data : List (BitVec 8)} {position : σ → Nat}
  {r r' : BufReader σ}

namespace BufReader

theorem aligned_of_empty (h : r.cap = 0) (hpos : r.pos = 0)
    (hword : r.buf.length < wordSize) : r.Aligned data position := by
  refine ⟨?_, ?_, hword, ?_, ?_⟩
  · omega
  · omega
  · omega
  · rw [h, List.take_zero, List.take_zero]

theorem Aligned.with_inner (h : r.Aligned data position) {s : σ}
    (hs : position s = position r.inner) :
    ({ r with inner := s } : BufReader σ).Aligned data position := by
  refine ⟨h.pos_le, h.cap_le, h.word, ?_, ?_⟩
  · dsimp only
    rw [hs]
    exact h.behind
  · dsimp only
    rw [hs]
    exact h.bytes

theorem Aligned.with_pos (h : r.Aligned data position) {pos : Nat}
    (hpos : pos ≤ r.cap) :
    ({ r with pos := pos } : BufReader σ).Aligned data position :=
  ⟨hpos, h.cap_le, h.word, h.behind, h.bytes⟩

theorem length_buffer (h : r.Aligned data position) :
    r.buffer.length = r.cap - r.pos := by
  have hle := h.cap_le
  unfold buffer
  rw [List.length_drop, List.length_take]
  omega

theorem Aligned.buffer_eq (h : r.Aligned data position) :
    r.buffer = (data.drop (r.logical position)).take (r.cap - r.pos) := by
  have hpos := h.pos_le
  have hbehind := h.behind
  unfold buffer logical
  rw [h.bytes, List.drop_take, List.drop_drop]
  congr 2
  omega

theorem Aligned.take_buffer (h : r.Aligned data position) (n : Nat) :
    r.buffer.take n = (data.drop (r.logical position)).take
      (r.buffer.take n).length := by
  have hlen := length_buffer h
  rw [List.length_take, hlen, h.buffer_eq, List.take_take]

/-- An empty buffer is filled with what comes next in the file. -/
theorem refill_spec (hio : Seekable io data position) (rounds : Nat)
    (h : r.Aligned data position) (hempty : r.cap ≤ r.pos)
    {res : Except ErrorKind Unit} (hr : refill io rounds r = some (res, r')) :
    r'.Aligned data position ∧ r'.logical position = r.logical position := by
  induction rounds generalizing r with
  | zero => cases hr
  | succ rounds ih =>
    unfold refill at hr
    split at hr
    next bytes s hread =>
      cases hr
      obtain ⟨hlen, hbytes, hpos⟩ := hio.read_ok hread
      constructor
      · have hword := h.word
        refine ⟨Nat.zero_le _, ?_, ?_, ?_, ?_⟩
        · dsimp only
          rw [List.length_append]
          omega
        · dsimp only
          rw [List.length_append, List.length_drop]
          omega
        · dsimp only
          omega
        · dsimp only
          rw [List.take_left, hpos, Nat.add_sub_cancel]
          exact hbytes
      · unfold logical
        dsimp only
        omega
    next s hread =>
      have hpos := hio.read_err hread
      obtain ⟨haligned, hlogical⟩ := ih (h.with_inner hpos) hempty hr
      refine ⟨haligned, hlogical.trans ?_⟩
      unfold logical
      rw [hpos]
    next e s _ hread =>
      cases hr
      have hpos := hio.read_err hread
      refine ⟨h.with_inner hpos, ?_⟩
      unfold logical
      rw [hpos]

theorem fillBuf_spec (hio : Seekable io data position) {rounds : Nat}
    (h : r.Aligned data position) {res : Except ErrorKind (List (BitVec 8))}
    (hr : r.fillBuf io rounds = some (res, r')) :
    r'.Aligned data position ∧ r'.logical position = r.logical position ∧
      ∀ bytes, res = .ok bytes → bytes = r'.buffer := by
  obtain ⟨⟨done, q⟩, hfilled, heq⟩ := Option.map_eq_some_iff.mp hr
  obtain ⟨hres, rfl⟩ := Prod.mk.inj heq
  have hbytes : ∀ bytes, res = .ok bytes → bytes = q.buffer := by
    intro bytes hok
    rw [← hres] at hok
    cases done with
    | error e => cases hok
    | ok => exact (Except.ok.inj hok).symm
  split at hfilled
  next hempty =>
    obtain ⟨haligned, hlogical⟩ := refill_spec hio rounds h hempty hfilled
    exact ⟨haligned, hlogical, hbytes⟩
  next =>
    cases hfilled
    exact ⟨h, rfl, hbytes⟩

theorem consume_spec (h : r.Aligned data position) {amt : Nat}
    (hamt : amt < wordSize) : (r.consume amt).Aligned data position ∧
      ((r.consume amt).logical position
          = r.logical position + min amt r.buffer.length ↔
        r.pos + amt < wordSize) := by
  have hpos := h.pos_le
  have hcap := h.cap_le
  have hword := h.word
  have hbehind := h.behind
  refine ⟨h.with_pos (Nat.min_le_right _ _), ?_⟩
  rw [length_buffer h]
  unfold consume logical
  dsimp only
  generalize wordSize = word at *
  by_cases hsum : r.pos + amt < word
  · rw [Nat.mod_eq_of_lt hsum]
    omega
  · have hwrap : (r.pos + amt) % word = r.pos + amt - word := by
      rw [Nat.mod_eq_sub_mod (by omega), Nat.mod_eq_of_lt (by omega)]
    rw [hwrap]
    omega

/-- A read gives the next bytes, from the buffer or around it. -/
theorem read_spec (hio : Seekable io data position) {rounds len : Nat}
    (h : r.Aligned data position) {res : Except ErrorKind (List (BitVec 8))}
    (hr : r.read io rounds len = some (res, r')) : r'.Aligned data position ∧
      Lawful data position r (.read len) (.bytes res) r' := by
  have hpos := h.pos_le
  unfold read at hr
  split at hr
  next hbypass =>
    cases hr
    have hlogical : r.logical position = position r.inner := by
      unfold logical
      rw [hbypass.1, Nat.sub_self, Nat.sub_zero]
    refine ⟨aligned_of_empty rfl rfl h.word, ?_⟩
    rcases hread : io.read len r.inner with ⟨res, s⟩
    cases res with
    | ok bytes =>
      obtain ⟨hlen, hbytes, hmoved⟩ := hio.read_ok hread
      refine ⟨hlen, ?_, ?_⟩
      · rw [hlogical]
        exact hbytes
      · rw [hlogical]
        exact hmoved
    | error e =>
      have hstay := hio.read_err hread
      show position s = r.logical position
      rw [hlogical, hstay]
  next =>
    obtain ⟨⟨res', q⟩, hfill, heq⟩ := Option.map_eq_some_iff.mp hr
    obtain ⟨haligned, hlogical, hbytes⟩ := fillBuf_spec hio h hfill
    cases res' with
    | error e =>
      cases heq
      exact ⟨haligned, hlogical⟩
    | ok available =>
      cases heq
      obtain rfl := hbytes available rfl
      have hcap := haligned.cap_le
      have hle := haligned.pos_le
      have hword := haligned.word
      have hlen := length_buffer haligned
      obtain ⟨hkept, hiff⟩ := consume_spec haligned
        (show min q.buffer.length len < wordSize by omega)
      have hmoved := hiff.mpr (by omega)
      refine ⟨hkept, ?_, ?_, ?_⟩
      · rw [List.length_take]
        exact Nat.min_le_left _ _
      · rw [← hlogical]
        exact haligned.take_buffer len
      · rw [hmoved, hlogical, List.length_take]
        omega

/-- A seek that is lawful goes where it says, and drops the buffer. -/
theorem seek_spec (hio : Seekable io data position) (h : r.Aligned data position)
    (target : SeekFrom) :
    (r.seek io target).2.Aligned data position ∧
      (Lawful data position r (.seek target)
          (.position (r.seek io target).1) (r.seek io target).2 ↔
        HarmlessSeek io r target) := by
  have hpos := h.pos_le
  have hbehind := h.behind
  unfold seek
  by_cases habsorbs : r.Absorbs target
  · obtain ⟨n, rfl⟩ : ∃ n, target = .current n := by
      cases target with
      | current n => exact ⟨n, rfl⟩
      | start p => exact habsorbs.elim
      | ending n => exact habsorbs.elim
    rw [if_pos habsorbs]
    obtain ⟨hlow, hhigh⟩ := habsorbs
    have hnudged : ((r.nudged (.current n) : Nat) : Int) = r.pos + n := by
      show (((r.pos + n).toNat : Nat) : Int) = _
      omega
    have hcap : r.nudged (.current n) ≤ r.cap := by omega
    unfold HarmlessSeek Grants
    rw [if_pos ⟨hlow, hhigh⟩]
    rcases hseek : io.streamPosition r.inner with ⟨res, s⟩
    have htold : io.seek (.current 0) r.inner = (res, s) := hseek
    dsimp only
    rw [hseek, htold]
    cases res with
    | ok p =>
      obtain ⟨hp, haddress⟩ := hio.seek_ok hseek
      have haddress : (p : Int) = position r.inner + 0 := haddress
      have hstay : position s = position r.inner := by omega
      refine ⟨(h.with_pos hcap).with_inner hstay,
        iff_of_true ⟨?_, fun m hm => ?_⟩ (.inr ⟨p, rfl⟩)⟩
      · show position s - (r.cap - r.nudged (.current n))
          = p - (r.cap - r.nudged (.current n))
        rw [hp]
      · obtain rfl : n = m := by
          cases hm
          rfl
        show ((position s - (r.cap - r.nudged (.current n)) : Nat) : Int)
          = ((position r.inner - (r.cap - r.pos) : Nat) : Int) + n
        omega
    | error e =>
      have hstay := hio.seek_err hseek
      refine ⟨(h.with_pos hcap).with_inner hstay, ?_⟩
      have hlaw : Lawful data position r (.seek (.current n))
          (.position (.error e))
          { r with pos := r.nudged (.current n), inner := s } ↔ n = 0 := by
        show position s - (r.cap - r.nudged (.current n))
          = position r.inner - (r.cap - r.pos) ↔ n = 0
        omega
      refine hlaw.trans ⟨fun hn => .inl (by rw [hn]), fun hor => ?_⟩
      rcases hor with heq | ⟨p, hp⟩
      · cases heq
        rfl
      · cases hp
  · rw [if_neg habsorbs]
    refine ⟨aligned_of_empty rfl rfl h.word, ?_⟩
    unfold HarmlessSeek Grants
    rw [if_neg habsorbs]
    rcases hseek : io.seek target r.inner with ⟨res, s⟩
    cases res with
    | error e =>
      have hstay := hio.seek_err hseek
      have hlaw : Lawful data position r (.seek target) (.position (.error e))
          { r.discardBuffer with inner := s } ↔ r.pos = r.cap := by
        show position s - (0 - 0) = position r.inner - (r.cap - r.pos) ↔ _
        omega
      refine hlaw.trans ⟨.inl, fun hor => ?_⟩
      rcases hor with hempty | ⟨-, p, hp⟩
      · exact hempty
      · cases hp
    | ok p =>
      obtain ⟨hp, haddress⟩ := hio.seek_ok hseek
      have hmoved : Lawful data position r (.seek target) (.position (.ok p))
          { r.discardBuffer with inner := s } ↔
            ∀ n, target = .current n → (position s : Int)
              = ((position r.inner - (r.cap - r.pos) : Nat) : Int) + n :=
        ⟨fun hl => hl.2, fun hl => ⟨hp, hl⟩⟩
      rw [hmoved]
      cases target with
      | start q =>
        exact iff_of_true nofun (.inr ⟨nofun, p, rfl⟩)
      | ending m =>
        exact iff_of_true nofun (.inr ⟨nofun, p, rfl⟩)
      | current n =>
        have haddress : (p : Int) = position r.inner + n := haddress
        constructor
        · intro hall
          have hn := hall n rfl
          left
          omega
        · intro hharmless m hm
          obtain rfl : n = m := by
            cases hm
            rfl
          rcases hharmless with hempty | ⟨hother, -⟩
          · omega
          · exact absurd rfl (hother n)

/-- Every call leaves the buffer in line with the position of the reader. -/
theorem call_spec (hio : Seekable io data position) {rounds : Nat}
    (h : r.Aligned data position) {c : ReadCall} {reply : Reply}
    (hcall : r.call io rounds c = some (reply, r')) :
    r'.Aligned data position ∧
      (Lawful data position r c reply r' ↔ Harmless io r c) := by
  cases c with
  | read len =>
    obtain ⟨⟨res, q⟩, hr, heq⟩ := Option.map_eq_some_iff.mp hcall
    cases heq
    obtain ⟨haligned, hlaw⟩ := read_spec hio h hr
    exact ⟨haligned, iff_of_true hlaw trivial⟩
  | fillBuf =>
    obtain ⟨⟨res, q⟩, hr, heq⟩ := Option.map_eq_some_iff.mp hcall
    cases heq
    obtain ⟨haligned, hlogical, hbytes⟩ := fillBuf_spec hio h hr
    refine ⟨haligned, iff_of_true ?_ trivial⟩
    cases res with
    | error e => exact hlogical
    | ok bytes =>
      refine ⟨?_, hlogical⟩
      have hall := haligned.take_buffer q.buffer.length
      rw [List.take_length] at hall
      rw [hbytes bytes rfl, ← hlogical]
      exact hall
  | consume amt =>
    cases hcall
    exact consume_spec h amt.isLt
  | seek target =>
    cases hcall
    exact seek_spec hio h target

end BufReader

-- ======== runs

/-- Over any reader that can seek, every call of a run does what it has to
exactly if every seek is harmless, with nothing unread unless it stays in the
buffer or is absolute and granted, and no `consume` wraps around. -/
theorem reader_behaves_iff (hio : Seekable io data position) (rounds : Nat)
    (capacity : BitVec 32) (start : σ) (calls : List ReadCall) :
    Guarded (BufReader.step io rounds) (Behaves io data position rounds)
        (.withCapacity capacity start) calls ↔
      Guarded (BufReader.step io rounds) (Harmless io)
        (.withCapacity capacity start) calls := by
  have hstart : (BufReader.withCapacity capacity start).Aligned data position :=
    BufReader.aligned_of_empty rfl rfl (by
      show (List.replicate capacity.toNat 0).length < _
      rw [List.length_replicate]
      exact capacity.isLt)
  have hcalls : ∀ {r : BufReader σ} {c r'},
      BufReader.step io rounds r c = some r' →
        ∃ reply, r.call io rounds c = some (reply, r') := by
    intro r c r' hstep
    obtain ⟨⟨reply, q⟩, hcall, rfl⟩ := Option.map_eq_some_iff.mp hstep
    exact ⟨reply, hcall⟩
  have hkeep : ∀ (r : BufReader σ) (c : ReadCall) r', r.Aligned data position →
      BufReader.step io rounds r c = some r' → r'.Aligned data position := by
    intro r c r' h hstep
    obtain ⟨reply, hcall⟩ := hcalls hstep
    exact (BufReader.call_spec hio h hcall).1
  have hiff : ∀ (r : BufReader σ) (c : ReadCall), r.Aligned data position →
      (Behaves io data position rounds r c ↔ Harmless io r c) := by
    intro r c h
    constructor
    · intro hbehaves
      cases c with
      | seek target =>
        have hcall : r.call io rounds (.seek target) = some
            (.position (r.seek io target).1, (r.seek io target).2) := rfl
        exact (BufReader.call_spec hio h hcall).2.mp (hbehaves _ _ hcall)
      | read len => exact trivial
      | fillBuf => exact trivial
      | consume amt =>
        have hcall : r.call io rounds (.consume amt) = some
            (.done, r.consume amt.toNat) := rfl
        exact (BufReader.call_spec hio h hcall).2.mp (hbehaves _ _ hcall)
    · intro hharmless reply r' hcall
      exact (BufReader.call_spec hio h hcall).2.mpr hharmless
  constructor
  · exact Guarded.weaken (fun r c r' h _ => hkeep r c r' h)
      (fun r c h => (hiff r c h).mp) hstart
  · exact Guarded.weaken (fun r c r' h _ => hkeep r c r' h)
      (fun r c h => (hiff r c h).mpr) hstart

def memory (data : List (BitVec 8)) : Inner Nat where
  read len s :=
    let bytes := (data.drop s).take len
    (.ok bytes, s + bytes.length)
  seek target s :=
    let p := target.address data.length s
    if p < 0 then (.error (.other 22), s) else (.ok p.toNat, p.toNat)

theorem memory_seekable (data : List (BitVec 8)) :
    Seekable (memory data) data id where
  read_ok := by
    intro len s bytes s' h
    obtain ⟨hbytes, rfl⟩ := Prod.mk.inj h
    cases hbytes
    refine ⟨?_, ?_, rfl⟩
    · rw [List.length_take]
      exact Nat.min_le_left _ _
    · rw [List.length_take]
      exact List.take_eq_take_min
  read_err h := by cases (Prod.mk.inj h).1
  seek_ok h := by
    unfold memory at h
    dsimp only at h
    split at h
    next => cases (Prod.mk.inj h).1
    next hnonneg =>
      obtain ⟨hp, rfl⟩ := Prod.mk.inj h
      cases hp
      exact ⟨rfl, Int.toNat_of_nonneg (Int.not_lt.mp hnonneg)⟩
  seek_err h := by
    unfold memory at h
    dsimp only at h
    split at h
    next => exact (Prod.mk.inj h).2.symm
    next => cases (Prod.mk.inj h).1

/-- Over a file in memory: a byte is read, and a seek by one stays in the
buffer. -/
theorem memory_behaves : Guarded (BufReader.step (memory [1, 2, 3]) 1)
      (Behaves (memory [1, 2, 3]) [1, 2, 3] id 1) (.withCapacity 2 0)
      [.read 1, .seek (.current 1)] := by
  have hiff := reader_behaves_iff (memory_seekable [1, 2, 3]) 1 2 0
    [.read 1, .seek (.current 1)]
  apply hiff.mpr
  exact ⟨trivial, .inr ⟨_, rfl⟩, trivial⟩

/-- After one byte of a buffer of two, a seek by two lands a byte too far, and
a seek in front of the start is refused and moves the position by the unread
byte. -/
theorem seek_overshoots :
    ∃ r, run (BufReader.step (memory [1, 2, 3, 4, 5]) 1) (.withCapacity 2 0)
        [.read 1] = some r ∧ r.logical id = 1 ∧
      (r.seek (memory [1, 2, 3, 4, 5]) (.current 2)).2.logical id = 4 ∧
      (r.seek (memory [1, 2, 3, 4, 5]) (.current (-9))).2.logical id = 2 ∧
      ¬ Behaves (memory [1, 2, 3, 4, 5]) [1, 2, 3, 4, 5] id 1 r
        (.seek (.current 2)) := by
  refine ⟨_, rfl, rfl, rfl, rfl, fun hbehaves => ?_⟩
  have hlaw := hbehaves _ _ rfl
  have hmoved := hlaw.2 2 rfl
  revert hmoved
  decide

end LinuxRs.User
