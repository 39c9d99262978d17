/-
The stamps of `touch -t` (parse_touch_time, user_program/src/bin/touch.rs).

# Where the code departs from `[[CC]YY]MMDDhhmm[.ss]`

- A stamp of eight digits has no year. The code takes its first two digits
  for one, is left with six, and the slice for the minute panics.
- The two digits of `YY` go through `1900 + YY` and not through
  `resolve_two_digit_year`, so the years from 2000 on are before the epoch
  and refused.
- Second 60 is accepted, and is second 0 of the next minute.

# What is compared

`fields` reads a stamp by its format, from the right: the last eight digits
are month, day, hour and minute, and what is in front of them is the year.
Strings are bytes here; the code slices only between ASCII digits.
-/
import LinuxRs.Dates.Civil

namespace LinuxRs.Dates

abbrev Byte := BitVec 8

def stampText (s : String) : List Byte :=
  s.toList.map fun c => BitVec.ofNat 8 c.toNat

-- ======== the code

inductive Stop
  | panicked
  | refused
  deriving DecidableEq

def isAsciiDigit (b : Byte) : Bool := 0x30#8 ≤ b && b ≤ 0x39#8

def slice (s : List Byte) (i j : Nat) : Except Stop (List Byte) :=
  if i ≤ j ∧ j ≤ s.length then .ok ((s.take j).drop i) else .error .panicked

def digitsValue (raw : List Byte) : Nat :=
  raw.foldl (fun value byte => value * 10 + (byte - 0x30#8).toNat) 0

def parseFixedDigits (raw : List Byte) (len : Nat) : Except Stop Nat :=
  if raw.length ≠ len ∨ ¬raw.all isAsciiDigit then .error .refused
  else .ok (digitsValue raw)

def fixedDigitsAt (s : List Byte) (i j : Nat) : Except Stop Nat :=
  (slice s i j).bind (parseFixedDigits · (j - i))

def resolveTwoDigitYear (year : Nat) : Nat :=
  if year ≤ 68 then 2000 + year else 1900 + year

def checked (x : Int) : Except Stop Int :=
  if -2 ^ 63 ≤ x ∧ x < 2 ^ 63 then .ok x else .error .refused

def unixSecondsUtc (year month day hour minute second : Nat) :
    Except Stop Nat := do
  let days := daysFromCivil year month day
  if days < 0 then throw .refused
  let s ← checked (days * 86400)
  let s ← checked (s + hour * 3600)
  let s ← checked (s + minute * 60)
  let s ← checked (s + second)
  if s < 0 then throw .refused
  return s.toNat

def stampSeconds : List Byte → Except Stop Nat
  | [] => .ok 0
  | _ :: behind => parseFixedDigits behind 2

def stampYear (main : List Byte) : Except Stop (Nat × List Byte) :=
  if main.length = 8 then do
    let year ← fixedDigitsAt main 0 2
    return (resolveTwoDigitYear year, ← slice main 2 main.length)
  else if main.length = 10 then do
    let year ← fixedDigitsAt main 0 2
    return (1900 + year, ← slice main 2 main.length)
  else do
    let year ← fixedDigitsAt main 0 4
    return (year, ← slice main 4 main.length)

def settle (year month day hour minute seconds : Nat) : Except Stop Nat :=
  if month < 1 ∨ 12 < month ∨ day = 0 ∨ daysInMonth year month < day ∨
      23 < hour ∨ 59 < minute ∨ 60 < seconds then .error .refused
  else unixSecondsUtc year month day hour minute seconds

/-- `parse_touch_time`, in seconds from the epoch. -/
def parseTouchTime (raw : List Byte) : Except Stop Nat :=
  let main := raw.takeWhile (· ≠ 0x2e#8)
  (stampSeconds (raw.dropWhile (· ≠ 0x2e#8))).bind fun seconds =>
    if main.length ∉ [8, 10, 12] ∨ ¬main.all isAsciiDigit then .error .refused
    else (stampYear main).bind fun (year, rest) => do
      let month ← fixedDigitsAt rest 0 2
      let day ← fixedDigitsAt rest 2 4
      let hour ← fixedDigitsAt rest 4 6
      let minute ← fixedDigitsAt rest 6 8
      settle year month day hour minute seconds

-- ======== the format

/-- The digits of a stamp by what they stand for. -/
structure Fields where
  yearDigits : List Byte
  month : Nat
  day : Nat
  hour : Nat
  minute : Nat
  second : Nat

def secondField : List Byte → Option Nat
  | [] => some 0
  | _ :: behind =>
    if behind.length = 2 ∧ behind.all isAsciiDigit then
      some (digitsValue behind)
    else none

def fields (raw : List Byte) : Option Fields :=
  let main := raw.takeWhile (· ≠ 0x2e#8)
  let second := secondField (raw.dropWhile (· ≠ 0x2e#8))
  if main.length ∈ [8, 10, 12] ∧ main.all isAsciiDigit then
    let rest := main.drop (main.length - 8)
    second.map fun second => {
      yearDigits := main.take (main.length - 8)
      month := digitsValue (rest.take 2)
      day := digitsValue ((rest.drop 2).take 2)
      hour := digitsValue ((rest.drop 4).take 2)
      minute := digitsValue ((rest.drop 6).take 2)
      second := second }
  else none

/-- The year that a stamp denotes, when the year is `now`. -/
def Fields.year (now : Int) (f : Fields) : Int :=
  match f.yearDigits.length with
  | 0 => now
  | 2 => resolveTwoDigitYear (digitsValue f.yearDigits)
  | _ => digitsValue f.yearDigits

/-- Fields that are a date and a time of day, leap second included. -/
structure Fields.InRange (now : Int) (f : Fields) : Prop where
  date : Valid (f.year now) f.month f.day
  hour : f.hour ≤ 23
  minute : f.minute ≤ 59
  second : f.second ≤ 60
  epoch : 0 ≤ daysFromCivil (f.year now) f.month f.day

/-- No panic, and a time is accepted exactly if it is one and then is the time
named. -/
structure Correct (now : Int) (raw : List Byte) : Prop where
  no_panic : parseTouchTime raw ≠ .error .panicked
  accepts : (∃ t, parseTouchTime raw = .ok t)
    ↔ ∃ f, fields raw = some f ∧ f.InRange now
  converts : ∀ t f, parseTouchTime raw = .ok t → fields raw = some f →
    let c := Calendar.fromUnix t
    c.year = f.year now ∧ c.month = f.month ∧ c.day = f.day ∧
      c.hour = f.hour ∧ c.minute = f.minute ∧ c.second = f.second

/-- The stamps on which the code keeps to the format: those with a year,
unless the date is in range and has a year of two digits up to 68 or the
second 60. -/
def Sound (now : Int) (raw : List Byte) : Prop :=
  ∀ f, fields raw = some f → f.yearDigits ≠ [] ∧
    (f.InRange now → f.second ≠ 60 ∧
      ¬(f.yearDigits.length = 2 ∧ digitsValue f.yearDigits ≤ 68))

-- ======== reading a stamp

variable {raw main : List Byte} {now : Int} {f : Fields}

theorem slice_digits (hall : main.all isAsciiDigit = true) {i j : Nat}
    (hij : i ≤ j) (hj : j ≤ main.length) :
    slice main i j = .ok ((main.drop i).take (j - i)) ∧
      ((main.drop i).take (j - i)).length = j - i ∧
      ((main.drop i).take (j - i)).all isAsciiDigit = true := by
  refine ⟨?_, ?_, List.all_eq_true.mpr fun b hb => ?_⟩
  · unfold slice
    rw [if_pos ⟨hij, hj⟩, List.drop_take]
  · rw [List.length_take, List.length_drop]
    omega
  · exact List.all_eq_true.mp hall b
      (List.mem_of_mem_drop (List.mem_of_mem_take hb))

theorem fixedDigitsAt_ok (hall : main.all isAsciiDigit = true) {i j : Nat}
    (hij : i ≤ j) (hj : j ≤ main.length) :
    fixedDigitsAt main i j
      = .ok (digitsValue ((main.drop i).take (j - i))) := by
  obtain ⟨hslice, hlen, hdigits⟩ := slice_digits hall hij hj
  unfold fixedDigitsAt
  rw [hslice]
  show parseFixedDigits _ _ = _
  unfold parseFixedDigits
  rw [if_neg (by simp only [hlen, hdigits]; simp)]

theorem stampSeconds_eq (tail : List Byte) : stampSeconds tail
    = match secondField tail with
      | some second => .ok second
      | none => .error .refused := by
  cases tail with
  | nil => rfl
  | cons b behind =>
    simp only [stampSeconds, secondField, parseFixedDigits]
    by_cases hfixed : behind.length = 2 ∧ behind.all isAsciiDigit
    · rw [if_pos hfixed, if_neg (by rw [not_or, not_not, not_not]; exact hfixed)]
    · rw [if_neg hfixed, if_pos (not_and_or.mp hfixed)]

def Fields.codeYear (f : Fields) : Nat :=
  if f.yearDigits.length = 2 then 1900 + digitsValue f.yearDigits
  else digitsValue f.yearDigits

theorem stampYear_eq (hall : main.all isAsciiDigit = true)
    (hlen : main.length = 10 ∨ main.length = 12) :
    stampYear main = .ok
      (if main.length = 10 then 1900 + digitsValue (main.take 2)
        else digitsValue (main.take 4), main.drop (main.length - 8)) := by
  unfold stampYear
  rcases hlen with hlen | hlen
  · have hyear := fixedDigitsAt_ok hall (show 0 ≤ 2 by decide) (by omega)
    have hrest := (slice_digits hall (show 2 ≤ main.length by omega)
      (Nat.le_refl _)).1
    rw [if_neg (by omega), if_pos hlen, hyear, hrest, if_pos hlen,
      List.take_of_length_le
        (show (main.drop 2).length ≤ main.length - 2 by
          rw [List.length_drop]), hlen]
    rfl
  · have hyear := fixedDigitsAt_ok hall (show 0 ≤ 4 by decide) (by omega)
    have hrest := (slice_digits hall (show 4 ≤ main.length by omega)
      (Nat.le_refl _)).1
    rw [if_neg (by omega), if_neg (by omega), hyear, hrest, if_neg (by omega),
      List.take_of_length_le
        (show (main.drop 4).length ≤ main.length - 4 by
          rw [List.length_drop]), hlen]
    rfl

theorem stampYear_eight (hall : main.all isAsciiDigit = true)
    (hlen : main.length = 8) : ∃ year rest, stampYear main = .ok (year, rest) ∧
      rest.length = 6 ∧ rest.all isAsciiDigit = true := by
  have hyear := fixedDigitsAt_ok hall (show 0 ≤ 2 by decide) (by omega)
  obtain ⟨hrest, hsix, hdigits⟩ :=
    slice_digits hall (show 2 ≤ main.length by omega) (Nat.le_refl _)
  refine ⟨resolveTwoDigitYear (digitsValue ((main.drop 0).take (2 - 0))), _, ?_,
    hsix.trans (by omega), hdigits⟩
  unfold stampYear
  rw [if_pos hlen, hyear, hrest]
  rfl

/-- `parse_touch_time` takes the fields apart and settles them. -/
theorem parseTouchTime_eq (raw : List Byte) :
    parseTouchTime raw = match fields raw with
      | none => .error .refused
      | some f =>
        if f.yearDigits = [] then .error .panicked
        else settle f.codeYear f.month f.day f.hour f.minute f.second := by
  unfold parseTouchTime fields
  generalize raw.takeWhile (· ≠ 0x2e#8) = main
  dsimp only
  rw [stampSeconds_eq]
  cases secondField (raw.dropWhile (· ≠ 0x2e#8)) with
  | none =>
    simp only [Option.map_none, ite_self]
    rfl
  | some second =>
    show (if _ then _ else _) = _
    by_cases hform : main.length ∈ [8, 10, 12] ∧ main.all isAsciiDigit
    · rw [if_pos hform, if_neg (by rw [not_or, not_not, not_not]; exact hform)]
      obtain ⟨hlen, hall⟩ := hform
      simp only [List.mem_cons, List.not_mem_nil, or_false] at hlen
      simp only [Option.map_some]
      rcases hlen with hlen | hlen
      · obtain ⟨year, rest, hyear, hsix, hdigits⟩ := stampYear_eight hall hlen
        have hmonth := fixedDigitsAt_ok hdigits (show 0 ≤ 2 by decide) (by omega)
        have hday := fixedDigitsAt_ok hdigits (show 2 ≤ 4 by decide) (by omega)
        have hhour := fixedDigitsAt_ok hdigits (show 4 ≤ 6 by decide) (by omega)
        have hminute : fixedDigitsAt rest 6 8 = .error .panicked := by
          unfold fixedDigitsAt slice
          rw [if_neg (by omega)]
          rfl
        rw [hyear, hlen, if_pos (show main.take (8 - 8) = [] from rfl)]
        simp only [Except.bind, bind, hmonth, hday, hhour, hminute]
      · have hback : 8 ≤ main.length := by omega
        obtain ⟨-, hlast, hdigits⟩ := slice_digits hall
          (show main.length - 8 ≤ main.length by omega) (Nat.le_refl _)
        rw [List.take_of_length_le (by rw [List.length_drop])] at hlast hdigits
        have hmonth := fixedDigitsAt_ok hdigits (show 0 ≤ 2 by decide) (by omega)
        have hday := fixedDigitsAt_ok hdigits (show 2 ≤ 4 by decide) (by omega)
        have hhour := fixedDigitsAt_ok hdigits (show 4 ≤ 6 by decide) (by omega)
        have hminute := fixedDigitsAt_ok hdigits (show 6 ≤ 8 by decide) (by omega)
        have hne : main.take (main.length - 8) ≠ [] := by
          intro hnil
          have := congrArg List.length hnil
          rw [List.length_take, List.length_nil] at this
          omega
        rw [stampYear_eq hall hlen, if_neg hne]
        simp only [Except.bind, bind, hmonth, hday, hhour, hminute,
          List.drop_zero, Nat.sub_zero, Nat.reduceSub]
        congr 1
        unfold Fields.codeYear
        dsimp only
        rw [List.length_take]
        rcases hlen with hlen | hlen <;> rw [hlen] <;> rfl
    · rw [if_neg hform, if_pos (not_and_or.mp hform)]

-- ======== the time of a stamp

theorem digitsValue_lt (h : main.all isAsciiDigit = true) :
    digitsValue main < 10 ^ main.length := by
  have hfold : ∀ (l : List Byte) (v : Nat), l.all isAsciiDigit = true →
      l.foldl (fun value byte => value * 10 + (byte - 0x30#8).toNat) v
        < (v + 1) * 10 ^ l.length := by
    intro l
    induction l with
    | nil =>
      intro v _
      simp
    | cons b l ih =>
      intro v hl
      rw [List.all_cons, Bool.and_eq_true] at hl
      have hb : (b - 0x30#8).toNat ≤ 9 := by
        have := hl.1
        unfold isAsciiDigit at this
        simp only [Bool.and_eq_true, decide_eq_true_eq] at this
        bv_omega
      have hrest := ih (v * 10 + (b - 0x30#8).toNat) hl.2
      rw [List.foldl_cons, List.length_cons, Nat.pow_succ']
      calc _ < (v * 10 + (b - 0x30#8).toNat + 1) * 10 ^ l.length := hrest
        _ ≤ (v + 1) * 10 * 10 ^ l.length :=
            Nat.mul_le_mul_right _ (by omega)
        _ = (v + 1) * (10 * 10 ^ l.length) := Nat.mul_assoc _ _ _
  have := hfold main 0 h
  rwa [Nat.zero_add, Nat.one_mul] at this

theorem fields_year (h : fields raw = some f) :
    f.yearDigits.all isAsciiDigit = true ∧
      (f.yearDigits.length = 0 ∨ f.yearDigits.length = 2 ∨
        f.yearDigits.length = 4) := by
  unfold fields at h
  dsimp only at h
  split at h
  next hform =>
    obtain ⟨second, -, rfl⟩ := Option.map_eq_some_iff.mp h
    obtain ⟨hlen, hall⟩ := hform
    refine ⟨List.all_eq_true.mpr fun b hb =>
      List.all_eq_true.mp hall b (List.mem_of_mem_take hb), ?_⟩
    simp only [List.mem_cons, List.not_mem_nil, or_false] at hlen
    rw [List.length_take]
    omega
  next => cases h

def secondsOf (year : Int) (month day hour minute second : Nat) : Int :=
  daysFromCivil year month day * 86400 + hour * 3600 + minute * 60 + second

theorem daysFromCivil_lt {year : Int} {month day : Nat}
    (hvalid : Valid year month day) :
    daysFromCivil year month day
      < 365 * year + year / 4 - year / 100 + year / 400 - 719162 := by
  have hmonth := hvalid.inYear
  have hday := hvalid.inMonth.2
  have hlong : daysInMonth year month ≤ 31 := by
    unfold daysInMonth
    split_ifs <;> omega
  rw [daysFromCivil_closed _ _ hmonth.1 hmonth.2]
  dsimp only
  unfold monthStart
  split <;> omega

/-- The fields are settled exactly if they are a date and a time from 1970
on. -/
theorem settle_spec {year : Nat} (month day hour minute second : Nat)
    (hyear : year ≤ 9999) :
    ((Valid year month day ∧ hour ≤ 23 ∧ minute ≤ 59 ∧ second ≤ 60 ∧
        0 ≤ daysFromCivil year month day) ∧
      settle year month day hour minute second
        = .ok (secondsOf year month day hour minute second).toNat)
    ∨ (¬(Valid year month day ∧ hour ≤ 23 ∧ minute ≤ 59 ∧ second ≤ 60 ∧
        0 ≤ daysFromCivil year month day) ∧
      settle year month day hour minute second = .error .refused) := by
  unfold settle
  split
  next hbad =>
    refine .inr ⟨fun hgood => ?_, rfl⟩
    obtain ⟨⟨hmonth, hday⟩, hhour, hminute, hsecond, -⟩ := hgood
    omega
  next hranges =>
    have hvalid : Valid year month day := ⟨by omega, by omega⟩
    unfold unixSecondsUtc
    dsimp only
    by_cases hepoch : daysFromCivil year month day < 0
    · rw [if_pos hepoch]
      exact .inr ⟨fun hgood => by omega, rfl⟩
    · rw [if_neg hepoch]
      refine .inl ⟨⟨hvalid, by omega, by omega, by omega, by omega⟩, ?_⟩
      have hend := daysFromCivil_lt hvalid
      have hdays : daysFromCivil year month day < 10000000 := by omega
      have hpass (x : Int) (h : 0 ≤ x ∧ x < 1000000000000) :
          checked x = .ok x := if_pos ⟨by omega, by omega⟩
      have hfirst := hpass (daysFromCivil year month day * 86400) (by omega)
      have hhour := hpass (daysFromCivil year month day * 86400 + hour * 3600)
        (by omega)
      have hminute := hpass (daysFromCivil year month day * 86400 + hour * 3600
        + minute * 60) (by omega)
      have hsecond := hpass (secondsOf year month day hour minute second)
        (by unfold secondsOf; omega)
      unfold secondsOf at hsecond ⊢
      simp only [bind, Except.bind, hfirst, hhour, hminute, hsecond]
      rw [if_neg (by omega)]
      rfl

theorem fromUnix_secondsOf {year : Int} {month day hour minute second : Nat}
    (hvalid : Valid year month day) (hhour : hour ≤ 23) (hminute : minute ≤ 59)
    (hsecond : second ≤ 59) :
    let c := Calendar.fromUnix (secondsOf year month day hour minute second)
    c.year = year ∧ c.month = month ∧ c.day = day ∧ c.hour = hour ∧
      c.minute = minute ∧ c.second = second := by
  have hdays : secondsOf year month day hour minute second / 86400
      = daysFromCivil year month day := by
    unfold secondsOf
    omega
  have htime : asU64 (secondsOf year month day hour minute second % 86400)
      = hour * 3600 + minute * 60 + second := by
    unfold asU64 secondsOf
    omega
  unfold Calendar.fromUnix
  dsimp only
  rw [hdays, htime, civilFromDays_daysFromCivil hvalid]
  refine ⟨rfl, rfl, rfl, ?_, ?_, ?_⟩ <;> omega

theorem fromUnix_leap {year : Int} {month day hour minute : Nat} :
    (Calendar.fromUnix (secondsOf year month day hour minute 60)).second
      ≠ 60 := by
  show asU64 _ % 60 ≠ 60
  omega

-- ======== the stamps that are read right

theorem Fields.codeYear_spec (now : Int) (h : fields raw = some f)
    (hne : f.yearDigits ≠ []) :
    f.codeYear ≤ 9999 ∧
      ((f.codeYear : Int) = f.year now ∨
        f.yearDigits.length = 2 ∧ digitsValue f.yearDigits ≤ 68) ∧
      (f.yearDigits.length = 2 → digitsValue f.yearDigits ≤ 68 →
        f.codeYear ≤ 1968) := by
  obtain ⟨hall, hlen⟩ := fields_year h
  have hvalue := digitsValue_lt hall
  have hpos := List.length_pos_iff.mpr hne
  unfold Fields.codeYear Fields.year resolveTwoDigitYear
  rcases hlen with hzero | htwo | hfour
  · omega
  · rw [htwo] at hvalue ⊢
    simp only [if_true]
    refine ⟨by omega, ?_, fun _ _ => by omega⟩
    by_cases hsmall : digitsValue f.yearDigits ≤ 68
    · exact .inr ⟨trivial, hsmall⟩
    · left
      rw [if_neg hsmall]
  · rw [hfour] at hvalue ⊢
    exact ⟨by simp; omega, .inl rfl, fun htwo => by simp at htwo⟩

theorem before_epoch {year : Nat} {month day : Nat} (hyear : year ≤ 1968)
    (hvalid : Valid year month day) : daysFromCivil year month day < 0 := by
  have hend := daysFromCivil_lt hvalid
  omega

theorem correct_of_refused (hrun : parseTouchTime raw = .error .refused)
    (hout : ∀ f, fields raw = some f → ¬f.InRange now) : Correct now raw := by
  refine ⟨?_, ⟨fun h => ?_, fun h => ?_⟩, fun t f h => ?_⟩
  · rw [hrun]
    decide
  · obtain ⟨t, ht⟩ := h
    rw [hrun] at ht
    cases ht
  · obtain ⟨f, hf, hin⟩ := h
    exact absurd hin (hout f hf)
  · rw [hrun] at h
    cases h

theorem sound_iff (hf : fields raw = some f) :
    Sound now raw ↔ f.yearDigits ≠ [] ∧ (f.InRange now → f.second ≠ 60 ∧
      ¬(f.yearDigits.length = 2 ∧ digitsValue f.yearDigits ≤ 68)) := by
  refine ⟨fun h => h f hf, fun h g hg => ?_⟩
  obtain rfl := Option.some.inj (hg.symm.trans hf)
  exact h

theorem correct_iff_of_refused (hf : fields raw = some f)
    (hrun : parseTouchTime raw = .error .refused) :
    Correct now raw ↔ ¬f.InRange now := by
  refine ⟨fun h hin => ?_, fun h => correct_of_refused hrun fun g hg => ?_⟩
  · obtain ⟨t, ht⟩ := h.accepts.mpr ⟨f, hf, hin⟩
    rw [hrun] at ht
    cases ht
  · obtain rfl := Option.some.inj (hg.symm.trans hf)
    exact h

/-- Of what is accepted, only second 60 names another moment. -/
theorem correct_iff_of_accepted (hf : fields raw = some f)
    (hin : f.InRange now)
    (hrun : parseTouchTime raw = .ok (secondsOf (f.year now) f.month f.day
      f.hour f.minute f.second).toNat) :
    Correct now raw ↔ f.second ≠ 60 := by
  have hnonneg : ((secondsOf (f.year now) f.month f.day f.hour f.minute
      f.second).toNat : Int) = secondsOf (f.year now) f.month f.day f.hour
        f.minute f.second := by
    have := hin.epoch
    unfold secondsOf
    omega
  refine ⟨fun h hsixty => ?_, fun h => ⟨?_, ?_, fun t g ht hg => ?_⟩⟩
  · have hlast := (h.converts _ f hrun hf).2.2.2.2.2
    rw [hnonneg, hsixty] at hlast
    exact fromUnix_leap hlast
  · rw [hrun]
    simp
  · exact ⟨fun _ => ⟨f, hf, hin⟩, fun _ => ⟨_, hrun⟩⟩
  · obtain rfl := Option.some.inj (hg.symm.trans hf)
    rw [hrun] at ht
    cases ht
    rw [hnonneg]
    have hsecond := hin.second
    exact fromUnix_secondsOf hin.date hin.hour hin.minute (by omega)

/-- `parse_touch_time` meets its format exactly on the stamps of `Sound`. -/
theorem touch_time_iff (now : Int) (raw : List Byte) :
    Correct now raw ↔ Sound now raw := by
  have heq := parseTouchTime_eq raw
  cases hf : fields raw with
  | none =>
    rw [hf] at heq
    have hnone (f : Fields) : fields raw ≠ some f := by
      rw [hf]
      exact Option.some_ne_none f ∘ Eq.symm
    exact ⟨fun _ f h => absurd h (hnone f),
      fun _ => correct_of_refused heq fun f h => absurd h (hnone f)⟩
  | some f =>
    rw [hf] at heq
    dsimp only at heq
    rw [sound_iff hf]
    by_cases hnil : f.yearDigits = []
    · rw [if_pos hnil] at heq
      exact ⟨fun h => absurd heq h.no_panic, fun h => absurd hnil h.1⟩
    rw [if_neg hnil] at heq
    obtain ⟨hyear, hcode, hold⟩ := Fields.codeYear_spec now hf hnil
    have hspec := settle_spec f.month f.day f.hour f.minute f.second hyear
    by_cases hshort : f.yearDigits.length = 2 ∧ digitsValue f.yearDigits ≤ 68
    · -- the code always refuses, so it is right when there is nothing to accept
      have hrefused : parseTouchTime raw = .error .refused := by
        rw [heq]
        rcases hspec with ⟨hgood, -⟩ | ⟨-, hrun⟩
        · have := before_epoch (hold hshort.1 hshort.2) hgood.1
          omega
        · exact hrun
      rw [correct_iff_of_refused hf hrefused]
      exact ⟨fun h => ⟨hnil, fun hin => absurd hin h⟩,
        fun h hin => (h.2 hin).2 hshort⟩
    · have hyears : (f.codeYear : Int) = f.year now := by
        rcases hcode with hcode | hcode
        · exact hcode
        · exact absurd hcode hshort
      rw [hyears, ← heq] at hspec
      rcases hspec with ⟨hgood, hrun⟩ | ⟨hbad, hrun⟩
      · obtain ⟨hdate, hhour, hminute, hsecond, hepoch⟩ := hgood
        have hin : f.InRange now := ⟨hdate, hhour, hminute, hsecond, hepoch⟩
        rw [correct_iff_of_accepted hf hin hrun]
        exact ⟨fun h => ⟨hnil, fun _ => ⟨h, hshort⟩⟩, fun h => (h.2 hin).1⟩
      · have hout : ¬f.InRange now := fun h =>
          hbad ⟨h.date, h.hour, h.minute, h.second, h.epoch⟩
        rw [correct_iff_of_refused hf hrun]
        exact ⟨fun h => ⟨hnil, fun hin => absurd hin h⟩, fun _ => hout⟩

/-- `01020304`, the second of January at 03:04, panics. -/
theorem touch_time_panics : ¬Correct 2024 (stampText "01020304") := by
  intro h
  exact h.no_panic (by decide)

end LinuxRs.Dates
