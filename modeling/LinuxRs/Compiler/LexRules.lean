/-
Where the provided rules end.

# Boundaries

`Boundary` is what a rule owes the lexer: its report ends between two
characters and takes at least one. The matchers of literals owe it to the
prefix law of UTF-8, the scans of ASCII classes to their last byte, and the
block comment to synchronisation at its closer.

# Cuts

`Helper.Cuts` is the one exception: a string rule whose quote's low byte is
not ASCII begins the text, and comes again outside an escape.
-/
import LinuxRs.Compiler.LexLaw

namespace LinuxRs.Compiler

open Lib

variable {Tok : Type}

/-- A report of this many bytes ends between two characters, after at least
one of them. -/
def Boundary (rest : List Char) (n : Nat) : Prop :=
  ∃ slice after, Utf8.cut rest n = some (slice, after) ∧ slice ≠ []

theorem boundary_of_bytes {slice after : List Char} (hne : slice ≠ []) :
    Boundary (slice ++ after) (Utf8.bytes slice).length :=
  ⟨slice, after, Utf8.cut_append slice after, hne⟩

theorem boundary_all {rest : List Char} (hne : rest ≠ []) :
    Boundary rest (Utf8.bytes rest).length := by
  have h : Boundary (rest ++ []) (Utf8.bytes rest).length :=
    boundary_of_bytes hne
  rwa [List.append_nil] at h

theorem boundary_of_ascii {rest : List Char} {pre post : List UInt8} {b : UInt8}
    (h : Utf8.bytes rest = pre ++ b :: post) (hb : b < 128) :
    Boundary rest (pre.length + 1) := by
  obtain ⟨slice, after, hcut, hbytes⟩ := Utf8.cut_after_ascii h hb
  refine ⟨slice, after, hcut, ?_⟩
  intro hnil
  rw [hnil] at hbytes
  simp at hbytes

theorem boundary_of_run {rest : List Char} {run post : List UInt8}
    (h : Utf8.bytes rest = run ++ post) (hne : run ≠ [])
    (hrun : ∀ b ∈ run, b < 128) : Boundary rest run.length := by
  have hsplit := List.dropLast_append_getLast hne
  have hb : Utf8.bytes rest = run.dropLast ++ run.getLast hne :: post := by
    rw [List.append_cons, hsplit]
    exact h
  have hbound := boundary_of_ascii hb (hrun _ (List.getLast_mem hne))
  have hlen := congrArg List.length hsplit
  rw [List.length_append, List.length_singleton] at hlen
  rwa [hlen] at hbound

-- ======== literals

theorem startsWith_iff {cur : Cursor} {literal : List Char} :
    cur.startsWith literal = true ↔ ∃ after, cur.rest = literal ++ after := by
  unfold Cursor.startsWith
  rw [List.isPrefixOf_iff_prefix]
  constructor
  · rintro ⟨tail, htail⟩
    obtain ⟨after, hrest, -⟩ := Utf8.prefix_of_bytes htail.symm
    exact ⟨after, hrest⟩
  · rintro ⟨after, hrest⟩
    exact ⟨Utf8.bytes after, by rw [Cursor.bytes, hrest, Utf8.bytes_append]⟩

theorem boundary_of_startsWith {cur : Cursor} {literal : List Char}
    (hne : literal ≠ []) (h : cur.startsWith literal = true) :
    Boundary cur.rest (Utf8.bytes literal).length := by
  obtain ⟨after, hrest⟩ := startsWith_iff.mp h
  rw [hrest]
  exact boundary_of_bytes hne

theorem symbol_boundary {text : List Char} {kind : Tok} {cur : Cursor}
    {r : Nat × Tok} (hne : text ≠ []) (h : symbol text kind cur = some r) :
    Boundary cur.rest r.1 := by
  unfold symbol at h
  split at h
  next hstart =>
    cases h
    exact boundary_of_startsWith hne hstart
  next => cases h

theorem keyword_boundary {word : List Char} {kind : Tok} {cur : Cursor}
    {r : Nat × Tok} (hne : word ≠ []) (h : keyword word kind cur = some r) :
    Boundary cur.rest r.1 := by
  unfold keyword at h
  split at h
  next hstart =>
    dsimp only at h
    split at h
    next => cases h
    next =>
      cases h
      exact boundary_of_startsWith hne hstart
  next => cases h

-- ======== ASCII classes

theorem takeWhile_split (pred : UInt8 → Bool) (bs : List UInt8) :
    ∃ post, bs = bs.takeWhile pred ++ post ∧
      ∀ b ∈ bs.takeWhile pred, pred b = true :=
  ⟨bs.dropWhile pred, (List.takeWhile_append_dropWhile).symm,
    List.all_eq_true.mp List.all_takeWhile⟩

theorem ascii_of_digit {b : UInt8} (h : isAsciiDigit b = true) : b < 128 := by
  simp [isAsciiDigit, UInt8.le_iff_toNat_le] at h
  rw [UInt8.lt_iff_toNat_lt]
  show b.toNat < 128
  omega

theorem ascii_of_alphabetic {b : UInt8} (h : isAsciiAlphabetic b = true) :
    b < 128 := by
  simp [isAsciiAlphabetic, UInt8.le_iff_toNat_le] at h
  rw [UInt8.lt_iff_toNat_lt]
  show b.toNat < 128
  omega

theorem ascii_of_hexdigit {b : UInt8} (h : isAsciiHexdigit b = true) :
    b < 128 := by
  simp [isAsciiHexdigit, isAsciiDigit, UInt8.le_iff_toNat_le] at h
  rw [UInt8.lt_iff_toNat_lt]
  show b.toNat < 128
  omega

theorem ascii_of_identCont {b : UInt8} (h : isIdentCont b = true) :
    b < 128 := by
  simp only [isIdentCont, Bool.or_eq_true, decide_eq_true_eq] at h
  rcases h with (h | h) | rfl
  · exact ascii_of_alphabetic h
  · exact ascii_of_digit h
  · decide

theorem ascii_of_identStart {b : UInt8} (h : isIdentStart b = true) :
    b < 128 := by
  simp only [isIdentStart, Bool.or_eq_true, decide_eq_true_eq] at h
  rcases h with h | rfl
  · exact ascii_of_alphabetic h
  · decide

/-- What scans ASCII bytes only stops between two characters. -/
theorem boundary_of_scan {cur : Cursor} {start tail : List UInt8}
    {pred : UInt8 → Bool} (h : cur.bytes = start ++ tail)
    (hstart : ∀ b ∈ start, b < 128) (hpred : ∀ b, pred b = true → b < 128)
    (hne : start ≠ [] ∨ tail.takeWhile pred ≠ []) : Boundary cur.rest
      (start.length + cur.countWhileSkipping start.length pred) := by
  obtain ⟨post, hpost, hall⟩ := takeWhile_split pred tail
  have hcount : cur.countWhileSkipping start.length pred =
      (tail.takeWhile pred).length := by
    unfold Cursor.countWhileSkipping
    rw [h, List.drop_left]
  have hbytes : Utf8.bytes cur.rest = (start ++ tail.takeWhile pred) ++ post := by
    rw [List.append_assoc, ← hpost]
    exact h
  rw [hcount, ← List.length_append]
  apply boundary_of_run hbytes
  · intro hnil
    obtain ⟨hs, ht⟩ := List.append_eq_nil_iff.mp hnil
    rcases hne with hne | hne
    · exact hne hs
    · exact hne ht
  · intro b hb
    rcases List.mem_append.mp hb with hb | hb
    · exact hstart b hb
    · exact hpred b (hall b hb)

theorem countWhile_eq (cur : Cursor) (pred : UInt8 → Bool) :
    cur.countWhile pred =
      ([] : List UInt8).length + cur.countWhileSkipping ([] : List UInt8).length
        pred := by
  simp [Cursor.countWhile, Cursor.countWhileSkipping]

theorem whitespace_boundary {cur : Cursor} {n : Nat}
    (h : whitespace cur = some n) : Boundary cur.rest n := by
  unfold whitespace at h
  dsimp only at h
  split at h
  next => cases h
  next hn =>
    cases h
    have hne := hn
    rw [countWhile_eq]
    have hsplit : cur.bytes = [] ++ cur.bytes := rfl
    apply boundary_of_scan hsplit
    · simp
    · intro b hb
      simp only [Bool.or_eq_true, decide_eq_true_eq] at hb
      rcases hb with ((rfl | rfl) | rfl) | rfl <;> decide
    · right
      intro hnil
      apply hne
      simp only [Cursor.countWhile]
      rw [hnil]
      rfl

theorem ident_boundary {kind : Tok} {cur : Cursor} {r : Nat × Tok}
    (h : ident kind cur = some r) : Boundary cur.rest r.1 := by
  obtain ⟨first, hfirst, h⟩ := Option.bind_eq_some_iff.mp h
  split at h
  next hstart =>
    cases h
    obtain ⟨tail, htail⟩ := List.head?_eq_some_iff.mp hfirst
    have hbytes : cur.bytes = [first] ++ tail := htail
    apply boundary_of_scan hbytes
    · intro b hb
      obtain rfl := List.mem_singleton.mp hb
      exact ascii_of_identStart hstart
    · exact fun b hb => ascii_of_identCont hb
    · exact .inl (by simp)
  next => cases h

theorem int_boundary {kind : Tok} {cur : Cursor} {r : Nat × Tok}
    (h : int kind cur = some r) : Boundary cur.rest r.1 := by
  unfold int at h
  split at h
  next => cases h
  next first rest hbytes =>
    split at h
    next hdigit =>
      split at h
      next hhex =>
        -- the prefix of a hexadecimal number is two bytes
        cases h
        obtain ⟨rfl, hx⟩ := hhex
        obtain ⟨x, tail, rfl, hxascii⟩ : ∃ x tail, rest = x :: tail ∧ x < 128 := by
          rcases hx with hx | hx
          · obtain ⟨tail, htail⟩ := List.head?_eq_some_iff.mp hx
            exact ⟨120, tail, htail, by decide⟩
          · obtain ⟨tail, htail⟩ := List.head?_eq_some_iff.mp hx
            exact ⟨88, tail, htail, by decide⟩
        have hsplit : cur.bytes = [48, x] ++ tail := hbytes
        apply boundary_of_scan hsplit
        · intro b hb
          rcases List.mem_cons.mp hb with rfl | hb
          · decide
          · obtain rfl := List.mem_singleton.mp hb
            exact hxascii
        · exact fun b hb => ascii_of_hexdigit hb
        · exact .inl (by simp)
      next =>
        split at h
        next hzero =>
          cases h
          have hsplit : cur.bytes = [first] ++ rest := hbytes
          apply boundary_of_scan hsplit
          · intro b hb
            obtain rfl := List.mem_singleton.mp hb
            exact ascii_of_digit hdigit
          · intro b hb
            simp [UInt8.le_iff_toNat_le] at hb
            rw [UInt8.lt_iff_toNat_lt]
            show b.toNat < 128
            omega
          · exact .inl (by simp)
        next =>
          cases h
          rw [countWhile_eq]
          have hsplit : cur.bytes = [] ++ cur.bytes := rfl
          apply boundary_of_scan hsplit
          · simp
          · exact fun b hb => ascii_of_digit hb
          · right
            rw [hbytes, List.takeWhile_cons_of_pos hdigit]
            simp
    next => cases h

-- ======== comments

theorem lineComment_boundary {marker : List Char} {cur : Cursor} {n : Nat}
    (hne : marker ≠ []) (h : lineComment marker cur = some n) :
    Boundary cur.rest n := by
  unfold lineComment at h
  split at h
  next hstart =>
    dsimp only at h
    obtain ⟨after, hrest⟩ := startsWith_iff.mp hstart
    have hbytes : cur.bytes = Utf8.bytes marker ++ Utf8.bytes after := by
      rw [Cursor.bytes, hrest, Utf8.bytes_append]
    have hcount : cur.countWhileSkipping (Utf8.bytes marker).length
        (fun b => b ≠ 10) =
          ((Utf8.bytes after).takeWhile fun b => b ≠ 10).length := by
      unfold Cursor.countWhileSkipping
      rw [hbytes, List.drop_left]
    rw [hcount, hbytes, List.length_append] at h
    have hsplit := List.takeWhile_append_dropWhile
      (p := fun b : UInt8 => decide (b ≠ 10)) (l := Utf8.bytes after)
    cases htail : (Utf8.bytes after).dropWhile fun b => b ≠ 10 with
    | nil =>
      rw [htail, List.append_nil] at hsplit
      rw [hsplit, if_neg (Nat.lt_irrefl _)] at h
      cases h
      have hcur : cur.rest ≠ [] := by
        rw [hrest]
        simp [hne]
      have hall := boundary_all hcur
      rwa [hrest, Utf8.bytes_append, List.length_append, ← hrest] at hall
    | cons b tail =>
      rw [htail] at hsplit
      have hb : b = 10 := by
        have hhead := List.head?_dropWhile_not
          (fun b : UInt8 => decide (b ≠ 10)) (Utf8.bytes after)
        rw [htail] at hhead
        simpa using hhead
      have hlen := congrArg List.length hsplit
      rw [List.length_append, List.length_cons] at hlen
      rw [if_pos (by omega)] at h
      cases h
      rw [← List.length_append]
      have hascii : b < 128 := by
        rw [hb]
        decide
      have hcur : Utf8.bytes cur.rest = (Utf8.bytes marker ++
          (Utf8.bytes after).takeWhile fun b => b ≠ 10) ++ b :: tail := by
        rw [List.append_assoc, hsplit]
        exact hbytes
      exact boundary_of_ascii hcur hascii
  next => cases h

/-- `findClose` finds a place where the closer stands. -/
theorem findClose_some {close bs : List UInt8} {i j : Nat}
    (h : findClose close i bs = some j) :
    ∃ mid post, bs = mid ++ (close ++ post) ∧
      j = i + mid.length + close.length := by
  induction bs generalizing i with
  | nil =>
    unfold findClose at h
    split at h
    next hnil =>
      cases h
      exact ⟨[], [], by simp [hnil], by simp [hnil]⟩
    next => cases h
  | cons b bs ih =>
    unfold findClose at h
    split at h
    next hpre =>
      cases h
      obtain ⟨post, hpost⟩ := List.isPrefixOf_iff_prefix.mp hpre
      exact ⟨[], post, hpost.symm, by simp⟩
    next =>
      obtain ⟨mid, post, rfl, rfl⟩ := ih h
      refine ⟨b :: mid, post, rfl, ?_⟩
      rw [List.length_cons]
      omega

theorem blockComment_boundary {opener closer : List Char} {cur : Cursor}
    {n : Nat} (hopen : opener ≠ []) (hclose : closer ≠ [])
    (h : blockComment opener closer cur = some n) : Boundary cur.rest n := by
  unfold blockComment at h
  split at h
  next hstart =>
    obtain ⟨after, hrest⟩ := startsWith_iff.mp hstart
    have hbytes : cur.bytes = Utf8.bytes opener ++ Utf8.bytes after := by
      rw [Cursor.bytes, hrest, Utf8.bytes_append]
    cases h
    rw [hbytes, List.drop_left]
    cases hfind : findClose (Utf8.bytes closer) (Utf8.bytes opener).length
        (Utf8.bytes after) with
    | none =>
      rw [Option.getD_none, ← Utf8.bytes_append, ← hrest]
      apply boundary_all
      rw [hrest]
      simp [hopen]
    | some j =>
      obtain ⟨mid, post, hmid, rfl⟩ := findClose_some hfind
      obtain ⟨c, cs, rfl⟩ := List.exists_cons_of_ne_nil hclose
      obtain ⟨b, tail, hb⟩ :=
        List.exists_cons_of_ne_nil (Utf8.bytes_ne_nil hclose)
      have hfirst : b.IsUTF8FirstByte := Utf8.first_of_head hb
      have hsync : Utf8.bytes after = mid ++ b :: (tail ++ post) := by
        rw [hmid, hb]
        rfl
      obtain ⟨inner, rest, rfl, rfl, hrest'⟩ := Utf8.sync hsync hfirst
      have hcloser : Utf8.bytes rest = Utf8.bytes (c :: cs) ++ post := by
        rw [← hrest', hb]
        rfl
      obtain ⟨later, rfl, -⟩ := Utf8.prefix_of_bytes hcloser
      have hbound : Boundary (opener ++ (inner ++ c :: cs) ++ later)
          (Utf8.bytes (opener ++ (inner ++ c :: cs))).length :=
        boundary_of_bytes (by simp [hopen])
      rw [hrest, Option.getD_some]
      simpa [Nat.add_assoc] using hbound
  next => cases h

-- ======== quoted strings

/-- What stands between the quotes: escaped bytes, and others that are no
quote. -/
inductive Inside (quote escape : UInt8) : List UInt8 → Prop where
  | nil : Inside quote escape []
  | escaped {b : UInt8} {bs : List UInt8} :
      Inside quote escape bs → Inside quote escape (escape :: b :: bs)
  | plain {b : UInt8} {bs : List UInt8} : b ≠ quote →
      b ≠ escape → Inside quote escape bs → Inside quote escape (b :: bs)

/-- The rule begins this text with a byte that is not ASCII, and finds it
again outside an escape. -/
def Helper.Cuts : Helper Tok → List Char → Prop
  | .quotedString quote escape _, rest =>
    128 ≤ asByte quote ∧ asByte quote ≠ asByte escape ∧
      ∃ inner post, Inside (asByte quote) (asByte escape) inner ∧
        Utf8.bytes rest = asByte quote :: (inner ++ asByte quote :: post)
  | _, _ => False

/-- `findQuote` stops at a quote that is not escaped. -/
theorem findQuote_some {quote escape : UInt8} {bs : List UInt8} {i j : Nat}
    (h : findQuote quote escape i bs = some j) :
    ∃ inner post, bs = inner ++ quote :: post ∧ Inside quote escape inner ∧
      (quote = escape → post = []) ∧ j = i + inner.length + 1 := by
  induction i, bs using findQuote.induct quote escape with
  | case1 => cases h
  | case2 i =>
    rw [findQuote, if_pos rfl] at h
    cases h
    exact ⟨[], [], rfl, .nil, fun _ => rfl, rfl⟩
  | case3 i b hb =>
    rw [findQuote, if_neg hb] at h
    cases h
  | case4 i b rest ih =>
    rw [findQuote, if_pos rfl] at h
    obtain ⟨inner, post, rfl, hinside, hpost, rfl⟩ := ih h
    refine ⟨escape :: b :: inner, post, rfl, .escaped hinside, hpost, ?_⟩
    simp only [List.length_cons]
    omega
  | case5 i b rest hne =>
    rw [findQuote, if_neg hne, if_pos rfl] at h
    cases h
    exact ⟨[], b :: rest, rfl, .nil, fun heq => absurd heq hne, rfl⟩
  | case6 i b b' rest hesc hquote ih =>
    rw [findQuote, if_neg hesc, if_neg hquote] at h
    obtain ⟨inner, post, htail, hinside, hpost, rfl⟩ := ih h
    refine ⟨b :: inner, post, by rw [htail]; rfl,
      .plain hquote hesc hinside, hpost, ?_⟩
    simp only [List.length_cons]
    omega

/-- The first quote that is not escaped is found. -/
theorem findQuote_inside {quote escape : UInt8} {inner post : List UInt8}
    (hne : quote ≠ escape) (h : Inside quote escape inner) (i : Nat) :
    findQuote quote escape i (inner ++ quote :: post) =
      some (i + inner.length + 1) := by
  induction h generalizing i with
  | nil =>
    cases post with
    | nil => simp [findQuote]
    | cons b post => simp [findQuote, hne]
  | @escaped b bs _ ih =>
    rw [List.cons_append, List.cons_append, findQuote, if_pos rfl, ih]
    simp only [List.length_cons]
    congr 1
    omega
  | @plain b bs hquote hesc _ ih =>
    obtain ⟨c, tail, htail⟩ : ∃ c tail, bs ++ quote :: post = c :: tail := by
      cases bs with
      | nil => exact ⟨quote, post, rfl⟩
      | cons c bs => exact ⟨c, bs ++ quote :: post, rfl⟩
    rw [List.cons_append, htail, findQuote, if_neg hesc, if_neg hquote,
      ← htail, ih]
    simp only [List.length_cons]
    congr 1
    omega

/-- A quoted text ends between characters unless it is cut. -/
theorem quotedString_boundary {quote escape : Char} {kind : Tok} {cur : Cursor}
    {r : Nat × Tok} (h : quotedString quote escape kind cur = some r)
    (hcuts : ¬ (Helper.quotedString quote escape kind).Cuts cur.rest) :
    Boundary cur.rest r.1 := by
  unfold quotedString at h
  split at h
  next => cases h
  next first rest hbytes =>
    split at h
    next hquote =>
      cases h
      subst hquote
      have hcur : Utf8.bytes cur.rest = asByte quote :: rest := hbytes
      cases hfind : findQuote (asByte quote) (asByte escape) 1 rest with
      | none =>
        apply boundary_all
        intro hnil
        rw [hnil] at hcur
        cases hcur
      | some j =>
        obtain ⟨inner, post, rfl, hinside, hpost, rfl⟩ := findQuote_some hfind
        have hsplit : Utf8.bytes cur.rest =
            (asByte quote :: inner) ++ asByte quote :: post := hcur
        have hlen : 1 + inner.length + 1 =
            (asByte quote :: inner).length + 1 := by
          simp only [List.length_cons]
          omega
        rw [Option.getD_some, hlen]
        by_cases hascii : asByte quote < 128
        · exact boundary_of_ascii hsplit hascii
        · by_cases hesc : asByte quote = asByte escape
          · -- the quote would be a character by itself at the end
            exfalso
            rw [hpost hesc] at hsplit
            obtain ⟨as, bs, -, -, hbs⟩ :=
              Utf8.sync hsplit (Utf8.first_of_head hcur)
            exact hascii (Utf8.ascii_of_last hbs.symm)
          · exact absurd ⟨UInt8.not_lt.mp hascii, hesc, inner, post, hinside,
              hcur⟩ hcuts
    next => cases h

theorem quotedString_cuts {quote escape : Char} {kind : Tok} {cur : Cursor}
    (hcuts : (Helper.quotedString quote escape kind).Cuts cur.rest) :
    ∃ n, quotedString quote escape kind cur = some (n, kind) ∧
      Utf8.cut cur.rest n = none := by
  obtain ⟨hhigh, hesc, inner, post, hinside, hcur⟩ := hcuts
  have hbytes : cur.bytes =
      asByte quote :: (inner ++ asByte quote :: post) := hcur
  refine ⟨(asByte quote :: inner).length + 1, ?_, ?_⟩
  · rw [quotedString, hbytes]
    simp only [if_true]
    rw [findQuote_inside hesc hinside, Option.getD_some, List.length_cons]
    congr 2
    omega
  · exact Utf8.cut_after_first hcur (UInt8.not_lt.mpr hhigh)
      (Utf8.first_of_head hcur)

end LinuxRs.Compiler
