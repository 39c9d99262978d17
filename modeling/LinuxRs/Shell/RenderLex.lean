/-
The tokens of a rendered tree are read back by the lexer, with the words in
bytes.
-/
import LinuxRs.Shell.Render
import LinuxRs.Shell.Quoting

namespace LinuxRs.Shell

-- ======== bytes

theorem mem_byteChars {t : Text} {d : Char} (h : d ∈ byteChars t) :
    d ∈ t ∨ isAscii d = false := by
  induction t with
  | nil => cases h
  | cons c t ih =>
    rw [byteChars_cons, List.mem_append] at h
    rcases h with h | h
    · cases hc : isAscii c with
      | true =>
        rw [map_asChar_utf8EncodeChar hc] at h
        exact .inl (List.mem_cons.mpr (.inl (List.mem_singleton.mp h)))
      | false => exact .inr (not_ascii_of_mem_utf8 hc h)
    · rcases ih h with h | h
      · exact .inl (List.mem_cons_of_mem c h)
      · exact .inr h

theorem head_byteChars {c : Char} {t : Text} :
    ∃ d s, byteChars (c :: t) = d :: s ∧ (d = c ∨ isAscii d = false) := by
  rw [byteChars_cons]
  cases hc : isAscii c with
  | true =>
    rw [map_asChar_utf8EncodeChar hc]
    exact ⟨c, byteChars t, rfl, .inl rfl⟩
  | false =>
    have hlen := length_utf8EncodeChar_of_not_ascii hc
    cases hbytes : (String.utf8EncodeChar c).map asChar with
    | nil =>
      have := congrArg List.length hbytes
      rw [List.length_map, List.length_nil] at this
      omega
    | cons d s =>
      refine ⟨d, s ++ byteChars t, rfl, .inr ?_⟩
      apply not_ascii_of_mem_utf8 hc
      rw [hbytes]
      exact List.mem_cons_self

theorem ne_of_not_ascii {c d : Char} (hd : isAscii d = false)
    (hc : isAscii c = true) : d ≠ c := by
  intro heq
  rw [heq, hc] at hd
  cases hd

theorem isPlain_of_not_ascii {d : Char} (h : isAscii d = false) :
    isPlain d = true := by
  simp only [isPlain, isWordEnd, Bool.and_eq_true, Bool.not_eq_true',
    Bool.or_eq_false_iff, beq_eq_false_iff_ne, bne_iff_ne]
  repeat' apply And.intro
  all_goals exact ne_of_not_ascii h rfl

theorem isPlain_byteChars {t : Text} (h : ∀ c ∈ t, isPlain c = true) :
    ∀ c ∈ byteChars t, isPlain c = true := by
  intro c hc
  rcases mem_byteChars hc with hmem | hhigh
  · exact h c hmem
  · exact isPlain_of_not_ascii hhigh

theorem PlainText.bytes {t : Text} (h : PlainText t) :
    PlainText (byteChars t) := by
  cases t with
  | nil => exact absurd rfl h.nonempty
  | cons c t =>
    obtain ⟨d, s, hbytes, hd⟩ := head_byteChars (c := c) (t := t)
    refine ⟨by simp [hbytes], isPlain_byteChars h.plain, ?_⟩
    rw [hbytes]
    intro e he
    cases he
    rcases hd with rfl | hhigh
    · exact h.head d rfl
    · exact ⟨ne_of_not_ascii hhigh rfl, ne_of_not_ascii hhigh rfl⟩

-- ======== words

theorem isPlain_iff {c : Char} : isPlain c = true ↔
    isWordEnd c = false ∧ c ≠ '\\' ∧ c ≠ '\'' ∧ c ≠ '"' ∧ c ≠ '\x60' ∧ c ≠ '$' := by
  simp [isPlain, and_assoc]

/-- A text of plain characters is one literal. -/
theorem readWordLoop_plain {rest : Text} (hrest : Delimited rest) (s : Text)
    (lit : Text) (fuel : Nat) (hfuel : s.length < fuel)
    (hplain : ∀ c ∈ s, isPlain c = true)
    (hstart : lit = [] → ∀ c ∈ s.head?, c ≠ '#') (start : Bool) :
    readWordLoop fuel (s ++ rest) [] lit start
      = .ok (flush [] (lit ++ s), rest) := by
  induction s generalizing lit fuel start with
  | nil =>
    obtain ⟨m, rfl⟩ : ∃ m, fuel = m + 1 := ⟨fuel - 1, by omega⟩
    rw [List.nil_append, readWordLoop_delimited hrest, List.append_nil]
  | cons c s ih =>
    obtain ⟨m, rfl⟩ : ∃ m, fuel = m + 1 := ⟨fuel - 1, by omega⟩
    obtain ⟨hend, h1, h2, h3, h4, h5⟩ :=
      Iff.mp isPlain_iff (hplain c List.mem_cons_self)
    have hhash : ¬ (c = '#' ∧ start ∧ ([] : List Seg).isEmpty ∧ lit = []) := by
      intro hall
      obtain ⟨hc, _, _, hlit⟩ := hall
      exact hstart hlit c rfl hc
    simp only [List.length_cons] at hfuel
    have hih := ih (lit ++ [c]) m (by omega)
      (fun d hd => hplain d (List.mem_cons_of_mem c hd)) (by simp) false
    rw [List.cons_append]
    unfold readWordLoop
    rw [if_neg (by simp [hend]), if_neg hhash, if_neg h1, if_neg h2, if_neg h3,
      if_neg h4, if_neg h5, hih, List.append_assoc]
    rfl

theorem readWord_plain {s rest : Text} (hrest : Delimited rest)
    (hs : PlainText s) {fuel : Nat} (hfuel : s.length < fuel) :
    readWord fuel (s ++ rest) = .ok ([.lit s], rest) := by
  cases s with
  | nil => exact absurd rfl hs.nonempty
  | cons c s =>
    have hhead := hs.head c rfl
    have hloop := readWordLoop_plain hrest (c :: s) [] fuel hfuel hs.plain
      (fun _ d hd => (hs.head d hd).1) true
    have hflush : flush [] ([] ++ (c :: s)) = [Seg.lit (c :: s)] := rfl
    rw [hflush] at hloop
    rw [← hloop]
    unfold readWord
    split
    · next tail heq =>
      cases heq
      exact absurd rfl hhead.2
    · rfl

theorem skipBlanks_plain {s : Text} (hs : PlainText s) (rest : Text) :
    skipBlanks false (s ++ rest) = s ++ rest := by
  cases s with
  | nil => exact absurd rfl hs.nonempty
  | cons c s =>
    obtain ⟨hend, h1, -⟩ := Iff.mp isPlain_iff (hs.plain c List.mem_cons_self)
    have hhash := (hs.head c rfl).1
    simp only [isWordEnd, Bool.or_eq_false_iff, beq_eq_false_iff_ne] at hend
    rw [List.cons_append]
    unfold skipBlanks
    split <;> simp_all

theorem nextTokenWith_plain {s rest : Text} (hrest : Delimited rest)
    (hs : PlainText s) {fuel : Nat} (hfuel : s.length < fuel) :
    nextTokenWith fuel (s ++ rest) =
      wordToken (s ++ rest) (.ok ([.lit s], rest)) := by
  rw [← readWord_plain hrest hs hfuel]
  have hskip := skipBlanks_plain hs rest
  cases s with
  | nil => exact absurd rfl hs.nonempty
  | cons c s =>
    exact nextTokenWith_word hskip
      (Iff.mp isPlain_iff (hs.plain c List.mem_cons_self)).1

-- ======== numbers

theorem digitChar_digit : ∀ d < 10,
    isAsciiDigit d.digitChar = true ∧ d.digitChar.toNat - 48 = d := by
  decide

theorem parseDigits_append (s t : Text) (n : Nat) :
    parseDigits (s ++ t) n = (parseDigits s n).bind (parseDigits t) := by
  induction s generalizing n with
  | nil => rfl
  | cons c s ih =>
    simp only [List.cons_append, parseDigits]
    split
    · exact ih _
    · rfl

theorem parseDigits_toDigits (k : Nat) :
    parseDigits (Nat.toDigits 10 k) 0 = some k ∧
    ∀ c ∈ Nat.toDigits 10 k, isAsciiDigit c = true := by
  induction k using Nat.strong_induction_on with
  | _ k ih =>
    have hone : ∀ d < 10, ∀ n, parseDigits [d.digitChar] n = some (n * 10 + d) := by
      intro d hd n
      obtain ⟨hdigit, hval⟩ := digitChar_digit d hd
      unfold parseDigits
      rw [if_pos (by simpa [isAsciiDigit] using hdigit), hval]
      rfl
    by_cases hk : k < 10
    · rw [Nat.toDigits_of_lt_base hk]
      refine ⟨by rw [hone k hk]; simp, ?_⟩
      intro c hc
      rw [List.mem_singleton.mp hc]
      exact (digitChar_digit k hk).1
    · rw [Nat.toDigits_of_base_le (by omega) (by omega)]
      obtain ⟨hval, hdigits⟩ := ih (k / 10) (by omega)
      have hmod : k % 10 < 10 := by omega
      refine ⟨?_, ?_⟩
      · rw [parseDigits_append, hval, Option.bind_some, hone _ hmod]
        congr 1
        omega
      · intro c hc
        rcases List.mem_append.mp hc with hc | hc
        · exact hdigits c hc
        · rw [List.mem_singleton.mp hc]
          exact (digitChar_digit _ hmod).1

theorem showNat_eq (k : Nat) : showNat k = Nat.toDigits 10 k := Nat.toList_repr

theorem plainText_showNat (k : Nat) :
    PlainText (showNat k) ∧ (∀ c ∈ showNat k, isAsciiDigit c = true) ∧
      ∀ c ∈ showNat k, isAscii c = true := by
  rw [showNat_eq]
  have hdigits := (parseDigits_toDigits k).2
  have hne : ∀ c ∈ Nat.toDigits 10 k, ∀ d, isAsciiDigit d = false → c ≠ d := by
    intro c hc d hd heq
    have := hdigits c hc
    rw [heq, hd] at this
    cases this
  refine ⟨⟨Nat.toDigits_ne_nil, ?_, ?_⟩, hdigits, ?_⟩
  · intro c hc
    simp only [isPlain, isWordEnd, Bool.and_eq_true, Bool.not_eq_true',
      Bool.or_eq_false_iff, beq_eq_false_iff_ne, bne_iff_ne]
    repeat' apply And.intro
    all_goals exact hne c hc _ (by decide)
  · intro c hc
    have hmem := List.mem_of_mem_head? hc
    exact ⟨hne c hmem _ (by decide), hne c hmem _ (by decide)⟩
  · intro c hc
    have hdigit := hdigits c hc
    simp only [isAsciiDigit, decide_eq_true_eq] at hdigit
    have hle : c.toNat ≤ 57 := hdigit.2
    simp only [isAscii, decide_eq_true_eq]
    omega

theorem parseI32_showNat {k : Nat} (h : k ≤ 2147483647) :
    parseI32 (showNat k) = some (k : Int) := by
  have hdigits := (plainText_showNat k).2.1
  have hval : parseDigits (showNat k) 0 = some k := by
    rw [showNat_eq]
    exact (parseDigits_toDigits k).1
  have hsign : ∀ c rest, isAsciiDigit c = false → showNat k ≠ c :: rest := by
    intro c rest hc heq
    rw [heq] at hdigits
    rw [hdigits c List.mem_cons_self] at hc
    cases hc
  unfold parseI32
  split
  · next heq => exact absurd heq (plainText_showNat k).1.nonempty
  · next heq => exact absurd heq (hsign _ _ (by decide))
  · next heq => exact absurd heq (hsign _ _ (by decide))
  · next heq => exact absurd heq (hsign _ _ (by decide))
  · next heq => exact absurd heq (hsign _ _ (by decide))
  · rw [hval, Option.bind_some, if_pos h]

-- ======== tokens

def Token.mapLit (f : Text → Text) : Token → Token
  | .word w => .word (Word.mapLit f w)
  | t => t

def Token.isAngle : Token → Bool
  | .less | .greater | .dGreater | .clobber | .lessAnd | .greaterAnd => true
  | _ => false

/-- Tokens that can be written: words are plain, IO numbers are in front of
a redirection. -/
def Spellable : List Token → Prop
  | [] => True
  | .word w :: ts => (∃ t, w = [.lit t] ∧ PlainText t) ∧ Spellable ts
  | .ioNumber k :: ts =>
    k ≤ 2147483647 ∧ (∃ t ∈ ts.head?, t.isAngle = true) ∧ Spellable ts
  | .eof :: _ => False
  | _ :: ts => Spellable ts

def Toks.ofList : List Token → Toks
  | [] => .eof
  | t :: ts => .cons t (.ofList ts)

theorem Spellable.append {ts us : List Token} (ht : Spellable ts)
    (hu : Spellable us) : Spellable (ts ++ us) := by
  induction ts with
  | nil => exact hu
  | cons t ts ih =>
    cases t with
    | word w => exact ⟨ht.1, ih ht.2⟩
    | ioNumber k =>
      obtain ⟨hk, ⟨t, hhead, hangle⟩, hrest⟩ := ht
      refine ⟨hk, ⟨t, ?_, hangle⟩, ih hrest⟩
      show t ∈ (ts ++ us).head?
      rw [List.head?_append, hhead]
      rfl
    | eof => exact ht.elim
    | _ => exact ih ht

theorem nextTokenWith_blank (fuel : Nat) (src : Text) :
    nextTokenWith fuel (' ' :: src) = nextTokenWith fuel src := by
  unfold nextTokenWith
  rw [show skipBlanks false (' ' :: src) = skipBlanks false src by
    simp [skipBlanks]]

theorem nextTokenWith_spelled {s rest : Text} (hs : PlainText s) {fuel : Nat}
    (hfuel : s.length < fuel) :
    nextTokenWith fuel (s ++ ' ' :: rest) = .ok (.word [.lit s], ' ' :: rest) := by
  rw [nextTokenWith_plain (by intro c hc; cases hc; rfl) hs hfuel]
  have hio : ioNumber [.lit s] ((s ++ ' ' :: rest).length - (' ' :: rest).length)
      (' ' :: rest).head? = none := by
    simp only [ioNumber]
    rw [if_neg]
    intro hall
    obtain ⟨_, _, hnext, _⟩ := hall
    rcases hnext with hnext | hnext <;> cases hnext
  simp only [wordToken]
  rw [hio]

theorem nextTokenWith_io {k : Nat} (hk : k ≤ 2147483647) {c : Char}
    {rest : Text} (hc : c = '<' ∨ c = '>') {fuel : Nat}
    (hfuel : (showNat k).length < fuel) :
    nextTokenWith fuel (showNat k ++ c :: rest) = .ok (.ioNumber k, c :: rest) := by
  obtain ⟨hplain, hdigits, -⟩ := plainText_showNat k
  have hdelim : Delimited (c :: rest) := by
    intro d hd
    cases hd
    rcases hc with rfl | rfl <;> rfl
  rw [nextTokenWith_plain hdelim hplain hfuel]
  have hio : ioNumber [.lit (showNat k)]
      ((showNat k ++ c :: rest).length - (c :: rest).length)
      (c :: rest).head? = some k := by
    simp only [ioNumber]
    rw [if_pos, parseI32_showNat hk]
    · rfl
    · refine ⟨List.all_eq_true.mpr hdigits, hplain.nonempty, ?_, ?_⟩
      · rcases hc with rfl | rfl
        · exact .inl rfl
        · exact .inr rfl
      · rw [List.length_append]
        omega
  simp only [wordToken]
  rw [hio]

/-- The spelling of a token is lexed as the token. -/
theorem nextToken_spell {t : Token} {ts : List Token}
    (h : Spellable (t :: ts)) {gap : Text} (hgap : gap = [] ∨ gap = [' ']) :
    ∃ gap', (gap' = [] ∨ gap' = [' ']) ∧
      nextToken (gap ++ byteChars ((t :: ts).flatMap Token.spell)) =
        .ok (t.mapLit byteChars, gap' ++ byteChars (ts.flatMap Token.spell)) := by
  unfold nextToken
  have hskip : ∀ fuel src, nextTokenWith fuel (gap ++ src) =
      nextTokenWith fuel src := by
    intro fuel src
    rcases hgap with rfl | rfl
    · rfl
    · exact nextTokenWith_blank fuel src
  have hfuel : (byteChars t.spell).length <
      lexFuel (gap ++ byteChars ((t :: ts).flatMap Token.spell)) := by
    rw [List.flatMap_cons, byteChars_append]
    simp only [lexFuel, List.length_append]
    omega
  generalize lexFuel (gap ++ byteChars ((t :: ts).flatMap Token.spell)) = fuel
    at hfuel ⊢
  rw [hskip, List.flatMap_cons, byteChars_append]
  cases t with
  | word w =>
    obtain ⟨⟨s, rfl, hplain⟩, -⟩ := h
    have hspell : byteChars (Token.word [.lit s]).spell = byteChars s ++ [' '] := by
      simp only [Token.spell, Word.text, List.append_nil]
      rw [byteChars_append, byteChars_of_all (s := [' ']) (by decide)]
    rw [hspell, List.length_append, List.length_singleton] at hfuel
    refine ⟨[' '], .inr rfl, ?_⟩
    rw [hspell, List.append_assoc]
    exact nextTokenWith_spelled hplain.bytes (by omega)
  | ioNumber k =>
    obtain ⟨hk, ⟨t, hhead, hangle⟩, -⟩ := h
    have hspell : byteChars (Token.ioNumber k).spell = showNat k :=
      byteChars_of_ascii (plainText_showNat k).2.2
    rw [hspell] at hfuel ⊢
    obtain ⟨us, rfl⟩ : ∃ us, ts = t :: us := by
      cases ts with
      | nil => cases hhead
      | cons t' us =>
        cases hhead
        exact ⟨us, rfl⟩
    obtain ⟨c, rest, hc, hrest⟩ : ∃ c rest, (c = '<' ∨ c = '>') ∧
        byteChars ((t :: us).flatMap Token.spell) = c :: rest := by
      rw [List.flatMap_cons, byteChars_append]
      cases t <;> cases hangle
      all_goals
        rw [byteChars_of_all (by decide)]
        exact ⟨_, _, by decide, rfl⟩
    refine ⟨[], .inl rfl, ?_⟩
    rw [hrest]
    exact nextTokenWith_io hk hc hfuel
  | newline =>
    refine ⟨[], .inl rfl, ?_⟩
    rw [byteChars_of_all (by decide)]
    rfl
  | eof => exact h.elim
  | _ =>
    refine ⟨[' '], .inr rfl, ?_⟩
    rw [byteChars_of_all (by decide)]
    rfl

/-- Tokens that are spelled one behind the other are lexed again. -/
theorem lexToks_spell (ts : List Token) (h : Spellable ts) (gap : Text)
    (hgap : gap = [] ∨ gap = [' ']) (n : Nat) (hn : ts.length < n) :
    lexToks n (gap ++ byteChars (ts.flatMap Token.spell)) =
      .ofList (ts.map (Token.mapLit byteChars)) := by
  induction ts generalizing gap n with
  | nil =>
    obtain ⟨m, rfl⟩ : ∃ m, n = m + 1 := ⟨n - 1, by simp at hn; omega⟩
    rcases hgap with rfl | rfl <;> rfl
  | cons t ts ih =>
    simp only [List.length_cons] at hn
    obtain ⟨m, rfl⟩ : ∃ m, n = m + 1 := ⟨n - 1, by omega⟩
    obtain ⟨gap', hgap', hnext⟩ := nextToken_spell h hgap
    have hrest : Spellable ts := by
      cases t with
      | word w => exact h.2
      | ioNumber k => exact h.2.2
      | eof => exact h.elim
      | _ => exact h
    have hlex := ih hrest gap' hgap' m (by omega)
    unfold lexToks
    rw [hnext, List.map_cons]
    cases t with
    | eof => exact h.elim
    | _ =>
      show Toks.cons _ (lexToks m _) = _
      rw [hlex]
      rfl

theorem length_spell {ts : List Token} (h : Spellable ts) :
    ts.length ≤ (ts.flatMap Token.spell).length := by
  induction ts with
  | nil => exact Nat.le_refl 0
  | cons t ts ih =>
    rw [List.flatMap_cons, List.length_append, List.length_cons]
    cases t with
    | word w =>
      have := ih h.2
      simp only [Token.spell, List.length_append, List.length_singleton]
      omega
    | ioNumber k =>
      have := ih h.2.2
      have := List.length_pos_iff.mpr (plainText_showNat k).1.nonempty
      simp only [Token.spell]
      omega
    | eof => exact h.elim
    | _ =>
      have := ih h
      simp only [Token.spell, List.length_cons, List.length_nil]
      omega

theorem tokens_spell {ts : List Token} (h : Spellable ts) :
    tokens (ts.flatMap Token.spell) =
      .ofList (ts.map (Token.mapLit byteChars)) := by
  have hlen := length_spell h
  have hbytes := length_le_byteChars (ts.flatMap Token.spell)
  exact lexToks_spell ts h [] (.inl rfl) _ (by omega)

-- ======== trees

theorem PlainWord.spellable {w : Word} (h : PlainWord w) :
    Spellable [.word w] := ⟨h.literal, trivial⟩

theorem Keyword.spellable (kw : Keyword) : Spellable [kw.token] := by
  refine ⟨⟨kw.text, rfl, ?_, ?_, ?_⟩, trivial⟩
  · cases kw <;> (intro h; cases h)
  · exact List.all_eq_true.mp (by cases kw <;> decide)
  · intro c hc
    cases kw <;> cases hc <;> decide

theorem isNameCont_plain {c : Char} (h : isNameCont c = true) :
    isPlain c = true ∧ isAscii c = true ∧ c ≠ '=' ∧ c ≠ '#' ∧ c ≠ '~' := by
  have hne : ∀ d, isNameCont d = false → c ≠ d := by
    intro d hd heq
    rw [heq, hd] at h
    cases h
  refine ⟨?_, ?_, hne _ (by decide), hne _ (by decide), hne _ (by decide)⟩
  · simp only [isPlain, isWordEnd, Bool.and_eq_true, Bool.not_eq_true',
      Bool.or_eq_false_iff, beq_eq_false_iff_ne, bne_iff_ne]
    repeat' apply And.intro
    all_goals exact hne _ (by decide)
  · have hle : c.toNat ≤ 122 := by
      simp only [isNameCont, isAsciiAlphabetic, isAsciiDigit, Bool.or_eq_true,
        decide_eq_true_eq, beq_iff_eq] at h
      rcases h with ((⟨-, h⟩ | ⟨-, h⟩) | ⟨-, h⟩) | rfl
      · exact h
      · exact Nat.le_trans (show c.toNat ≤ 90 from h) (by omega)
      · exact Nat.le_trans (show c.toNat ≤ 57 from h) (by omega)
      · decide
    simp only [isAscii, decide_eq_true_eq]
    omega

theorem isNameCont_of_valid {name : Text} (h : isValidName name = true) :
    name ≠ [] ∧ ∀ c ∈ name, isNameCont c = true := by
  cases name with
  | nil => cases h
  | cons c rest =>
    simp only [isValidName, Bool.and_eq_true, List.all_eq_true] at h
    refine ⟨nofun, ?_⟩
    intro d hd
    rcases List.mem_cons.mp hd with rfl | hd
    · have hstart := h.1
      simp only [isNameStart, isNameCont, Bool.or_eq_true] at hstart ⊢
      rcases hstart with hstart | hstart
      · exact .inl (.inl hstart)
      · exact .inr hstart
    · exact h.2 d hd

theorem plainText_name {name : Text} (h : isValidName name = true) :
    PlainText name := by
  obtain ⟨hne, hcont⟩ := isNameCont_of_valid h
  refine ⟨hne, fun c hc => (isNameCont_plain (hcont c hc)).1, ?_⟩
  intro c hc
  have hplain := isNameCont_plain (hcont c (List.mem_of_mem_head? hc))
  exact hplain.2.2.2

theorem Redir.Std.spellable {r : Redir} (h : r.Std) : Spellable r.toks := by
  obtain ⟨w, htarget, hw⟩ := h.target
  have hword : r.target.word = w := by
    rw [htarget]
    cases r.op <;> rfl
  have htail : Spellable [r.op.token, .word r.target.word] := by
    rw [hword]
    cases r.op <;> exact hw.spellable
  unfold Redir.toks
  cases hfd : r.fd with
  | none => exact htail
  | some k =>
    obtain ⟨hk, hop⟩ := h.fd k hfd
    refine ⟨hk, ⟨r.op.token, rfl, ?_⟩, htail⟩
    cases hr : r.op with
    | outBoth => exact absurd hr hop
    | _ => rfl

theorem redirsToks_spellable {redirs : List Redir}
    (h : ∀ r ∈ redirs, r.Std) : Spellable (redirsToks redirs) := by
  induction redirs with
  | nil => trivial
  | cons r redirs ih =>
    exact (h r List.mem_cons_self).spellable.append
      (ih fun r' hr => h r' (List.mem_cons_of_mem r hr))

theorem wordsToks_spellable {words : List Word} (h : ∀ w ∈ words, PlainWord w) :
    Spellable (words.map Token.word) := by
  induction words with
  | nil => trivial
  | cons w words ih =>
    exact (h w List.mem_cons_self).spellable.append
      (ih fun w' hw => h w' (List.mem_cons_of_mem w hw))

theorem Assignment.Std.plainText {a : Assignment} (h : a.Std) :
    PlainText (a.name ++ '=' :: Word.text a.value) := by
  obtain ⟨hne, hplain, hhead⟩ := plainText_name h.name
  refine ⟨by simp, ?_, ?_⟩
  · have hvalue : ∀ c ∈ Word.text a.value, isPlain c = true := by
      rcases h.value with hnil | ⟨t, ht, -, hplain⟩
      · rw [hnil]
        intro c hc
        cases hc
      · rw [ht]
        simpa [Word.text] using hplain
    intro c hc
    rcases List.mem_append.mp hc with hc | hc
    · exact hplain c hc
    rcases List.mem_cons.mp hc with rfl | hc
    · decide
    · exact hvalue c hc
  · intro c hc
    rw [List.head?_append_of_ne_nil _ hne] at hc
    exact hhead c hc

theorem SimpleCmd.Std.spellable {s : SimpleCmd} (h : s.Std) :
    Spellable s.toks := by
  have hassigns : ∀ as : List Assignment, (∀ a ∈ as, a.Std) →
      Spellable (as.map Assignment.token) := by
    intro as
    induction as with
    | nil => exact fun _ => trivial
    | cons a as ih =>
      intro has
      refine ⟨⟨_, rfl, (has a List.mem_cons_self).plainText⟩, ?_⟩
      exact ih fun b hb => has b (List.mem_cons_of_mem a hb)
  exact ((hassigns _ h.assigns).append (wordsToks_spellable h.words)).append
    (redirsToks_spellable h.redirs)

theorem breakToken_spellable (lines : Bool) : Spellable [breakToken lines] := by
  cases lines <;> trivial

theorem bodyEnd_spellable (lines : Bool) (c : Cmd) :
    Spellable (bodyEnd lines c) := by
  cases c with
  | list items => trivial
  | _ => exact breakToken_spellable lines

theorem Spellable.cons {t : Token} {ts : List Token} (ht : Spellable [t])
    (hts : Spellable ts) : Spellable (t :: ts) := Spellable.append ht hts

section

variable {lines : Bool}

theorem bodyToks_spellable {c : Cmd} (h : Spellable (c.toks lines)) :
    Spellable (c.toks lines ++ bodyEnd lines c) :=
  h.append (bodyEnd_spellable lines c)

theorem pipedToks_spellable {ps : List Cmd}
    (h : ∀ p ∈ ps, Spellable (p.toks lines)) :
    Spellable (pipedToks lines ps) := by
  induction ps with
  | nil => trivial
  | cons p ps ih =>
    rw [pipedToks]
    refine Spellable.cons (t := .pipe) trivial ?_
    exact (h p List.mem_cons_self).append
      (ih fun q hq => h q (List.mem_cons_of_mem p hq))

theorem itemsToks_spellable {items : List (Cmd × Sep)}
    (h : ∀ i ∈ items, Spellable (i.1.toks lines)) :
    Spellable (itemsToks lines items) := by
  induction items with
  | nil => trivial
  | cons item items ih =>
    obtain ⟨c, sep⟩ := item
    rw [itemsToks]
    refine (h (c, sep) List.mem_cons_self).append (Spellable.cons ?_ ?_)
    · cases sep with
      | seq => exact breakToken_spellable lines
      | bg => trivial
    · exact ih fun i hi => h i (List.mem_cons_of_mem _ hi)

theorem elifsToks_spellable {elifs : List (Cmd × Cmd)}
    (hc : ∀ e ∈ elifs, Spellable (e.1.toks lines))
    (hb : ∀ e ∈ elifs, Spellable (e.2.toks lines)) :
    Spellable (elifsToks lines elifs) := by
  induction elifs with
  | nil => trivial
  | cons e elifs ih =>
    obtain ⟨c, b⟩ := e
    rw [elifsToks]
    refine Spellable.cons (Keyword.spellable _) ?_
    refine (bodyToks_spellable (hc (c, b) List.mem_cons_self)).append ?_
    refine Spellable.cons (Keyword.spellable _) ?_
    refine (bodyToks_spellable (hb (c, b) List.mem_cons_self)).append ?_
    exact ih (fun e he => hc e (List.mem_cons_of_mem _ he))
      (fun e he => hb e (List.mem_cons_of_mem _ he))

theorem forToks_spellable {words : Option (List Word)}
    (h : ∀ ws ∈ words, ∀ w ∈ ws, PlainWord w) :
    Spellable (forToks lines words) := by
  cases words with
  | none => trivial
  | some ws =>
    refine Spellable.cons (Keyword.spellable _) ?_
    exact (wordsToks_spellable (h ws rfl)).append (breakToken_spellable lines)

end

theorem Std.spellable {level : Level} {c : Cmd} (h : Std level c)
    (lines : Bool) : Spellable (c.toks lines) := by
  induction h with
  | simple h =>
    rw [Cmd.toks]
    exact h.spellable
  | subshell h hredirs ih =>
    rw [Cmd.toks]
    refine Spellable.cons (t := .lParen) trivial ((bodyToks_spellable ih).append ?_)
    exact Spellable.cons (t := .rParen) trivial (redirsToks_spellable hredirs)
  | group h hredirs ih =>
    rw [Cmd.toks]
    refine (Keyword.spellable _).cons ((bodyToks_spellable ih).append ?_)
    exact (Keyword.spellable _).cons (redirsToks_spellable hredirs)
  | @ifThen cond body elifs els redirs hcond hb hconds hbodies hels hredirs
      ihc ihb ihcs ihbs ihe =>
    rw [Cmd.toks]
    refine (Keyword.spellable _).cons ((bodyToks_spellable ihc).append ?_)
    refine (Keyword.spellable _).cons ((bodyToks_spellable ihb).append ?_)
    refine (elifsToks_spellable ihcs ihbs).append (Spellable.append ?_ ?_)
    · cases els with
      | none => trivial
      | some b =>
        rw [elseToks]
        exact (Keyword.spellable _).cons (bodyToks_spellable (ihe b rfl))
    · exact (Keyword.spellable _).cons (redirsToks_spellable hredirs)
  | @whileDo cond body untilDo redirs hcond hb hredirs ihc ihb =>
    rw [Cmd.toks]
    refine Spellable.cons ?_ ((bodyToks_spellable ihc).append ?_)
    · cases untilDo <;> exact Keyword.spellable _
    refine (Keyword.spellable _).cons ((bodyToks_spellable ihb).append ?_)
    exact (Keyword.spellable _).cons (redirsToks_spellable hredirs)
  | forIn hvar hwords h hredirs ih =>
    rw [Cmd.toks]
    refine (Keyword.spellable _).cons (Spellable.cons ?_ ?_)
    · exact ⟨⟨_, rfl, plainText_name hvar⟩, trivial⟩
    refine (forToks_spellable hwords).append ?_
    refine (Keyword.spellable _).cons ((bodyToks_spellable ih).append ?_)
    exact (Keyword.spellable _).cons (redirsToks_spellable hredirs)
  | funcDef hname hfree h ih =>
    rw [Cmd.toks]
    exact Spellable.cons ⟨⟨_, rfl, plainText_name hname⟩, trivial⟩ ih
  | stage h ih => exact ih
  | @pipeline negated first parts hfirst hparts hwrap ihf ihp =>
    rw [Cmd.toks, partsToks]
    refine Spellable.append ?_ (ihf.append (pipedToks_spellable ihp))
    cases negated with
    | true => exact Keyword.spellable _
    | false => trivial
  | operand h ih => exact ih
  | @andOr left right op hleft hright ihl ihr =>
    rw [Cmd.toks]
    refine ihl.append (Spellable.cons ?_ ihr)
    cases op <;> trivial
  | item h ih => exact ih
  | list hne h ih =>
    rw [Cmd.toks]
    exact itemsToks_spellable ih

end LinuxRs.Shell
