/-
The parser on rendered simple commands and redirections, and the tokens a
rendered tree starts with.

The tokens of a tree are followed by arbitrary ones, of which only the first
matters: `followsCommand` and its kin are the tokens at which a command, a
pipeline or a chain has ended.
-/
import Mathlib.Data.List.TakeWhile
import LinuxRs.Shell.ParserSteps
import LinuxRs.Shell.RenderLex

namespace LinuxRs.Shell

open LinuxRs.Lib

-- ======== keywords

theorem literalKeyword_iff {w : Word} {kw : Keyword} :
    wordIsLiteralKeyword w kw = true ↔ w = [.lit kw.text] := by
  unfold wordIsLiteralKeyword
  split
  · simp
  · next h =>
    simp only [Bool.false_eq_true, false_iff]
    intro heq
    exact h _ heq

theorem Keyword.mem_all (kw : Keyword) : kw ∈ Keyword.all := by
  cases kw <;> decide

theorem free_iff {w : Word} :
    wordAsReserved w = none ↔ ∀ kw : Keyword, w ≠ [.lit kw.text] := by
  unfold wordAsReserved
  rw [List.find?_eq_none]
  constructor
  · intro h kw heq
    exact h kw kw.mem_all (Iff.mpr literalKeyword_iff heq)
  · intro h kw _ hlit
    exact h kw (Iff.mp literalKeyword_iff hlit)

@[simp] theorem reserved_keyword (kw : Keyword) :
    wordAsReserved [.lit kw.text] = some kw := by
  cases kw <;> rfl

theorem Keyword.text_inj {kw kw' : Keyword} (h : kw.text = kw'.text) :
    kw = kw' := by
  have hres := reserved_keyword kw
  rw [h, reserved_keyword] at hres
  exact (Option.some.inj hres).symm

theorem isKeyword_token (kw kw' : Keyword) :
    kw.token.isKeyword kw' = decide (kw = kw') := by
  rw [Bool.eq_iff_iff, decide_eq_true_eq]
  show wordIsLiteralKeyword [.lit kw.text] kw' = true ↔ _
  rw [literalKeyword_iff]
  constructor
  · intro h
    injection h with h
    injection h with h
    exact Keyword.text_inj h
  · intro h
    rw [h]

theorem wordAsAssignment_no_eq {t : Text} (h : '=' ∉ t) :
    wordAsAssignment [.lit t] = none := by
  have hdrop : t.dropWhile (· != '=') = [] := by
    rw [List.dropWhile_eq_nil_iff]
    intro c hc
    rw [bne_iff_ne]
    intro heq
    exact h (heq ▸ hc)
  simp only [wordAsAssignment]
  rw [hdrop]

theorem free_of_assignment {w : Word} {a : Assignment}
    (h : wordAsAssignment w = some a) : wordAsReserved w = none := by
  rw [free_iff]
  intro kw heq
  rw [heq] at h
  have hnone : wordAsAssignment [.lit kw.text] = none :=
    wordAsAssignment_no_eq (by cases kw <;> decide)
  rw [hnone] at h
  cases h

-- ======== streams

@[simp] theorem cur_ofList_cons (t : Token) (ts : List Token) :
    (Toks.ofList (t :: ts)).cur = t := rfl

@[simp] theorem advance_ofList (t : Token) (ts : List Token) :
    advance (.ofList (t :: ts)) = .ok () (.ofList ts) := by
  cases ts <;> rfl

theorem skipNewlines_ofList (ts : List Token)
    (h : (Toks.ofList ts).cur ≠ .newline) :
    skipNewlines (.ofList ts) = .ok () (.ofList ts) := by
  have hdrop : dropNewlines (.ofList ts) = .ok (.ofList ts) := by
    cases ts with
    | nil => rfl
    | cons t ts =>
      cases t with
      | newline => exact absurd rfl h
      | _ => rfl
  unfold skipNewlines
  rw [hdrop]

def bytesToks (ts : List Token) : List Token :=
  ts.map (Token.mapLit byteChars)

@[simp] theorem bytesToks_nil : bytesToks [] = [] := rfl

@[simp] theorem bytesToks_cons (t : Token) (ts : List Token) :
    bytesToks (t :: ts) = t.mapLit byteChars :: bytesToks ts := rfl

@[simp] theorem bytesToks_append (ts us : List Token) :
    bytesToks (ts ++ us) = bytesToks ts ++ bytesToks us := List.map_append

@[simp] theorem mapLit_word (f : Text → Text) (w : Word) :
    (Token.word w).mapLit f = .word (Word.mapLit f w) := rfl

@[simp] theorem mapLit_ioNumber (f : Text → Text) (k : Nat) :
    (Token.ioNumber k).mapLit f = .ioNumber k := rfl

@[simp] theorem mapLit_lParen (f : Text → Text) :
    Token.lParen.mapLit f = .lParen := rfl

@[simp] theorem mapLit_rParen (f : Text → Text) :
    Token.rParen.mapLit f = .rParen := rfl

-- ======== keywords

theorem byteChars_keyword (kw : Keyword) : byteChars kw.text = kw.text := by
  apply byteChars_of_all
  cases kw <;> decide

@[simp] theorem mapLit_keyword (kw : Keyword) :
    kw.token.mapLit byteChars = kw.token := by
  show Token.word [.lit (byteChars kw.text)] = _
  rw [byteChars_keyword]
  rfl

theorem byteChars_eq_ascii {t u : Text} (hu : ∀ c ∈ u, isAscii c = true)
    (h : byteChars t = u) : t = u := by
  have hascii : ∀ c ∈ t, isAscii c = true := by
    intro c hc
    by_contra hne
    have hc' : isAscii c = false := by simpa using hne
    -- a byte of that character would be in the text
    have hbytes : ∃ d ∈ byteChars t, isAscii d = false := by
      have hlen := length_utf8EncodeChar_of_not_ascii hc'
      obtain ⟨b, hb⟩ := List.exists_mem_of_length_pos
        (l := (String.utf8EncodeChar c).map asChar)
        (by rw [List.length_map]; omega)
      refine ⟨b, ?_, not_ascii_of_mem_utf8 hc' hb⟩
      obtain ⟨s, s', hs⟩ := List.append_of_mem hc
      rw [hs, byteChars_append, byteChars_cons]
      exact List.mem_append_right _ (List.mem_append_left _ hb)
    obtain ⟨d, hd, hhigh⟩ := hbytes
    rw [h] at hd
    rw [hu d hd] at hhigh
    cases hhigh
  rw [byteChars_of_ascii hascii] at h
  exact h

theorem free_bytes {w : Word} (h : PlainWord w) :
    wordAsReserved (Word.mapLit byteChars w) = none := by
  obtain ⟨t, rfl, -⟩ := h.literal
  rw [free_iff]
  intro kw heq
  injection heq with heq
  injection heq with heq
  have hascii : ∀ c ∈ kw.text, isAscii c = true :=
    List.all_eq_true.mp (by cases kw <;> decide)
  have := byteChars_eq_ascii hascii heq
  exact Iff.mp free_iff h.free kw (by rw [this])

-- ======== simple commands

def followsCommand (t : Token) : Bool := t.endsSimple && !t.isLParen

def followsPipeline (t : Token) : Bool := followsCommand t && !t.isPipe

def followsAndOr (t : Token) : Bool := followsPipeline t && (andOrOp t).isNone

theorem expectWord_ofList (what : Text) (w : Word) (ts : List Token) :
    expectWord what (.ofList (.word w :: ts)) = .ok w (.ofList ts) := by
  show (advance >>= _) (Toks.ofList (.word w :: ts)) = _
  rw [bind_of_ok (advance_ofList _ _)]
  rfl

theorem parseRedir_ofList (fd : Option Nat) (op : RedirOp) (t : Token) (w : Word)
    (ts : List Token) :
    parseRedir fd op (.ofList (t :: .word w :: ts)) =
      .ok ⟨fd, op, redirTarget op w⟩ (.ofList ts) := by
  show (advance >>= _) (Toks.ofList (t :: .word w :: ts)) = _
  rw [bind_of_ok (advance_ofList _ _), bind_of_ok (expectWord_ofList _ _ _)]
  rfl

@[simp] theorem redirOpFor_token (op : RedirOp) :
    redirOpFor op.token = some op := by
  cases op <;> rfl

@[simp] theorem mapLit_redirOp (op : RedirOp) :
    op.token.mapLit byteChars = op.token := by
  cases op <;> rfl

theorem Redir.Std.bytes {r : Redir} (h : r.Std) : ∃ w, bytesToks r.toks =
        (r.fd.map Token.ioNumber).toList ++ [r.op.token, .word w] ∧
      r.mapLit byteChars = ⟨r.fd, r.op, redirTarget r.op w⟩ := by
  obtain ⟨w, htarget, -⟩ := h.target
  have hword : r.target.word = w := by
    rw [htarget]
    cases r.op <;> rfl
  refine ⟨Word.mapLit byteChars w, ?_, ?_⟩
  · unfold Redir.toks
    rw [hword]
    cases r.fd with
    | none => simp
    | some k => simp
  · unfold Redir.mapLit
    rw [htarget]
    cases r.op <;> rfl

/-- Behind the words of a command its redirections are read. -/
theorem simpleLoop_redirs (c : Parser Cmd) (redirs : List Redir)
    (h : ∀ r ∈ redirs, r.Std) (s : SimpleCmd) (rest : List Token)
    (hrest : followsCommand (Toks.ofList rest).cur = true) (k : Nat)
    (hk : (redirsToks redirs).length < k) :
    simpleLoop c k s none (.ofList (bytesToks (redirsToks redirs) ++ rest)) =
      .ok (.simple { s with redirs := s.redirs ++ redirs.map (·.mapLit byteChars) })
        (.ofList rest) := by
  induction redirs generalizing s k with
  | nil =>
    obtain ⟨m, rfl⟩ : ∃ m, k = m + 1 := ⟨k - 1, by omega⟩
    have hend : (Toks.ofList rest).cur.endsSimple = true := by
      simp only [followsCommand, Bool.and_eq_true] at hrest
      exact hrest.1
    simp only [redirsToks, List.flatMap_nil, bytesToks_nil, List.nil_append,
      List.map_nil, List.append_nil]
    exact simpleLoop_end hend
  | cons r redirs ih =>
    obtain ⟨w, htoks, hr⟩ := (h r List.mem_cons_self).bytes
    have hrs : ∀ r' ∈ redirs, r'.Std :=
      fun r' hr' => h r' (List.mem_cons_of_mem r hr')
    have hcons : redirsToks (r :: redirs) = r.toks ++ redirsToks redirs := rfl
    rw [hcons, bytesToks_append, List.append_assoc, htoks]
    have hlen : r.toks.length = (r.fd.map Token.ioNumber).toList.length + 2 := by
      unfold Redir.toks
      simp
    rw [hcons, List.length_append, hlen] at hk
    -- one round, with the IO number already read
    have hround : ∀ (fd : Option Nat) (m : Nat),
        fd = r.fd → (redirsToks redirs).length < m →
        simpleLoop c (m + 1) s fd (.ofList (r.op.token :: .word w ::
          (bytesToks (redirsToks redirs) ++ rest))) =
        .ok (.simple { s with redirs :=
          s.redirs ++ (r :: redirs).map (·.mapLit byteChars) }) (.ofList rest) := by
      intro fd m hfd hm
      have hop : redirOpFor (Toks.ofList (r.op.token :: .word w ::
          (bytesToks (redirsToks redirs) ++ rest))).cur = some r.op :=
        redirOpFor_token r.op
      rw [simpleLoop_redir hop, bind_of_ok (parseRedir_ofList _ _ _ _ _), hfd,
        ← hr, ih hrs _ m hm]
      simp
    cases hfd : r.fd with
    | none =>
      obtain ⟨m, rfl⟩ : ∃ m, k = m + 1 := ⟨k - 1, by omega⟩
      rw [hfd] at hk
      exact hround none m hfd.symm (by omega)
    | some fd =>
      rw [hfd] at hk
      obtain ⟨m, rfl⟩ : ∃ m, k = m + 2 := ⟨k - 2, by omega⟩
      simp only [Option.map_some, Option.toList_some, List.cons_append,
        List.nil_append]
      rw [simpleLoop_io rfl, bind_of_ok (advance_ofList _ _)]
      exact hround (some fd) m hfd.symm (by omega)

theorem cur_redirs_not_paren {redirs : List Redir} {rest : List Token}
    (hrest : followsCommand (Toks.ofList rest).cur = true) :
    (Toks.ofList (bytesToks (redirsToks redirs) ++ rest)).cur.isLParen = false := by
  cases redirs with
  | nil =>
    simp only [followsCommand, Bool.and_eq_true, Bool.not_eq_true'] at hrest
    exact hrest.2
  | cons r redirs =>
    have hcons : redirsToks (r :: redirs) = r.toks ++ redirsToks redirs := rfl
    rw [hcons]
    unfold Redir.toks
    cases r.fd with
    | none =>
      simp only [Option.map_none, Option.toList_none, List.nil_append,
        List.cons_append, bytesToks_cons, mapLit_redirOp, cur_ofList_cons]
      cases r.op <;> rfl
    | some k => rfl

theorem funcName_of_not_paren {s : SimpleCmd} {w : Word} {t : Token}
    (h : t.isLParen = false) : funcName s w t = none := by
  cases t <;> first | rfl | cases h

/-- The words of a command are read, and then its redirections. -/
theorem simpleLoop_words (c : Parser Cmd) (words : List Word)
    (redirs : List Redir) (h : ∀ r ∈ redirs, r.Std) (s : SimpleCmd)
    (hs : s.words ≠ []) (rest : List Token)
    (hrest : followsCommand (Toks.ofList rest).cur = true) (k : Nat)
    (hk : words.length + (redirsToks redirs).length < k) :
    simpleLoop c k s none (.ofList (bytesToks (words.map Token.word) ++
        (bytesToks (redirsToks redirs) ++ rest))) =
      .ok (.simple { s with
        words := s.words ++ words.map (Word.mapLit byteChars)
        redirs := s.redirs ++ redirs.map (·.mapLit byteChars) })
        (.ofList rest) := by
  induction words generalizing s k with
  | nil =>
    rw [List.map_nil, bytesToks_nil, List.nil_append,
      simpleLoop_redirs c redirs h s rest hrest k (by simpa using hk)]
    simp
  | cons w words ih =>
    simp only [List.length_cons] at hk
    obtain ⟨m, rfl⟩ : ∃ m, k = m + 1 := ⟨k - 1, by omega⟩
    rw [List.map_cons, bytesToks_cons, List.cons_append, mapLit_word]
    have hname : ∀ t, funcName s (Word.mapLit byteChars w) t = none := by
      intro t
      cases t <;> simp [funcName, hs]
    have hassign : leadingAssignment s (Word.mapLit byteChars w) = none := by
      simp [leadingAssignment, hs]
    rw [simpleLoop_word rfl (advance_ofList _ _) (hname _) hassign,
      ih _ (by simp) m (by omega)]
    simp

-- ======== assignments

theorem wordAsAssignment_split {pre post : Text} (h : '=' ∉ pre) :
    wordAsAssignment [.lit (pre ++ '=' :: post)] = if isValidName pre then
        some ⟨pre, if post = [] then [] else [.lit post]⟩
      else none := by
  have hpre : ∀ c ∈ pre, (c != '=') = true := by
    intro c hc
    rw [bne_iff_ne]
    intro heq
    exact h (heq ▸ hc)
  have htake : (pre ++ '=' :: post).takeWhile (· != '=') = pre := by
    rw [List.takeWhile_append_of_pos hpre, List.takeWhile_cons_of_neg (by simp),
      List.append_nil]
  have hdrop : (pre ++ '=' :: post).dropWhile (· != '=') = '=' :: post := by
    rw [List.dropWhile_append_of_pos hpre, List.dropWhile_cons_of_neg (by simp)]
  simp only [wordAsAssignment]
  rw [hdrop, htake]

theorem eq_not_mem_byteChars {t : Text} (h : '=' ∉ t) : '=' ∉ byteChars t := by
  intro hmem
  rcases mem_byteChars hmem with hmem | hhigh
  · exact h hmem
  · exact absurd hhigh (by decide)

theorem name_bytes {name : Text} (h : isValidName name = true) :
    '=' ∉ name ∧ byteChars name = name := by
  obtain ⟨-, hcont⟩ := isNameCont_of_valid h
  constructor
  · intro hmem
    exact (isNameCont_plain (hcont _ hmem)).2.2.1 rfl
  · exact byteChars_of_ascii fun c hc => (isNameCont_plain (hcont c hc)).2.1

theorem isValidName_bytes {t : Text} (h : isValidName (byteChars t) = true) :
    isValidName t = true := by
  obtain ⟨-, hcont⟩ := isNameCont_of_valid h
  have hself : t = byteChars t := byteChars_eq_ascii
    (fun c hc => (isNameCont_plain (hcont c hc)).2.1) rfl
  rw [hself]
  exact h

/-- A written assignment is read as one. -/
theorem Assignment.Std.read {a : Assignment} (h : a.Std) :
    ∃ w, a.token.mapLit byteChars = .word w ∧
      wordAsAssignment w = some (a.mapLit byteChars) ∧
      wordAsSimpleName w = none := by
  obtain ⟨heq, hname⟩ := name_bytes h.name
  have hbytes : byteChars (a.name ++ '=' :: Word.text a.value) =
      a.name ++ '=' :: byteChars (Word.text a.value) := by
    rw [byteChars_append, hname, byteChars_cons,
      map_asChar_utf8EncodeChar (by decide)]
    rfl
  refine ⟨[.lit (a.name ++ '=' :: byteChars (Word.text a.value))], ?_, ?_, ?_⟩
  · show Token.word [.lit (byteChars _)] = _
    rw [hbytes]
  · rw [wordAsAssignment_split heq, if_pos h.name]
    congr 2
    rcases h.value with hnil | ⟨t, ht, hne, -⟩
    · rw [hnil]
      rfl
    · rw [ht]
      have htext : Word.text [.lit t] = t := List.append_nil t
      have hpos := length_le_byteChars t
      have hlen := List.length_pos_iff.mpr hne
      rw [htext, if_neg]
      · rfl
      · intro hnil
        rw [hnil, List.length_nil] at hpos
        omega
  · have hinvalid : isValidName (a.name ++
        '=' :: byteChars (Word.text a.value)) = false := by
      rw [Bool.eq_false_iff]
      intro hvalid
      exact (name_bytes hvalid).1 (by simp)
    simp only [wordAsSimpleName]
    rw [if_neg (by simp [hinvalid])]

theorem not_assignment_bytes {w : Word} (h : PlainWord w)
    (hw : wordAsAssignment w = none) :
    wordAsAssignment (Word.mapLit byteChars w) = none := by
  obtain ⟨t, rfl, -⟩ := h.literal
  show wordAsAssignment [.lit (byteChars t)] = none
  by_cases hmem : '=' ∈ t
  · obtain ⟨pre, post, hsplit, hpre⟩ := List.eq_append_cons_of_mem hmem
    rw [hsplit, wordAsAssignment_split hpre] at hw
    rw [hsplit, byteChars_append, byteChars_cons,
      map_asChar_utf8EncodeChar (by decide), List.singleton_append,
      wordAsAssignment_split (eq_not_mem_byteChars hpre), if_neg]
    intro hvalid
    rw [if_pos (isValidName_bytes hvalid)] at hw
    cases hw
  · exact wordAsAssignment_no_eq (eq_not_mem_byteChars hmem)

/-- The assignments are read first. -/
theorem simpleLoop_assigns (c : Parser Cmd) {s : SimpleCmd} (h : s.Std)
    (as : List Assignment) (has : ∀ a ∈ as, a.Std) (pre : List Assignment)
    (rest : List Token) (hrest : followsCommand (Toks.ofList rest).cur = true)
    (k : Nat)
    (hk : as.length + s.words.length + (redirsToks s.redirs).length < k) :
    simpleLoop c k ⟨pre, [], []⟩ none
        (.ofList (bytesToks (as.map Assignment.token) ++
          (bytesToks (s.words.map Token.word) ++
          (bytesToks (redirsToks s.redirs) ++ rest)))) =
      .ok (.simple ⟨pre ++ as.map (·.mapLit byteChars),
        s.words.map (Word.mapLit byteChars),
        s.redirs.map (·.mapLit byteChars)⟩) (.ofList rest) := by
  induction as generalizing pre k with
  | nil =>
    rw [List.map_nil, bytesToks_nil, List.nil_append]
    cases hwords : s.words with
    | nil =>
      rw [hwords] at hk
      rw [List.map_nil, bytesToks_nil, List.nil_append,
        simpleLoop_redirs c _ h.redirs _ rest hrest k (by simpa using hk)]
      simp
    | cons w words =>
      have hplain := h.words w (by rw [hwords]; exact List.mem_cons_self)
      rw [hwords] at hk
      simp only [List.length_nil, List.length_cons] at hk
      obtain ⟨m, rfl⟩ : ∃ m, k = m + 1 := ⟨k - 1, by omega⟩
      rw [List.map_cons, bytesToks_cons, List.cons_append, mapLit_word]
      -- neither a function definition nor an assignment
      have hparen : (Toks.ofList (bytesToks (words.map Token.word) ++
          (bytesToks (redirsToks s.redirs) ++ rest))).cur.isLParen = false := by
        cases words with
        | nil => exact cur_redirs_not_paren hrest
        | cons w' words => rfl
      have hassign : leadingAssignment ⟨pre, [], []⟩ (Word.mapLit byteChars w) =
          none := not_assignment_bytes hplain (h.name w (by rw [hwords]; rfl))
      rw [simpleLoop_word rfl (advance_ofList _ _)
          (funcName_of_not_paren hparen) hassign,
        simpleLoop_words c words _ h.redirs _ (by simp) rest hrest m (by omega)]
      simp
  | cons a as ih =>
    obtain ⟨w, htoken, hassign, hname⟩ := (has a List.mem_cons_self).read
    simp only [List.length_cons] at hk
    obtain ⟨m, rfl⟩ : ∃ m, k = m + 1 := ⟨k - 1, by omega⟩
    rw [List.map_cons, bytesToks_cons, List.cons_append, htoken]
    have hfunc : ∀ t, funcName ⟨pre, [], []⟩ w t = none := by
      intro t
      cases t <;> simp [funcName, hname]
    have hlead : leadingAssignment ⟨pre, [], []⟩ w =
        some (a.mapLit byteChars) := hassign
    rw [simpleLoop_assign rfl (advance_ofList _ _) (hfunc _) hlead,
      ih (fun b hb => has b (List.mem_cons_of_mem a hb)) _ m (by omega)]
    simp

theorem parseSimple_reads {s : SimpleCmd} (h : s.Std) (c : Parser Cmd)
    (rest : List Token) (hrest : followsCommand (Toks.ofList rest).cur = true)
    (n : Nat) (hn : s.toks.length < n) :
    parseSimple n c (.ofList (bytesToks s.toks ++ rest)) =
      .ok (.simple (s.mapLit byteChars)) (.ofList rest) := by
  unfold SimpleCmd.toks at hn ⊢
  simp only [List.length_append, List.length_map] at hn
  simp only [bytesToks_append, List.append_assoc]
  exact simpleLoop_assigns c h s.assigns h.assigns [] rest hrest n hn

theorem trailingLoop_redirs (redirs : List Redir) (h : ∀ r ∈ redirs, r.Std)
    (rest : List Token) (hrest : followsCommand (Toks.ofList rest).cur = true)
    (k : Nat) (hk : (redirsToks redirs).length < k) :
    trailingLoop k none (.ofList (bytesToks (redirsToks redirs) ++ rest)) =
      .ok (redirs.map (·.mapLit byteChars)) (.ofList rest) := by
  induction redirs generalizing k with
  | nil =>
    obtain ⟨m, rfl⟩ : ∃ m, k = m + 1 := ⟨k - 1, by omega⟩
    apply trailingLoop_end
    show followsRedirs (Toks.ofList rest).cur = true
    cases hcur : (Toks.ofList rest).cur <;> rw [hcur] at hrest <;>
      first | rfl | cases hrest
  | cons r redirs ih =>
    obtain ⟨w, htoks, hr⟩ := (h r List.mem_cons_self).bytes
    have hrs : ∀ r' ∈ redirs, r'.Std :=
      fun r' hr' => h r' (List.mem_cons_of_mem r hr')
    have hcons : redirsToks (r :: redirs) = r.toks ++ redirsToks redirs := rfl
    rw [hcons, bytesToks_append, List.append_assoc, htoks]
    have hlen : r.toks.length = (r.fd.map Token.ioNumber).toList.length + 2 := by
      unfold Redir.toks
      simp
    rw [hcons, List.length_append, hlen] at hk
    have hround : ∀ (fd : Option Nat) (m : Nat),
        fd = r.fd → (redirsToks redirs).length < m →
        trailingLoop (m + 1) fd (.ofList (r.op.token :: .word w ::
          (bytesToks (redirsToks redirs) ++ rest))) =
        .ok ((r :: redirs).map (·.mapLit byteChars)) (.ofList rest) := by
      intro fd m hfd hm
      have hop : redirOpFor (Toks.ofList (r.op.token :: .word w ::
          (bytesToks (redirsToks redirs) ++ rest))).cur = some r.op :=
        redirOpFor_token r.op
      rw [trailingLoop_redir hop, bind_of_ok (parseRedir_ofList _ _ _ _ _), hfd,
        ← hr, bind_of_ok (ih hrs m hm)]
      rfl
    cases hfd : r.fd with
    | none =>
      obtain ⟨m, rfl⟩ : ∃ m, k = m + 1 := ⟨k - 1, by omega⟩
      rw [hfd] at hk
      exact hround none m hfd.symm (by omega)
    | some fd =>
      rw [hfd] at hk
      obtain ⟨m, rfl⟩ : ∃ m, k = m + 2 := ⟨k - 2, by omega⟩
      simp only [Option.map_some, Option.toList_some, List.cons_append,
        List.nil_append]
      rw [trailingLoop_io rfl, bind_of_ok (advance_ofList _ _)]
      exact hround (some fd) m hfd.symm (by omega)

-- ======== first tokens

def closers : List Keyword :=
  [.kwThen, .kwElse, .kwElif, .kwFi, .kwDo, .kwDone, .kwClose]

def Token.opens : Token → Bool
  | .word w => !closers.any (wordIsLiteralKeyword w)
  | .ioNumber _ | .lParen => true
  | t => (redirOpFor t).isSome

theorem opens_of_free {w : Word} (h : wordAsReserved w = none) :
    (Token.word w).opens = true ∧ ∀ kw, (Token.word w).isKeyword kw = false := by
  have hlit : ∀ kw, wordIsLiteralKeyword w kw = false := by
    intro kw
    rw [Bool.eq_false_iff]
    intro heq
    exact Iff.mp free_iff h kw (Iff.mp literalKeyword_iff heq)
  refine ⟨?_, hlit⟩
  show (!closers.any (wordIsLiteralKeyword w)) = true
  rw [show wordIsLiteralKeyword w = fun _ => false from funext hlit]
  rfl

theorem opens_redirs {redirs : List Redir} (hne : redirs ≠ []) :
    ∃ t us, bytesToks (redirsToks redirs) = t :: us ∧ t.opens = true ∧
      t.reserved = none ∧ t.isLParen = false ∧ t.isKeyword .kwBang = false := by
  cases redirs with
  | nil => exact absurd rfl hne
  | cons r redirs =>
    have hcons : redirsToks (r :: redirs) = r.toks ++ redirsToks redirs := rfl
    rw [hcons]
    unfold Redir.toks
    cases r.fd with
    | none =>
      simp only [Option.map_none, Option.toList_none, List.nil_append,
        List.cons_append, bytesToks_cons, mapLit_redirOp]
      refine ⟨r.op.token, _, rfl, ?_, ?_, ?_, ?_⟩ <;> cases r.op <;> rfl
    | some k => exact ⟨.ioNumber k, _, rfl, rfl, rfl, rfl, rfl⟩

/-- A written command begins with a word that is free. -/
theorem SimpleCmd.Std.opens {s : SimpleCmd} (h : s.Std) :
    ∃ t us, bytesToks s.toks = t :: us ∧ t.opens = true ∧ t.reserved = none ∧
      t.isLParen = false ∧ t.isKeyword .kwBang = false := by
  have hfree : ∀ w us, wordAsReserved w = none →
      ∃ t us', Token.word w :: us = t :: us' ∧ t.opens = true ∧
        t.reserved = none ∧ t.isLParen = false ∧ t.isKeyword .kwBang = false := by
    intro w us hw
    exact ⟨.word w, us, rfl, (opens_of_free hw).1, hw, rfl, (opens_of_free hw).2 _⟩
  unfold SimpleCmd.toks
  cases has : s.assigns with
  | cons a as =>
    obtain ⟨w, htoken, hassign, -⟩ :=
      (h.assigns a (by rw [has]; exact List.mem_cons_self)).read
    simp only [List.map_cons, List.cons_append, bytesToks_cons, htoken]
    exact hfree w _ (free_of_assignment hassign)
  | nil =>
    cases hws : s.words with
    | cons w ws =>
      have hw := h.words w (by rw [hws]; exact List.mem_cons_self)
      simp only [List.map_nil, List.map_cons, List.cons_append, List.nil_append,
        bytesToks_cons, mapLit_word]
      exact hfree _ _ (free_bytes hw)
    | nil =>
      have hne : s.redirs ≠ [] := by
        rcases h.nonempty with hne | hne | hne
        · exact absurd has hne
        · exact absurd hws hne
        · exact hne
      simp only [List.map_nil, List.nil_append]
      exact opens_redirs hne

theorem mapLit_name {name : Text} (h : isValidName name = true) :
    (Token.word [.lit name]).mapLit byteChars = .word [.lit name] := by
  show Token.word [.lit (byteChars name)] = _
  rw [(name_bytes h).2]

/-- What a written tree begins with: never a closing word or a separator. -/
theorem Std.opens {level : Level} {c : Cmd} (h : Std level c) (lines : Bool) :
    ∃ t us, bytesToks (c.toks lines) = t :: us ∧ t.opens = true ∧
      (level = .command → t.isKeyword .kwBang = false) := by
  have hkw : ∀ (kw : Keyword) (ts : List Token), kw ∉ closers → kw ≠ .kwBang →
      ∃ t us, bytesToks (kw.token :: ts) = t :: us ∧ t.opens = true ∧
        (Level.command = .command → t.isKeyword .kwBang = false) := by
    intro kw ts hcloser hbang
    rw [bytesToks_cons, mapLit_keyword]
    refine ⟨kw.token, _, rfl, ?_, ?_⟩
    · cases kw <;> first | rfl | exact absurd (by decide) hcloser
    · intro _
      rw [isKeyword_token]
      exact decide_eq_false hbang
  induction h with
  | simple h =>
    rw [Cmd.toks]
    obtain ⟨t, us, hts, hopens, -, -, hbang⟩ := h.opens
    exact ⟨t, us, hts, hopens, fun _ => hbang⟩
  | subshell h hredirs ih =>
    rw [Cmd.toks]
    exact ⟨.lParen, _, rfl, rfl, fun _ => rfl⟩
  | group h hredirs ih =>
    rw [Cmd.toks]
    exact hkw .kwOpen _ (by decide) (by decide)
  | ifThen =>
    rw [Cmd.toks]
    exact hkw .kwIf _ (by decide) (by decide)
  | @whileDo cond body untilDo redirs =>
    rw [Cmd.toks]
    cases untilDo with
    | true => exact hkw .kwUntil _ (by decide) (by decide)
    | false => exact hkw .kwWhile _ (by decide) (by decide)
  | forIn =>
    rw [Cmd.toks]
    exact hkw .kwFor _ (by decide) (by decide)
  | @funcDef name body hname hfree h ih =>
    rw [Cmd.toks, bytesToks_cons, mapLit_name hname]
    obtain ⟨hopens, hkeys⟩ := opens_of_free hfree
    exact ⟨_, _, rfl, hopens, fun _ => hkeys _⟩
  | stage h ih =>
    obtain ⟨t, us, hts, hopens, -⟩ := ih
    exact ⟨t, us, hts, hopens, fun h => by cases h⟩
  | @pipeline negated first parts hfirst hparts hwrap ihf ihp =>
    rw [Cmd.toks, partsToks]
    cases negated with
    | true => exact ⟨Keyword.kwBang.token, _, rfl, rfl, fun h => by cases h⟩
    | false =>
      obtain ⟨t, us, hts, hopens, -⟩ := ihf
      refine ⟨t, us ++ bytesToks (pipedToks lines parts), ?_, hopens,
        fun h => by cases h⟩
      show bytesToks ([] ++ (first.toks lines ++ pipedToks lines parts)) = _
      rw [List.nil_append, bytesToks_append, hts]
      rfl
  | operand h ih =>
    obtain ⟨t, us, hts, hopens, -⟩ := ih
    exact ⟨t, us, hts, hopens, fun h => by cases h⟩
  | @andOr left right op hleft hright ihl ihr =>
    obtain ⟨t, us, hts, hopens, -⟩ := ihl
    rw [Cmd.toks, bytesToks_append, hts]
    exact ⟨t, _, rfl, hopens, fun h => by cases h⟩
  | item h ih =>
    obtain ⟨t, us, hts, hopens, -⟩ := ih
    exact ⟨t, us, hts, hopens, fun h => by cases h⟩
  | @list items hne h ih =>
    cases items with
    | nil => exact absurd rfl hne
    | cons i items =>
      obtain ⟨t, us, hts, hopens, -⟩ := ih i List.mem_cons_self
      obtain ⟨c, sep⟩ := i
      rw [Cmd.toks, itemsToks, bytesToks_append, hts]
      exact ⟨t, _, rfl, hopens, fun h => by cases h⟩

end LinuxRs.Shell
