/-
Which rendered trees come back unchanged.

The parser returns the tree with its words in bytes, so the law is about
those: it comes back as it was exactly when its text is ASCII. `norm id` is
the tree up to one-element sequential lists.
-/
import LinuxRs.Shell.RoundTrip

namespace LinuxRs.Shell

open LinuxRs.Lib Filter

variable {lines : Bool}

-- ======== ASCII

def AsciiToks (ts : List Token) : Prop :=
  ∀ t ∈ ts, ∀ ch ∈ t.spell, isAscii ch = true

@[simp] theorem asciiToks_nil : AsciiToks [] := nofun

@[simp] theorem asciiToks_append {ts us : List Token} :
    AsciiToks (ts ++ us) ↔ AsciiToks ts ∧ AsciiToks us :=
  List.forall_mem_append

theorem asciiToks_cons {t : Token} {ts : List Token} :
    AsciiToks (t :: ts) ↔ (∀ ch ∈ t.spell, isAscii ch = true) ∧ AsciiToks ts :=
  List.forall_mem_cons

theorem asciiToks_skip {t : Token} (h : t.spell.all isAscii = true)
    (ts : List Token) : AsciiToks (t :: ts) ↔ AsciiToks ts := by
  rw [asciiToks_cons]
  exact and_iff_right (List.all_eq_true.mp h)

@[simp] theorem ascii_keyword (kw : Keyword) (ts : List Token) :
    AsciiToks (kw.token :: ts) ↔ AsciiToks ts :=
  asciiToks_skip (by cases kw <;> decide) ts

@[simp] theorem ascii_lParen (ts : List Token) :
    AsciiToks (.lParen :: ts) ↔ AsciiToks ts :=
  asciiToks_skip (by decide) ts

@[simp] theorem ascii_rParen (ts : List Token) :
    AsciiToks (.rParen :: ts) ↔ AsciiToks ts :=
  asciiToks_skip (by decide) ts

@[simp] theorem ascii_pipe (ts : List Token) :
    AsciiToks (.pipe :: ts) ↔ AsciiToks ts :=
  asciiToks_skip (by decide) ts

@[simp] theorem ascii_andOrOp (op : AndOrOp) (ts : List Token) :
    AsciiToks (op.token :: ts) ↔ AsciiToks ts :=
  asciiToks_skip (by cases op <;> decide) ts

@[simp] theorem ascii_redirOp (op : RedirOp) (ts : List Token) :
    AsciiToks (op.token :: ts) ↔ AsciiToks ts :=
  asciiToks_skip (by cases op <;> decide) ts

@[simp] theorem ascii_break (ts : List Token) :
    AsciiToks (breakToken lines :: ts) ↔ AsciiToks ts :=
  asciiToks_skip (by cases lines <;> decide) ts

@[simp] theorem ascii_sep (sep : Sep) (ts : List Token) :
    AsciiToks (sep.token lines :: ts) ↔ AsciiToks ts := by
  cases sep with
  | seq => exact ascii_break ts
  | bg => exact asciiToks_skip (show Token.amp.spell.all isAscii = true by decide) ts

@[simp] theorem ascii_ioNumber (k : Nat) (ts : List Token) :
    AsciiToks (.ioNumber k :: ts) ↔ AsciiToks ts := by
  rw [asciiToks_cons, and_iff_right]
  exact (plainText_showNat k).2.2

@[simp] theorem ascii_bodyEnd (b : Cmd) : AsciiToks (bodyEnd lines b) := by
  cases b with
  | list items => exact asciiToks_nil
  | _ => exact (ascii_break []).mpr asciiToks_nil

theorem ascii_word {w : Word} {ts : List Token} : AsciiToks (.word w :: ts) ↔
      (∀ ch ∈ Word.text w, isAscii ch = true) ∧ AsciiToks ts := by
  rw [asciiToks_cons]
  have hspell : (∀ ch ∈ (Token.word w).spell, isAscii ch = true) ↔
      ∀ ch ∈ Word.text w, isAscii ch = true := by
    show (∀ ch ∈ Word.text w ++ [' '], isAscii ch = true) ↔ _
    rw [List.forall_mem_append]
    exact and_iff_left (List.all_eq_true.mp (by decide))
  rw [hspell]

theorem byteChars_eq_self {t : Text} :
    byteChars t = t ↔ ∀ ch ∈ t, isAscii ch = true := by
  constructor
  · intro h ch hch
    by_contra hne
    have hlt := length_lt_byteChars hch (by simpa using hne)
    rw [h] at hlt
    omega
  · exact byteChars_of_ascii

-- ======== words

theorem mapLit_eq_iff {w : Word} (h : PlainWord w) :
    Word.mapLit byteChars w = Word.mapLit id w ↔
      ∀ ch ∈ Word.text w, isAscii ch = true := by
  obtain ⟨t, rfl, -⟩ := h.literal
  have htext : Word.text [.lit t] = t := List.append_nil t
  rw [htext, ← byteChars_eq_self]
  show [Seg.lit (byteChars t)] = [Seg.lit t] ↔ _
  simp

theorem words_eq_iff {words : List Word} (h : ∀ w ∈ words, PlainWord w) :
    words.map (Word.mapLit byteChars) = words.map (Word.mapLit id) ↔
      AsciiToks (words.map Token.word) := by
  induction words with
  | nil => simp
  | cons w words ih =>
    rw [List.map_cons, List.map_cons, List.map_cons, List.cons.injEq, ascii_word,
      mapLit_eq_iff (h w List.mem_cons_self),
      ih fun v hv => h v (List.mem_cons_of_mem w hv)]

theorem redir_eq_iff {r : Redir} (h : r.Std) :
    r.mapLit byteChars = r.mapLit id ↔ AsciiToks r.toks := by
  obtain ⟨w, htarget, hw⟩ := h.target
  have hword : r.target.word = w := by
    rw [htarget]
    cases r.op <;> rfl
  have htoks : AsciiToks r.toks ↔ ∀ ch ∈ Word.text w, isAscii ch = true := by
    unfold Redir.toks
    rw [asciiToks_append, ascii_redirOp, ascii_word, hword]
    cases r.fd with
    | none => simp
    | some k => simp
  rw [htoks, ← mapLit_eq_iff hw]
  unfold Redir.mapLit
  rw [htarget]
  cases r.op <;> simp [redirTarget, RedirTarget.mapLit]

theorem redirs_eq_iff {redirs : List Redir} (h : ∀ r ∈ redirs, r.Std) :
    redirs.map (·.mapLit byteChars) = redirs.map (·.mapLit id) ↔
      AsciiToks (redirsToks redirs) := by
  induction redirs with
  | nil => simp [redirsToks]
  | cons r redirs ih =>
    have hcons : redirsToks (r :: redirs) = r.toks ++ redirsToks redirs := rfl
    rw [List.map_cons, List.map_cons, List.cons.injEq, hcons, asciiToks_append,
      redir_eq_iff (h r List.mem_cons_self),
      ih fun r' hr => h r' (List.mem_cons_of_mem r hr)]

theorem assign_eq_iff {a : Assignment} (h : a.Std) (ts : List Token) :
    AsciiToks (a.token :: ts) ↔
      a.mapLit byteChars = a.mapLit id ∧ AsciiToks ts := by
  obtain ⟨-, hcont⟩ := isNameCont_of_valid h.name
  have hname : ∀ ch ∈ a.name, isAscii ch = true :=
    fun ch hch => (isNameCont_plain (hcont ch hch)).2.1
  have htext : (∀ ch ∈ Word.text [.lit (a.name ++ '=' :: Word.text a.value)],
      isAscii ch = true) ↔ ∀ ch ∈ Word.text a.value, isAscii ch = true := by
    rw [show Word.text [.lit (a.name ++ '=' :: Word.text a.value)] =
      a.name ++ '=' :: Word.text a.value from List.append_nil _,
      List.forall_mem_append, List.forall_mem_cons]
    constructor
    · intro hall
      exact hall.2.2
    · intro hvalue
      exact ⟨hname, by decide, hvalue⟩
  have hvalue : a.mapLit byteChars = a.mapLit id ↔
      ∀ ch ∈ Word.text a.value, isAscii ch = true := by
    unfold Assignment.mapLit
    simp only [Assignment.mk.injEq, true_and]
    rcases h.value with hnil | ⟨t, ht, -, -⟩
    · rw [hnil]
      simp [Word.mapLit, Word.text]
    · rw [ht, show Word.text [.lit t] = t from List.append_nil t,
        ← byteChars_eq_self]
      show [Seg.lit (byteChars t)] = [Seg.lit t] ↔ _
      simp
  unfold Assignment.token
  rw [ascii_word, htext, hvalue]

theorem simple_eq_iff {s : SimpleCmd} (h : s.Std) :
    s.mapLit byteChars = s.mapLit id ↔ AsciiToks s.toks := by
  have hassigns : ∀ as : List Assignment, (∀ a ∈ as, a.Std) →
      (as.map (·.mapLit byteChars) = as.map (·.mapLit id) ↔
        AsciiToks (as.map Assignment.token)) := by
    intro as
    induction as with
    | nil => simp
    | cons a as ih =>
      intro has
      rw [List.map_cons, List.map_cons, List.map_cons, List.cons.injEq,
        assign_eq_iff (has a List.mem_cons_self),
        ih fun b hb => has b (List.mem_cons_of_mem a hb)]
  unfold SimpleCmd.mapLit SimpleCmd.toks
  rw [SimpleCmd.mk.injEq, asciiToks_append, asciiToks_append, and_assoc,
    hassigns _ h.assigns, words_eq_iff h.words, redirs_eq_iff h.redirs]

-- ======== trees

/-- Characters and bytes give the command one normal form. -/
def Same (c : Cmd) : Prop := c.norm byteChars = c.norm id

theorem parts_eq_iff {ps : List Cmd}
    (h : ∀ p ∈ ps, (Same p ↔ AsciiToks (p.toks lines))) :
    normParts byteChars ps = normParts id ps ↔
      AsciiToks (pipedToks lines ps) := by
  induction ps with
  | nil => simp [normParts, pipedToks]
  | cons p ps ih =>
    rw [normParts, normParts, pipedToks, List.cons.injEq, ascii_pipe,
      asciiToks_append, ← h p List.mem_cons_self,
      ih fun q hq => h q (List.mem_cons_of_mem p hq)]
    rfl

theorem items_eq_iff {items : List (Cmd × Sep)}
    (h : ∀ i ∈ items, (Same i.1 ↔ AsciiToks (i.1.toks lines))) :
    normItems byteChars items = normItems id items ↔
      AsciiToks (itemsToks lines items) := by
  induction items with
  | nil => simp [normItems, itemsToks]
  | cons i items ih =>
    have hi := h i List.mem_cons_self
    obtain ⟨c, sep⟩ := i
    rw [normItems, normItems, itemsToks, List.cons.injEq, asciiToks_append,
      ascii_sep, ← hi, ih fun j hj => h j (List.mem_cons_of_mem _ hj),
      Prod.mk.injEq, and_iff_left rfl]
    rfl

theorem elifs_eq_iff {elifs : List (Cmd × Cmd)}
    (hc : ∀ e ∈ elifs, (Same e.1 ↔ AsciiToks (e.1.toks lines)))
    (hb : ∀ e ∈ elifs, (Same e.2 ↔ AsciiToks (e.2.toks lines))) :
    normElifs byteChars elifs = normElifs id elifs ↔
      AsciiToks (elifsToks lines elifs) := by
  induction elifs with
  | nil => simp [normElifs, elifsToks]
  | cons e elifs ih =>
    have hc' := hc e List.mem_cons_self
    have hb' := hb e List.mem_cons_self
    have hrest := ih (fun e' he => hc e' (List.mem_cons_of_mem _ he))
      (fun e' he => hb e' (List.mem_cons_of_mem _ he))
    obtain ⟨c, b⟩ := e
    simp only [normElifs, elifsToks, List.cons.injEq, Prod.mk.injEq,
      ascii_keyword, asciiToks_append, ascii_bodyEnd, and_true]
    rw [← hrest, ← hc', ← hb']
    unfold Same
    simp only [and_assoc]

theorem listCmd_eq_iff (f g : Text → Text) (items : List (Cmd × Sep)) :
    listCmd (normItems f items) = listCmd (normItems g items) ↔
      normItems f items = normItems g items := by
  constructor
  · intro h
    rcases items with - | ⟨⟨c, sep⟩, - | ⟨⟨c', sep'⟩, items⟩⟩
    · rfl
    · cases sep with
      | seq =>
        have hc : c.norm f = c.norm g := h
        simp only [normItems, hc]
      | bg =>
        simp only [normItems, listCmd] at h ⊢
        injection h
    · simp only [normItems, listCmd] at h ⊢
      injection h
  · intro h
    rw [h]

/-- A tree is the same by bytes exactly if its tokens are ASCII. -/
theorem Std.same_iff {level : Level} {c : Cmd} (h : Std level c)
    (lines : Bool) : Same c ↔ AsciiToks (c.toks lines) := by
  induction h with
  | simple h =>
    unfold Same
    rw [Cmd.toks, Cmd.norm, Cmd.norm, ← simple_eq_iff h, Cmd.simple.injEq]
  | subshell h hredirs ih =>
    unfold Same at ih ⊢
    simp only [Cmd.toks, Cmd.norm, Cmd.subshell.injEq, ascii_lParen, ascii_rParen,
      asciiToks_append, ascii_bodyEnd, and_true]
    rw [ih, redirs_eq_iff hredirs]
  | group h hredirs ih =>
    unfold Same at ih ⊢
    simp only [Cmd.toks, Cmd.norm, Cmd.group.injEq, ascii_keyword,
      asciiToks_append, ascii_bodyEnd, and_true]
    rw [ih, redirs_eq_iff hredirs]
  | @ifThen cond body elifs els redirs hcond hb hconds hbodies hels hredirs
      ihc ihb ihcs ihbs ihe =>
    have hels : normElse byteChars els = normElse id els ↔
        AsciiToks (elseToks lines els) := by
      cases els with
      | none => simp [normElse, elseToks]
      | some b =>
        have hb := ihe b rfl
        simp only [normElse, elseToks, Option.some.injEq, ascii_keyword,
          asciiToks_append, ascii_bodyEnd, and_true]
        exact hb
    have helifs := elifs_eq_iff ihcs ihbs
    unfold Same at ihc ihb ⊢
    simp only [Cmd.toks, Cmd.norm, Cmd.ifThen.injEq, ascii_keyword,
      asciiToks_append, ascii_bodyEnd, and_true]
    rw [ihc, ihb, helifs, hels, redirs_eq_iff hredirs]
  | @whileDo cond body untilDo redirs hcond hb hredirs ihc ihb =>
    have hhead : ∀ ts, AsciiToks ((if untilDo then Keyword.kwUntil.token
        else Keyword.kwWhile.token) :: ts) ↔ AsciiToks ts := by
      intro ts
      cases untilDo <;> exact ascii_keyword _ ts
    unfold Same at ihc ihb ⊢
    simp only [Cmd.toks, Cmd.norm, Cmd.whileDo.injEq, hhead, ascii_keyword,
      asciiToks_append, ascii_bodyEnd, and_true, true_and]
    rw [ihc, ihb, redirs_eq_iff hredirs]
  | @forIn var words body redirs hvar hwords h hredirs ih =>
    obtain ⟨-, hcont⟩ := isNameCont_of_valid hvar
    have hname : ∀ ts, AsciiToks (.word [.lit var] :: ts) ↔ AsciiToks ts := by
      intro ts
      rw [ascii_word, and_iff_right]
      rw [show Word.text [.lit var] = var from List.append_nil var]
      exact fun ch hch => (isNameCont_plain (hcont ch hch)).2.1
    have hws : words.map (·.map (Word.mapLit byteChars)) =
        words.map (·.map (Word.mapLit id)) ↔ AsciiToks (forToks lines words) := by
      cases words with
      | none => simp [forToks]
      | some ws =>
        simp only [Option.map_some, Option.some.injEq, forToks, ascii_keyword,
          asciiToks_append, ascii_break, asciiToks_nil, and_true]
        exact words_eq_iff (hwords ws rfl)
    unfold Same at ih ⊢
    simp only [Cmd.toks, Cmd.norm, Cmd.forIn.injEq, ascii_keyword, hname,
      asciiToks_append, ascii_bodyEnd, and_true, true_and]
    rw [ih, hws, redirs_eq_iff hredirs]
  | @funcDef name body hname hfree h ih =>
    obtain ⟨-, hcont⟩ := isNameCont_of_valid hname
    unfold Same at ih ⊢
    simp only [Cmd.toks, Cmd.norm, Cmd.funcDef.injEq, true_and]
    rw [ascii_word, and_iff_right, ascii_lParen, ascii_rParen, ih]
    rw [show Word.text [.lit name] = name from List.append_nil name]
    exact fun ch hch => (isNameCont_plain (hcont ch hch)).2.1
  | stage h ih => exact ih
  | @pipeline negated first parts hfirst hparts hwrap ihf ihp =>
    have hbang : AsciiToks (if negated then [Keyword.kwBang.token] else []) := by
      cases negated with
      | true => exact (ascii_keyword _ []).mpr asciiToks_nil
      | false => exact asciiToks_nil
    have hparts := parts_eq_iff ihp
    unfold Same at ihf ⊢
    simp only [Cmd.toks, Cmd.norm, Cmd.pipeline.injEq, partsToks, normParts,
      List.cons.injEq, asciiToks_append, hbang, true_and]
    rw [ihf, hparts]
  | operand h ih => exact ih
  | @andOr left right op hleft hright ihl ihr =>
    unfold Same at ihl ihr ⊢
    simp only [Cmd.toks, Cmd.norm, Cmd.andOr.injEq, asciiToks_append,
      ascii_andOrOp, true_and]
    rw [ihl, ihr]
  | item h ih => exact ih
  | @list items hne h ih =>
    unfold Same
    rw [Cmd.toks, Cmd.norm, Cmd.norm, listCmd_eq_iff]
    exact items_eq_iff ih

theorem ascii_render (lines : Bool) (tree : Cmd) :
    (∀ ch ∈ tree.render lines, isAscii ch = true) ↔
      AsciiToks (tree.toks lines) := by
  have hbody : AsciiToks (bodyToks lines tree) ↔ AsciiToks (tree.toks lines) := by
    unfold bodyToks
    rw [asciiToks_append, and_iff_left (ascii_bodyEnd tree)]
  rw [← hbody]
  unfold Cmd.render AsciiToks
  simp only [List.mem_flatMap]
  constructor
  · intro h t ht ch hch
    exact h ch ⟨t, ht, hch⟩
  · intro h ch ⟨t, ht, hch⟩
    exact h t ht ch hch

/-- `Parser::new` and `parse_program` return this tree: with enough fuel. -/
def Parses (src : Text) (tree : Cmd) : Prop :=
  ∀ᶠ n in atTop, parseText n src = .ok tree

theorem Parses.unique {src : Text} {tree tree' : Cmd} (h : Parses src tree)
    (h' : Parses src tree') : tree = tree' := by
  obtain ⟨n, hn, hn'⟩ := Eventually.exists (h.and h')
  rw [hn] at hn'
  injection hn'

/-- The text of a tree one can write is parsed as that tree, up to
one-element sequential lists, exactly when it is ASCII. -/
theorem parses_render_iff (lines : Bool) {tree : Cmd} (h : Std .body tree) :
    Parses (tree.render lines) (tree.norm id) ↔
      ∀ ch ∈ tree.render lines, isAscii ch = true := by
  have hparses : Parses (tree.render lines) (tree.norm byteChars) :=
    parseText_render lines h
  rw [ascii_render, ← h.same_iff lines]
  constructor
  · intro hid
    exact hparses.unique hid
  · intro hsame
    rw [← hsame]
    exact hparses

/-- `! a > b | c ;` comes back as it was. -/
theorem parses_render_not_pipe : Parses "! a > b | c ; ".toList
      (.pipeline true [.simple ⟨[], [[.lit ['a']]],
        [⟨none, .out, .file [.lit ['b']]⟩]⟩, .simple ⟨[], [[.lit ['c']]], []⟩]) := by
  have hplain : ∀ ch, ch = 'a' ∨ ch = 'b' ∨ ch = 'c' →
      PlainWord [.lit [ch]] := by
    intro ch hch
    rcases hch with rfl | rfl | rfl <;>
      exact ⟨⟨_, rfl, by simp, List.all_eq_true.mp (by decide), by simp⟩, rfl⟩
  have hfirst : Std .command (.simple ⟨[], [[.lit ['a']]],
      [⟨none, .out, .file [.lit ['b']]⟩]⟩) := by
    refine .simple ⟨.inr (.inl (by simp)), nofun, ?_, ?_, ?_⟩
    · simpa using hplain 'a' (by simp)
    · simpa using show wordAsAssignment [.lit ['a']] = none from rfl
    · simpa using show Redir.Std ⟨none, .out, .file [.lit ['b']]⟩ from
        ⟨nofun, [.lit ['b']], rfl, hplain 'b' (by simp)⟩
  have hsecond : Std .command (.simple ⟨[], [[.lit ['c']]], []⟩) := by
    refine .simple ⟨.inr (.inl (by simp)), nofun, ?_, ?_, nofun⟩
    · simpa using hplain 'c' (by simp)
    · simpa using show wordAsAssignment [.lit ['c']] = none from rfl
  have hstd : Std .body (.pipeline true [.simple ⟨[], [[.lit ['a']]],
      [⟨none, .out, .file [.lit ['b']]⟩]⟩, .simple ⟨[], [[.lit ['c']]], []⟩]) :=
    .item (.operand (.pipeline hfirst (by simpa using hsecond) (.inl rfl)))
  exact (parses_render_iff false hstd).mpr
    (List.all_eq_true.mp (show "! a > b | c ; ".toList.all isAscii = true by decide))

/-- A command named by a character that is not ASCII comes back with
another name. -/
theorem parses_render_fails_non_ascii :
    ∃ tree, Std .body tree ∧ ¬ Parses (tree.render false) (tree.norm id) := by
  have hstd : Std .body (.simple ⟨[], [[.lit ['é']]], []⟩) := by
    refine .item (.operand (.stage (.simple
      ⟨.inr (.inl (by simp)), nofun, ?_, ?_, nofun⟩)))
    · simpa using show PlainWord [.lit ['é']] from
        ⟨⟨['é'], rfl, by simp, List.all_eq_true.mp (by decide), by simp⟩, rfl⟩
    · simpa using show wordAsAssignment [.lit ['é']] = none from rfl
  refine ⟨_, hstd, fun hid => ?_⟩
  have hbytes : Parses _ _ := parseText_render false hstd
  have hsame : Same (.simple ⟨[], [[.lit ['é']]], []⟩) := hbytes.unique hid
  have hascii := (ascii_render false _).mpr ((hstd.same_iff false).mp hsame)
  exact absurd (hascii 'é' (by decide)) (by decide)

end LinuxRs.Shell
