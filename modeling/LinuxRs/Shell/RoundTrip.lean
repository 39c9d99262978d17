/-
The parser reads back what was rendered.

Each function of the parser is taken at a fixed parser of commands that
reads the commands inside; the induction over the tree then supplies it.
Fuel is taken large enough: how large is not said, only that from some
amount on all of it does.
-/
import Mathlib.Order.Filter.AtTopBot.Basic
import Mathlib.Order.Filter.Finite
import LinuxRs.Shell.ParserComplete

namespace LinuxRs.Shell

open LinuxRs.Lib Filter

variable {A : Type} {lines : Bool}

/-- A parser reads these tokens as this value, whatever token that may
follow comes next. -/
def Reads (follows : Token → Bool) (p : Parser A) (ts : List Token) (a : A) :
    Prop :=
  ∀ rest, follows (Toks.ofList rest).cur = true →
    p (.ofList (bytesToks ts ++ rest)) = .ok a (.ofList rest)

theorem followsPipeline_iff {t : Token} :
    followsPipeline t = true ↔ followsCommand t = true ∧ t.isPipe = false := by
  simp [followsPipeline]

theorem followsAndOr_iff {t : Token} :
    followsAndOr t = true ↔ followsPipeline t = true ∧ andOrOp t = none := by
  simp [followsAndOr]

theorem opens_ne_newline {t : Token} (h : t.opens = true) : t ≠ .newline := by
  intro heq
  rw [heq] at h
  cases h

-- ======== pipelines

section

variable {c : Parser Cmd} {n : Nat}

/-- The stages of a pipeline are read back. -/
theorem pipeLoop_reads (ps : List Cmd) (hstd : ∀ p ∈ ps, Std .command p)
    (h : ∀ p ∈ ps, Reads followsCommand c (p.toks lines) (p.norm byteChars))
    (rest : List Token) (hrest : followsPipeline (Toks.ofList rest).cur = true)
    (k : Nat) (hk : ps.length < k) :
    pipeLoop c k (.ofList (bytesToks (pipedToks lines ps) ++ rest)) =
      .ok (normParts byteChars ps) (.ofList rest) := by
  obtain ⟨hcmd, hpipe⟩ := Iff.mp followsPipeline_iff hrest
  induction ps generalizing k with
  | nil =>
    obtain ⟨m, rfl⟩ : ∃ m, k = m + 1 := ⟨k - 1, by omega⟩
    rw [pipedToks, bytesToks_nil, List.nil_append]
    unfold pipeLoop
    rw [cur_bind, if_neg (by simp [hpipe])]
    rfl
  | cons p ps ih =>
    simp only [List.length_cons] at hk
    obtain ⟨m, rfl⟩ : ∃ m, k = m + 1 := ⟨k - 1, by omega⟩
    obtain ⟨t, us, hts, hopens, -⟩ := (hstd p List.mem_cons_self).opens lines
    have hread := h p List.mem_cons_self
      (bytesToks (pipedToks lines ps) ++ rest) (by
        cases ps with
        | nil => exact hcmd
        | cons q qs => rfl)
    have hrec := ih (fun q hq => hstd q (List.mem_cons_of_mem p hq))
      (fun q hq => h q (List.mem_cons_of_mem p hq)) m (by omega)
    rw [pipedToks, bytesToks_cons, bytesToks_append, List.cons_append,
      List.append_assoc]
    have hskip := skipNewlines_ofList (bytesToks (p.toks lines) ++
      (bytesToks (pipedToks lines ps) ++ rest)) (by
        rw [hts]
        exact opens_ne_newline hopens)
    unfold pipeLoop
    rw [cur_bind, if_pos (by rfl), bind_of_ok (advance_ofList _ _), bind_of_ok hskip,
      bind_of_ok hread, bind_of_ok hrec]
    rfl

theorem parseBang_reads (ts : List Token) :
    parseBang (.ofList (Keyword.kwBang.token :: ts)) = .ok true (.ofList ts) := by
  unfold parseBang
  rw [cur_bind, if_pos (by rfl), bind_of_ok (advance_ofList _ _)]
  rfl

theorem parseBang_absent (ts : List Token)
    (h : (Toks.ofList ts).cur.isKeyword .kwBang = false) :
    parseBang (.ofList ts) = .ok false (.ofList ts) := by
  unfold parseBang
  rw [cur_bind, if_neg (by simp [h])]
  rfl

theorem parsePipeline_stage {p : Cmd} (hstd : Std .command p)
    (h : Reads followsCommand c (p.toks lines) (p.norm byteChars)) :
    Reads followsPipeline (parsePipeline c n) (p.toks lines)
      (p.norm byteChars) := by
  intro rest hrest
  obtain ⟨hcmd, hpipe⟩ := Iff.mp followsPipeline_iff hrest
  obtain ⟨t, us, hts, -, hbang⟩ := hstd.opens lines
  have habsent := parseBang_absent
    (bytesToks (p.toks lines) ++ rest) (by rw [hts]; exact hbang rfl)
  unfold parsePipeline
  rw [bind_of_ok habsent, bind_of_ok (h rest hcmd), cur_bind,
    if_pos (by simp [hpipe])]
  rfl

/-- A pipeline is read back, with its `!`. -/
theorem parsePipeline_reads {negated : Bool} {first : Cmd} {parts : List Cmd}
    (hfirst : Std .command first) (hparts : ∀ p ∈ parts, Std .command p)
    (hwrap : negated = true ∨ parts ≠ [])
    (hf : Reads followsCommand c (first.toks lines) (first.norm byteChars))
    (hp : ∀ p ∈ parts, Reads followsCommand c (p.toks lines) (p.norm byteChars))
    (hn : parts.length < n) :
    Reads followsPipeline (parsePipeline c n)
      ((Cmd.pipeline negated (first :: parts)).toks lines)
      ((Cmd.pipeline negated (first :: parts)).norm byteChars) := by
  intro rest hrest
  obtain ⟨hcmd, hpipe⟩ := Iff.mp followsPipeline_iff hrest
  have hloop := pipeLoop_reads parts hparts hp rest hrest n hn
  have hread := hf (bytesToks (pipedToks lines parts) ++ rest) (by
    cases parts with
    | nil => exact hcmd
    | cons q qs => rfl)
  -- a second stage or the `!` keeps the node
  have hkeep : ¬ ((!(Toks.ofList (bytesToks (pipedToks lines parts) ++
      rest)).cur.isPipe && !negated) = true) := by
    rcases hwrap with rfl | hne
    · simp
    · cases parts with
      | nil => exact absurd rfl hne
      | cons q qs =>
        have hcur : (Toks.ofList (bytesToks (pipedToks lines (q :: qs)) ++
            rest)).cur.isPipe = true := rfl
        rw [hcur]
        intro h
        cases h
  rw [Cmd.toks, Cmd.norm, normParts, partsToks, bytesToks_append,
    bytesToks_append, List.append_assoc, List.append_assoc]
  cases negated with
  | true =>
    show parsePipeline c n (.ofList (Keyword.kwBang.token ::
      (bytesToks (first.toks lines) ++
        (bytesToks (pipedToks lines parts) ++ rest)))) = _
    unfold parsePipeline
    rw [bind_of_ok (parseBang_reads _), bind_of_ok hread, cur_bind, if_neg hkeep,
      bind_of_ok hloop]
    rfl
  | false =>
    obtain ⟨t, us, hts, -, hbang⟩ := hfirst.opens lines
    have habsent := parseBang_absent (bytesToks (first.toks lines) ++
      (bytesToks (pipedToks lines parts) ++ rest)) (by rw [hts]; exact hbang rfl)
    show parsePipeline c n (.ofList (bytesToks (first.toks lines) ++ _)) = _
    unfold parsePipeline
    rw [bind_of_ok habsent, bind_of_ok hread, cur_bind, if_neg hkeep,
      bind_of_ok hloop]
    rfl

-- ======== and-or chains

/-- A chain is read up to where the loop stands with it on its left. -/
def ReadsChain (c : Parser Cmd) (n : Nat) (lines : Bool) (tree : Cmd) (d : Nat) :
    Prop :=
  ∀ rest, followsPipeline (Toks.ofList rest).cur = true →
    parseAndOr c n (.ofList (bytesToks (tree.toks lines) ++ rest)) =
      andOrLoop c n (n - d) (tree.norm byteChars) (.ofList rest)

theorem parseAndOr_operand {p : Cmd}
    (h : Reads followsPipeline (parsePipeline c n) (p.toks lines)
      (p.norm byteChars)) : ReadsChain c n lines p 0 := by
  intro rest hrest
  unfold parseAndOr
  rw [bind_of_ok (h rest hrest)]
  rfl

/-- One operand more of a chain is read back. -/
theorem parseAndOr_chain {left right : Cmd} {op : AndOrOp} {d : Nat}
    (hstd : Std .pipeline right) (hleft : ReadsChain c n lines left d)
    (hright : Reads followsPipeline (parsePipeline c n) (right.toks lines)
      (right.norm byteChars)) (hn : d < n) :
    ReadsChain c n lines (.andOr left op right) (d + 1) := by
  intro rest hrest
  obtain ⟨t, us, hts, hopens, -⟩ := hstd.opens lines
  have hop : op.token.mapLit byteChars = op.token := by cases op <;> rfl
  rw [Cmd.toks, Cmd.norm, bytesToks_append, bytesToks_cons, List.append_assoc,
    List.cons_append, hop]
  rw [hleft _ (by cases op <;> rfl)]
  obtain ⟨m, hm⟩ : ∃ m, n - d = m + 1 := ⟨n - d - 1, by omega⟩
  have hm' : n - (d + 1) = m := by omega
  have hskip := skipNewlines_ofList (bytesToks (right.toks lines) ++ rest)
    (by rw [hts]; exact opens_ne_newline hopens)
  have hcur : andOrOp (Toks.ofList (op.token ::
      (bytesToks (right.toks lines) ++ rest))).cur = some op := by
    cases op <;> rfl
  rw [hm, hm']
  show (cur >>= _) (Toks.ofList _) = _
  rw [cur_bind, hcur]
  show (advance >>= _) (Toks.ofList _) = _
  rw [bind_of_ok (advance_ofList _ _), bind_of_ok hskip,
    bind_of_ok (hright rest hrest)]

theorem ReadsChain.reads {tree : Cmd} {d : Nat}
    (h : ReadsChain c n lines tree d) (hn : d < n) :
    Reads followsAndOr (parseAndOr c n) (tree.toks lines)
      (tree.norm byteChars) := by
  intro rest hrest
  obtain ⟨hpipeline, hop⟩ := Iff.mp followsAndOr_iff hrest
  obtain ⟨m, hm⟩ : ∃ m, n - d = m + 1 := ⟨n - d - 1, by omega⟩
  rw [h rest hpipeline, hm]
  unfold andOrLoop
  rw [cur_bind, hop]
  rfl

-- ======== lists

def bodyItems : Cmd → List (Cmd × Sep)
  | .list items => items
  | c => [(c, .seq)]

/-- The rule stops at no token that opens a command. -/
def ListRule.Admits (rule : ListRule) : Prop :=
  ∀ t : Token, t.opens = true → rule.stops t = false

theorem parseSep_reads (rule : ListRule) (sep : Sep) (ts : List Token) :
    parseSep rule (.ofList ((sep.token lines).mapLit byteChars :: ts)) =
      .ok sep (.ofList ts) := by
  cases sep with
  | bg =>
    show (advance >>= _) (Toks.ofList _) = _
    rw [bind_of_ok (advance_ofList _ _)]
    rfl
  | seq =>
    cases lines with
    | true =>
      show (advance >>= _) (Toks.ofList _) = _
      rw [bind_of_ok (advance_ofList _ _)]
      rfl
    | false =>
      show (advance >>= _) (Toks.ofList _) = _
      rw [bind_of_ok (advance_ofList _ _)]
      rfl

theorem followsAndOr_sep (sep : Sep) :
    followsAndOr ((sep.token lines).mapLit byteChars) = true := by
  cases sep with
  | bg => rfl
  | seq => cases lines <;> rfl

theorem cur_items_ne_newline (lines : Bool) {items : List (Cmd × Sep)}
    (hstd : ∀ i ∈ items, Std .andOr i.1) {rest : List Token}
    (hrest : (Toks.ofList rest).cur ≠ .newline) :
    (Toks.ofList (bytesToks (itemsToks lines items) ++ rest)).cur ≠ .newline := by
  cases items with
  | nil =>
    rw [itemsToks]
    exact hrest
  | cons i items =>
    obtain ⟨t, us, hts, hopens, -⟩ := (hstd i List.mem_cons_self).opens lines
    obtain ⟨cmd, sep⟩ := i
    rw [itemsToks, bytesToks_append, hts]
    exact opens_ne_newline hopens

/-- The items of a list are read back up to the word that closes it. -/
theorem itemsLoop_reads (rule : ListRule) (hrule : rule.Admits)
    (items : List (Cmd × Sep)) (hstd : ∀ i ∈ items, Std .andOr i.1)
    (h : ∀ i ∈ items, Reads followsAndOr (parseAndOr c n) (i.1.toks lines)
      (i.1.norm byteChars)) (rest : List Token)
    (hstop : rule.stops (Toks.ofList rest).cur = true)
    (hrest : (Toks.ofList rest).cur ≠ .newline) (k : Nat)
    (hk : items.length < k) :
    itemsLoop c rule n k (.ofList (bytesToks (itemsToks lines items) ++ rest)) =
      .ok (normItems byteChars items) (.ofList rest) := by
  induction items generalizing k with
  | nil =>
    obtain ⟨m, rfl⟩ : ∃ m, k = m + 1 := ⟨k - 1, by omega⟩
    rw [itemsToks, bytesToks_nil, List.nil_append]
    unfold itemsLoop
    rw [cur_bind, if_pos hstop]
    rfl
  | cons i items ih =>
    simp only [List.length_cons] at hk
    obtain ⟨m, rfl⟩ : ∃ m, k = m + 1 := ⟨k - 1, by omega⟩
    obtain ⟨t, us, hts, hopens, -⟩ := (hstd i List.mem_cons_self).opens lines
    have hread := h i List.mem_cons_self ((i.2.token lines).mapLit byteChars ::
      (bytesToks (itemsToks lines items) ++ rest)) (followsAndOr_sep i.2)
    have hrec := ih (fun j hj => hstd j (List.mem_cons_of_mem i hj))
      (fun j hj => h j (List.mem_cons_of_mem i hj)) m (by omega)
    obtain ⟨cmd, sep⟩ := i
    have hskip := skipNewlines_ofList _ (cur_items_ne_newline lines
      (fun j hj => hstd j (List.mem_cons_of_mem _ hj)) hrest)
    rw [itemsToks, bytesToks_append, bytesToks_cons, List.append_assoc,
      List.cons_append]
    have hgo : rule.stops (Toks.ofList (bytesToks (cmd.toks lines) ++
        ((sep.token lines).mapLit byteChars ::
          (bytesToks (itemsToks lines items) ++ rest)))).cur = false := by
      rw [hts]
      exact hrule t hopens
    unfold itemsLoop
    rw [cur_bind, if_neg (by simp [hgo]), bind_of_ok hread,
      bind_of_ok (parseSep_reads rule sep _), bind_of_ok hskip, bind_of_ok hrec]
    rfl

/-- The body is read back, up to a token where the rule stops. -/
def ReadsBody (c : Parser Cmd) (n : Nat) (lines : Bool) (b : Cmd) : Prop :=
  ∀ (rule : ListRule) (rest : List Token), rule.Admits →
    rule.stops (Toks.ofList rest).cur = true →
    (Toks.ofList rest).cur ≠ .newline →
    parseItems c rule n (.ofList (bytesToks (b.toks lines) ++
        (bytesToks (bodyEnd lines b) ++ rest))) =
      .ok (normItems byteChars (bodyItems b)) (.ofList rest)

theorem parseItems_list {items : List (Cmd × Sep)}
    (hstd : ∀ i ∈ items, Std .andOr i.1)
    (h : ∀ i ∈ items, Reads followsAndOr (parseAndOr c n) (i.1.toks lines)
      (i.1.norm byteChars)) (hn : items.length < n) :
    ReadsBody c n lines (.list items) := by
  intro rule rest hrule hstop hrest
  have hskip := skipNewlines_ofList _ (cur_items_ne_newline lines hstd hrest)
  rw [Cmd.toks]
  show (skipNewlines >>= _) (Toks.ofList (bytesToks (itemsToks lines items) ++
    rest)) = _
  rw [bind_of_ok hskip]
  exact itemsLoop_reads rule hrule items hstd h rest hstop hrest n hn

theorem Std.bodyItems_of_andOr {b : Cmd} (h : Std .andOr b) (lines : Bool) :
    bodyItems b = [(b, .seq)] ∧ bodyEnd lines b = [breakToken lines] := by
  cases b with
  | list items =>
    cases h with
    | operand h =>
      cases h with
      | stage h => cases h
  | _ => exact ⟨rfl, rfl⟩

theorem parseItems_item {b : Cmd} (hstd : Std .andOr b)
    (h : Reads followsAndOr (parseAndOr c n) (b.toks lines) (b.norm byteChars))
    (hn : 1 < n) : ReadsBody c n lines b := by
  intro rule rest hrule hstop hrest
  obtain ⟨hitems, hend⟩ := hstd.bodyItems_of_andOr lines
  have hread : ReadsBody c n lines (.list [(b, .seq)]) :=
    parseItems_list (by simpa using hstd) (by simpa using h) (by simpa using hn)
  have hlist := hread rule rest hrule hstop hrest
  rw [hitems, hend]
  rw [Cmd.toks, itemsToks, itemsToks, bytesToks_append, List.append_assoc] at hlist
  exact hlist

theorem norm_body (f : Text → Text) (b : Cmd) :
    b.norm f = listCmd (normItems f (bodyItems b)) := by
  cases b with
  | list items => rw [Cmd.norm, bodyItems]
  | _ =>
    rw [bodyItems, normItems, normItems]
    · rfl
    · intro items h
      cases h

theorem bodyRule_admits {terminators : List Keyword}
    (h : ∀ kw ∈ terminators, kw ∈ closers) : (bodyRule terminators).Admits := by
  intro t ht
  have hword : ∀ w, (Token.word w).opens = true →
      terminators.any (Token.word w).isKeyword = false := by
    intro w hw
    rw [List.any_eq_false]
    intro kw hkw heq
    have hany : closers.any (wordIsLiteralKeyword w) = true :=
      List.any_eq_true.mpr ⟨kw, h kw hkw, heq⟩
    have hopens : (!closers.any (wordIsLiteralKeyword w)) = true := hw
    rw [hany] at hopens
    cases hopens
  have hnone : ∀ t : Token, (∀ kw, t.isKeyword kw = false) →
      terminators.any t.isKeyword = false := by
    intro t hkey
    rw [List.any_eq_false]
    intro kw _ heq
    rw [hkey kw] at heq
    cases heq
  cases t with
  | word w => exact hword w ht
  | eof => cases ht
  | _ => exact hnone _ fun _ => rfl

theorem parseCompoundList_reads {b : Cmd} (h : ReadsBody c n lines b)
    {terminators : List Keyword} (hterm : ∀ kw ∈ terminators, kw ∈ closers)
    {kw : Keyword} (hkw : kw ∈ terminators) (ts : List Token) :
    parseCompoundList c n terminators (.ofList (bytesToks (b.toks lines) ++
        (bytesToks (bodyEnd lines b) ++ kw.token :: ts))) =
      .ok (b.norm byteChars) (.ofList (kw.token :: ts)) := by
  have hstop : (bodyRule terminators).stops (Toks.ofList (kw.token :: ts)).cur =
      true := by
    show terminators.any kw.token.isKeyword = true
    exact List.any_eq_true.mpr ⟨kw, hkw, by rw [isKeyword_token]; simp⟩
  have hitems := h (bodyRule terminators) (kw.token :: ts)
    (bodyRule_admits hterm) hstop nofun
  unfold parseCompoundList
  rw [bind_of_ok hitems, norm_body]
  rfl

theorem expectKeyword_reads (kw : Keyword) (ts : List Token) :
    expectKeyword kw (.ofList (kw.token :: ts)) = .ok () (.ofList ts) := by
  unfold expectKeyword
  have hkw : (Toks.ofList (kw.token :: ts)).cur.isKeyword kw = true := by
    rw [cur_ofList_cons, isKeyword_token]
    simp
  rw [cur_bind, if_pos hkw]
  exact advance_ofList _ _

-- ======== compound commands

theorem parseBranch_reads {cond body : Cmd} (hcond : ReadsBody c n lines cond)
    (hbody : ReadsBody c n lines body) {kw : Keyword}
    (hkw : kw ∈ [Keyword.kwElif, .kwElse, .kwFi]) (ts : List Token) :
    parseBranch c n (.ofList (bytesToks (cond.toks lines) ++
        (bytesToks (bodyEnd lines cond) ++ Keyword.kwThen.token ::
        (bytesToks (body.toks lines) ++ (bytesToks (bodyEnd lines body) ++
        kw.token :: ts))))) =
      .ok (cond.norm byteChars, body.norm byteChars) (.ofList (kw.token :: ts)) := by
  unfold parseBranch
  rw [bind_of_ok (parseCompoundList_reads hcond (by decide) (by decide) _),
    bind_of_ok (expectKeyword_reads _ _),
    bind_of_ok (parseCompoundList_reads hbody (by decide) hkw _)]
  rfl

/-- The `elif` parts are read back. -/
theorem elifLoop_reads (elifs : List (Cmd × Cmd))
    (hc : ∀ e ∈ elifs, ReadsBody c n lines e.1)
    (hb : ∀ e ∈ elifs, ReadsBody c n lines e.2) {kw : Keyword}
    (hkw : kw ∈ [Keyword.kwElse, .kwFi]) (ts : List Token) (k : Nat)
    (hk : elifs.length < k) :
    elifLoop c n k (.ofList (bytesToks (elifsToks lines elifs) ++
        kw.token :: ts)) =
      .ok (normElifs byteChars elifs) (.ofList (kw.token :: ts)) := by
  induction elifs generalizing k with
  | nil =>
    obtain ⟨m, rfl⟩ : ∃ m, k = m + 1 := ⟨k - 1, by omega⟩
    have hne : kw.token.isKeyword .kwElif = false := by
      rw [isKeyword_token]
      revert hkw
      cases kw <;> decide
    rw [elifsToks, bytesToks_nil, List.nil_append]
    unfold elifLoop
    rw [cur_bind, if_neg (by simp [hne])]
    rfl
  | cons e elifs ih =>
    simp only [List.length_cons] at hk
    obtain ⟨m, rfl⟩ : ∃ m, k = m + 1 := ⟨k - 1, by omega⟩
    have hrec := ih (fun e' he => hc e' (List.mem_cons_of_mem e he))
      (fun e' he => hb e' (List.mem_cons_of_mem e he)) m (by omega)
    have hcond := hc e List.mem_cons_self
    have hbody := hb e List.mem_cons_self
    obtain ⟨cond, body⟩ := e
    -- what follows the branch is `elif`, or what follows them all
    obtain ⟨kw', us, hkw', hnext⟩ : ∃ kw' us,
        kw' ∈ [Keyword.kwElif, .kwElse, .kwFi] ∧
        bytesToks (elifsToks lines elifs) ++ kw.token :: ts =
          Keyword.token kw' :: us := by
      cases elifs with
      | nil => exact ⟨kw, ts, List.mem_cons_of_mem _ hkw, rfl⟩
      | cons e' elifs =>
        obtain ⟨cond', body'⟩ := e'
        rw [elifsToks, bytesToks_cons, mapLit_keyword]
        exact ⟨.kwElif, _, by decide, rfl⟩
    rw [hnext] at hrec
    rw [elifsToks]
    simp only [bytesToks_cons, bytesToks_append, mapLit_keyword, List.cons_append,
      List.append_assoc]
    rw [hnext]
    unfold elifLoop
    rw [cur_bind, if_pos (by rfl), bind_of_ok (advance_ofList _ _),
      bind_of_ok (parseBranch_reads hcond hbody hkw' us), bind_of_ok hrec]
    rfl

theorem parseElse_reads {els : Option Cmd}
    (h : ∀ b ∈ els, ReadsBody c n lines b) (ts : List Token) :
    parseElse c n (.ofList (bytesToks (elseToks lines els) ++
        Keyword.kwFi.token :: ts)) =
      .ok (normElse byteChars els) (.ofList (Keyword.kwFi.token :: ts)) := by
  cases els with
  | none => rfl
  | some b =>
    rw [elseToks]
    simp only [bytesToks_cons, bytesToks_append, mapLit_keyword, List.cons_append,
      List.append_assoc]
    unfold parseElse
    rw [cur_bind, if_pos (by rfl), bind_of_ok (advance_ofList _ _),
      bind_of_ok (parseCompoundList_reads (h b rfl) (by decide) (by decide) _)]
    rfl

theorem parseTrailingRedirs_reads {redirs : List Redir}
    (h : ∀ r ∈ redirs, r.Std) (hn : (redirsToks redirs).length < n)
    (rest : List Token) (hrest : followsCommand (Toks.ofList rest).cur = true) :
    parseTrailingRedirs n (.ofList (bytesToks (redirsToks redirs) ++ rest)) =
      .ok (redirs.map (·.mapLit byteChars)) (.ofList rest) :=
  trailingLoop_redirs redirs h rest hrest n hn

/-- An `if` is read back, up to its redirections. -/
theorem parseIf_reads {cond body : Cmd} {elifs : List (Cmd × Cmd)}
    {els : Option Cmd} {redirs : List Redir} (hcond : ReadsBody c n lines cond)
    (hbody : ReadsBody c n lines body)
    (hconds : ∀ e ∈ elifs, ReadsBody c n lines e.1)
    (hbodies : ∀ e ∈ elifs, ReadsBody c n lines e.2)
    (hels : ∀ b ∈ els, ReadsBody c n lines b) (hredirs : ∀ r ∈ redirs, r.Std)
    (helifs : elifs.length < n) (hn : (redirsToks redirs).length < n) :
    Reads followsCommand (parseIf c n)
      ((Cmd.ifThen cond body elifs els redirs).toks lines)
      ((Cmd.ifThen cond body elifs els redirs).norm byteChars) := by
  intro rest hrest
  rw [Cmd.toks, Cmd.norm]
  simp only [bytesToks_cons, bytesToks_append, mapLit_keyword, List.cons_append,
    List.append_assoc]
  obtain ⟨kw, us, hkw, hnext⟩ : ∃ kw us, kw ∈ [Keyword.kwElse, .kwFi] ∧
      bytesToks (elseToks lines els) ++ (Keyword.kwFi.token ::
        (bytesToks (redirsToks redirs) ++ rest)) = Keyword.token kw :: us := by
    cases els with
    | none => exact ⟨.kwFi, _, by decide, rfl⟩
    | some b =>
      rw [elseToks, bytesToks_cons, mapLit_keyword]
      exact ⟨.kwElse, _, by decide, rfl⟩
  obtain ⟨kw', us', hkw', hnext'⟩ : ∃ kw' us',
      kw' ∈ [Keyword.kwElif, .kwElse, .kwFi] ∧
      bytesToks (elifsToks lines elifs) ++ kw.token :: us =
        Keyword.token kw' :: us' := by
    cases elifs with
    | nil => exact ⟨kw, us, List.mem_cons_of_mem _ hkw, rfl⟩
    | cons e elifs =>
      obtain ⟨cond', body'⟩ := e
      rw [elifsToks, bytesToks_cons, mapLit_keyword]
      exact ⟨.kwElif, _, by decide, rfl⟩
  have hloop := elifLoop_reads elifs hconds hbodies hkw us n helifs
  have hbranch := parseBranch_reads hcond hbody hkw' us'
  have helse := parseElse_reads hels (bytesToks (redirsToks redirs) ++ rest)
  rw [← hnext'] at hbranch
  rw [← hnext] at hbranch hloop
  unfold parseIf
  rw [bind_of_ok (advance_ofList _ _), bind_of_ok hbranch, bind_of_ok hloop,
    bind_of_ok helse, bind_of_ok (expectKeyword_reads _ _),
    bind_of_ok (parseTrailingRedirs_reads hredirs hn rest hrest)]
  rfl

theorem parseDoDone_reads {body : Cmd} {redirs : List Redir}
    (hbody : ReadsBody c n lines body) (hredirs : ∀ r ∈ redirs, r.Std)
    (hn : (redirsToks redirs).length < n) (rest : List Token)
    (hrest : followsCommand (Toks.ofList rest).cur = true) :
    parseDoDone c n (.ofList (Keyword.kwDo.token ::
        (bytesToks (body.toks lines) ++ (bytesToks (bodyEnd lines body) ++
        Keyword.kwDone.token :: (bytesToks (redirsToks redirs) ++ rest))))) =
      .ok (body.norm byteChars, redirs.map (·.mapLit byteChars))
        (.ofList rest) := by
  unfold parseDoDone
  rw [bind_of_ok (expectKeyword_reads _ _),
    bind_of_ok (parseCompoundList_reads hbody (by decide) (by decide) _),
    bind_of_ok (expectKeyword_reads _ _),
    bind_of_ok (parseTrailingRedirs_reads hredirs hn rest hrest)]
  rfl

theorem parseWhile_reads {cond body : Cmd} {untilDo : Bool}
    {redirs : List Redir} (hcond : ReadsBody c n lines cond)
    (hbody : ReadsBody c n lines body) (hredirs : ∀ r ∈ redirs, r.Std)
    (hn : (redirsToks redirs).length < n) :
    Reads followsCommand (parseWhile c n untilDo)
      ((Cmd.whileDo cond body untilDo redirs).toks lines)
      ((Cmd.whileDo cond body untilDo redirs).norm byteChars) := by
  intro rest hrest
  rw [Cmd.toks, Cmd.norm]
  simp only [bytesToks_cons, bytesToks_append, mapLit_keyword, List.cons_append,
    List.append_assoc]
  unfold parseWhile
  rw [bind_of_ok (advance_ofList _ _),
    bind_of_ok (parseCompoundList_reads hcond (by decide) (by decide) _),
    bind_of_ok (parseDoDone_reads hbody hredirs hn rest hrest)]
  rfl

theorem parseGroup_reads {body : Cmd} {redirs : List Redir}
    (hbody : ReadsBody c n lines body) (hredirs : ∀ r ∈ redirs, r.Std)
    (hn : (redirsToks redirs).length < n) :
    Reads followsCommand (parseGroup c n) ((Cmd.group body redirs).toks lines)
      ((Cmd.group body redirs).norm byteChars) := by
  intro rest hrest
  rw [Cmd.toks, Cmd.norm]
  simp only [bytesToks_cons, bytesToks_append, mapLit_keyword, List.cons_append,
    List.append_assoc]
  unfold parseGroup
  rw [bind_of_ok (advance_ofList _ _),
    bind_of_ok (parseCompoundList_reads hbody (by decide) (by decide) _),
    bind_of_ok (expectKeyword_reads _ _),
    bind_of_ok (parseTrailingRedirs_reads hredirs hn rest hrest)]
  rfl

theorem normItems_ne_nil {f : Text → Text} {items : List (Cmd × Sep)}
    (h : items ≠ []) : normItems f items ≠ [] := by
  cases items with
  | nil => exact absurd rfl h
  | cons i items =>
    obtain ⟨cmd, sep⟩ := i
    rw [normItems]
    intro h
    cases h

theorem subshellCmd_eq {items : List (Cmd × Sep)} (h : items ≠ []) :
    subshellCmd items = listCmd items := by
  unfold subshellCmd listCmd
  split
  · rfl
  · next hne =>
    split
    · next cmd => exact absurd rfl (hne cmd)
    · exact absurd rfl h
    · rfl

theorem Std.bodyItems_ne_nil {b : Cmd} (h : Std .body b) :
    bodyItems b ≠ [] := by
  cases b with
  | list items =>
    cases h with
    | item h =>
      rw [(h.bodyItems_of_andOr true).1]
      intro h
      cases h
    | list hne _ => exact hne
  | _ => intro h; cases h

theorem subshellRule_admits : subshellRule.Admits := by
  intro t ht
  cases t <;> first | rfl | cases ht

theorem parseSubshell_reads {body : Cmd} {redirs : List Redir}
    (hstd : Std .body body) (hbody : ReadsBody c n lines body)
    (hredirs : ∀ r ∈ redirs, r.Std) (hn : (redirsToks redirs).length < n) :
    Reads followsCommand (parseSubshell c n)
      ((Cmd.subshell body redirs).toks lines)
      ((Cmd.subshell body redirs).norm byteChars) := by
  intro rest hrest
  rw [Cmd.toks, Cmd.norm]
  simp only [bytesToks_cons, bytesToks_append, mapLit_lParen, mapLit_rParen,
    List.cons_append, List.append_assoc]
  have hitems := hbody subshellRule
    (.rParen :: (bytesToks (redirsToks redirs) ++ rest)) subshellRule_admits
    rfl fun h => by cases h
  unfold parseSubshell
  rw [bind_of_ok (advance_ofList _ _), bind_of_ok hitems,
    bind_of_ok (advance_ofList _ _),
    bind_of_ok (parseTrailingRedirs_reads hredirs hn rest hrest), norm_body,
    subshellCmd_eq (normItems_ne_nil hstd.bodyItems_ne_nil)]
  rfl

-- ======== `for` loops

theorem forWords_reads (lines : Bool) (ws : List Word) (h : ∀ w ∈ ws, PlainWord w)
    (ts : List Token) (k : Nat) (hk : ws.length < k) :
    forWords k (.ofList (bytesToks (ws.map Token.word) ++
        ((breakToken lines).mapLit byteChars :: ts))) =
      .ok (ws.map (Word.mapLit byteChars))
        (.ofList ((breakToken lines).mapLit byteChars :: ts)) := by
  induction ws generalizing k with
  | nil =>
    obtain ⟨m, rfl⟩ : ∃ m, k = m + 1 := ⟨k - 1, by omega⟩
    cases lines <;> rfl
  | cons w ws ih =>
    simp only [List.length_cons] at hk
    obtain ⟨m, rfl⟩ : ∃ m, k = m + 1 := ⟨k - 1, by omega⟩
    have hrec := ih (fun v hv => h v (List.mem_cons_of_mem w hv)) m (by omega)
    have hdo : wordIsLiteralKeyword (Word.mapLit byteChars w) .kwDo = false :=
      (opens_of_free (free_bytes (h w List.mem_cons_self))).2 .kwDo
    rw [List.map_cons, bytesToks_cons, mapLit_word, List.cons_append]
    show (if wordIsLiteralKeyword (Word.mapLit byteChars w) .kwDo = true then _
      else _ : Parser (List Word)) (Toks.ofList _) = _
    rw [if_neg (by simp [hdo]), bind_of_ok (advance_ofList _ _), bind_of_ok hrec]
    rfl

theorem parseForIn_reads {words : Option (List Word)}
    (h : ∀ ws ∈ words, ∀ w ∈ ws, PlainWord w)
    (hn : ∀ ws ∈ words, ws.length < n) (ts : List Token) :
    parseForIn n (.ofList (bytesToks (forToks lines words) ++
        Keyword.kwDo.token :: ts)) =
      .ok (words.map (·.map (Word.mapLit byteChars)))
        (.ofList (Keyword.kwDo.token :: ts)) := by
  cases words with
  | none => rfl
  | some ws =>
    have hws := forWords_reads lines ws (h ws rfl)
      (Keyword.kwDo.token :: ts) n (hn ws rfl)
    have hsep : parseForSep (.ofList ((breakToken lines).mapLit byteChars ::
        Keyword.kwDo.token :: ts)) = .ok () (.ofList (Keyword.kwDo.token :: ts)) := by
      cases lines with
      | true =>
        show (advance >>= fun _ => skipNewlines)
          (Toks.ofList (.newline :: Keyword.kwDo.token :: ts)) = _
        rw [bind_of_ok (advance_ofList _ _)]
        exact skipNewlines_ofList _ nofun
      | false =>
        show (advance >>= fun _ => skipNewlines)
          (Toks.ofList (.semi :: Keyword.kwDo.token :: ts)) = _
        rw [bind_of_ok (advance_ofList _ _)]
        exact skipNewlines_ofList _ nofun
    simp only [forToks, bytesToks_cons, bytesToks_append, bytesToks_nil,
      mapLit_keyword, List.cons_append, List.append_assoc, List.nil_append]
    unfold parseForIn
    rw [cur_bind, if_pos (by rfl), bind_of_ok (advance_ofList _ _),
      bind_of_ok hws, bind_of_ok hsep]
    rfl

/-- A `for` is read back, with or without words. -/
theorem parseFor_reads {var : Text} {words : Option (List Word)} {body : Cmd}
    {redirs : List Redir} (hvar : isValidName var = true)
    (hwords : ∀ ws ∈ words, ∀ w ∈ ws, PlainWord w)
    (hbody : ReadsBody c n lines body) (hredirs : ∀ r ∈ redirs, r.Std)
    (hlen : ∀ ws ∈ words, ws.length < n) (hn : (redirsToks redirs).length < n) :
    Reads followsCommand (parseFor c n)
      ((Cmd.forIn var words body redirs).toks lines)
      ((Cmd.forIn var words body redirs).norm byteChars) := by
  intro rest hrest
  rw [Cmd.toks, Cmd.norm]
  simp only [bytesToks_cons, bytesToks_append, mapLit_keyword, List.cons_append,
    List.append_assoc]
  rw [mapLit_name hvar]
  have hname : ∀ ts, parseForName (.ofList (.word [.lit var] :: ts)) =
      .ok var (.ofList (.word [.lit var] :: ts)) := by
    intro ts
    have hsome : wordAsSimpleName [.lit var] = some var := by
      simp only [wordAsSimpleName]
      rw [if_pos hvar]
    simp only [parseForName, cur_bind, cur_ofList_cons, hsome]
    rfl
  have hskip := skipNewlines_ofList (bytesToks (forToks lines words) ++
      Keyword.kwDo.token :: (bytesToks (body.toks lines) ++
      (bytesToks (bodyEnd lines body) ++ Keyword.kwDone.token ::
      (bytesToks (redirsToks redirs) ++ rest)))) (by
    cases words <;> (intro h; cases h))
  unfold parseFor
  rw [bind_of_ok (advance_ofList _ _), bind_of_ok (hname _),
    bind_of_ok (advance_ofList _ _), bind_of_ok hskip,
    bind_of_ok (parseForIn_reads hwords hlen _),
    bind_of_ok (parseDoDone_reads hbody hredirs hn rest hrest)]
  rfl

-- ======== commands

theorem commandBody_simple {s : Toks} (hres : s.cur.reserved = none)
    (hparen : s.cur.isLParen = false) :
    commandBody c n s = parseSimple n c s := by
  unfold commandBody
  rw [cur_bind, hres]
  show (if s.cur.isLParen = true then _ else _ : Parser Cmd) s = _
  rw [if_neg (by simp [hparen])]

theorem commandBody_simple_reads {s : SimpleCmd} (h : s.Std)
    (hn : s.toks.length < n) : Reads followsCommand (commandBody c n)
      ((Cmd.simple s).toks lines) ((Cmd.simple s).norm byteChars) := by
  intro rest hrest
  obtain ⟨t, us, hts, -, hres, hparen, -⟩ := h.opens
  have hread := parseSimple_reads h c rest hrest n hn
  rw [Cmd.toks, Cmd.norm, ← hread]
  apply commandBody_simple
  · rw [hts]
    exact hres
  · rw [hts]
    exact hparen

/-- A function's definition is read back. -/
theorem commandBody_funcDef_reads {name : Text} {body : Cmd}
    (hname : isValidName name = true)
    (hfree : wordAsReserved [.lit name] = none) (hstd : Std .command body)
    (hbody : Reads followsCommand c (body.toks lines) (body.norm byteChars))
    (hn : 0 < n) : Reads followsCommand (commandBody c n)
      ((Cmd.funcDef name body).toks lines)
      ((Cmd.funcDef name body).norm byteChars) := by
  intro rest hrest
  obtain ⟨m, rfl⟩ : ∃ m, n = m + 1 := ⟨n - 1, by omega⟩
  obtain ⟨t, us, hts, hopens, -⟩ := hstd.opens lines
  have hskip := skipNewlines_ofList (bytesToks (body.toks lines) ++ rest)
    (by rw [hts]; exact opens_ne_newline hopens)
  have hsome : funcName ⟨[], [], []⟩ [.lit name] .lParen = some name := by
    show wordAsSimpleName [.lit name] = some name
    simp only [wordAsSimpleName]
    rw [if_pos hname]
  rw [Cmd.toks, Cmd.norm]
  simp only [bytesToks_cons, mapLit_lParen, mapLit_rParen, List.cons_append]
  rw [mapLit_name hname, commandBody_simple (by exact hfree) (by rfl)]
  show simpleLoop c (m + 1) ⟨[], [], []⟩ none _ = _
  rw [simpleLoop_func rfl (advance_ofList _ _) hsome]
  unfold parseFuncDef
  rw [bind_of_ok (advance_ofList _ _), cur_bind]
  show (advance >>= _) (Toks.ofList _) = _
  rw [bind_of_ok (advance_ofList _ _), bind_of_ok hskip,
    bind_of_ok (hbody rest hrest)]
  rfl

end

-- ======== trees

theorem eventually_of_succ {P : Nat → Prop} (h : ∀ᶠ n in atTop, P (n + 1)) :
    ∀ᶠ n in atTop, P n := by
  rw [eventually_atTop] at h ⊢
  obtain ⟨a, ha⟩ := h
  refine ⟨a + 1, fun n hn => ?_⟩
  obtain ⟨m, rfl⟩ : ∃ m, n = m + 1 := ⟨n - 1, by omega⟩
  exact ha m (by omega)

theorem eventually_list {X : Type} {l : List X} {P : X → Nat → Prop}
    (h : ∀ x ∈ l, ∀ᶠ n in atTop, P x n) : ∀ᶠ n in atTop, ∀ x ∈ l, P x n :=
  (eventually_all_finite (List.finite_toSet l)).mpr h

/-- What the parser does on a rendered tree, by its place in the grammar. -/
def ReadBack (lines : Bool) : Level → Cmd → Prop
  | .command, tree => ∀ᶠ n in atTop,
      Reads followsCommand (parseCommand n) (tree.toks lines)
        (tree.norm byteChars)
  | .pipeline, tree => ∀ᶠ n in atTop,
      Reads followsPipeline (parsePipeline (parseCommand n) n)
        (tree.toks lines) (tree.norm byteChars)
  | .andOr, tree => ∃ d, ∀ᶠ n in atTop,
      ReadsChain (parseCommand n) n lines tree d
  | .body, tree => ∀ᶠ n in atTop, ReadsBody (parseCommand n) n lines tree

theorem ReadBack.command {tree : Cmd} (h : ∀ᶠ n in atTop, Reads followsCommand
      (commandBody (parseCommand n) n)
      (tree.toks lines) (tree.norm byteChars)) :
    ReadBack lines .command tree := eventually_of_succ h

theorem ReadBack.reads {tree : Cmd} (h : ReadBack lines .andOr tree) :
    ∀ᶠ n in atTop, Reads followsAndOr (parseAndOr (parseCommand n) n)
      (tree.toks lines) (tree.norm byteChars) := by
  obtain ⟨d, hd⟩ := h
  filter_upwards [hd, eventually_gt_atTop d] with n hchain hn
  exact hchain.reads hn

/-- Every written tree is read back. By induction on the tree, level by
level. -/
theorem Std.readBack {level : Level} {tree : Cmd} (h : Std level tree) :
    ReadBack lines level tree := by
  induction h with
  | simple h =>
    apply ReadBack.command
    filter_upwards [eventually_gt_atTop _] with n hn
    exact commandBody_simple_reads h hn
  | @subshell body redirs h hredirs ih =>
    apply ReadBack.command
    filter_upwards [ih, eventually_gt_atTop (redirsToks redirs).length]
      with n hbody hn
    exact parseSubshell_reads h hbody hredirs hn
  | @group body redirs h hredirs ih =>
    apply ReadBack.command
    filter_upwards [ih, eventually_gt_atTop (redirsToks redirs).length]
      with n hbody hn
    exact parseGroup_reads hbody hredirs hn
  | @ifThen cond body elifs els redirs hcond hb hconds hbodies hels hredirs
      ihc ihb ihcs ihbs ihe =>
    apply ReadBack.command
    have hels : ∀ᶠ n in atTop, ∀ b ∈ els,
        ReadsBody (parseCommand n) n lines b := by
      cases els with
      | none => exact Eventually.of_forall nofun
      | some b =>
        filter_upwards [ihe b rfl] with n hb b' hb'
        cases hb'
        exact hb
    filter_upwards [ihc, ihb, eventually_list ihcs, eventually_list ihbs, hels,
      eventually_gt_atTop elifs.length,
      eventually_gt_atTop (redirsToks redirs).length]
      with n hcond hbody hconds hbodies hels helifs hn
    exact parseIf_reads hcond hbody hconds hbodies hels hredirs helifs hn
  | @whileDo cond body untilDo redirs hcond hb hredirs ihc ihb =>
    apply ReadBack.command
    filter_upwards [ihc, ihb, eventually_gt_atTop (redirsToks redirs).length]
      with n hcond hbody hn
    cases untilDo with
    | true => exact parseWhile_reads hcond hbody hredirs hn
    | false => exact parseWhile_reads hcond hbody hredirs hn
  | @forIn var words body redirs hvar hwords h hredirs ih =>
    apply ReadBack.command
    have hlen : ∀ᶠ n in atTop, ∀ ws ∈ words, ws.length < n := by
      cases words with
      | none => exact Eventually.of_forall nofun
      | some ws =>
        filter_upwards [eventually_gt_atTop ws.length] with n hn ws' hws
        cases hws
        exact hn
    filter_upwards [ih, hlen, eventually_gt_atTop (redirsToks redirs).length]
      with n hbody hlen hn
    exact parseFor_reads hvar hwords hbody hredirs hlen hn
  | funcDef hname hfree h ih =>
    apply ReadBack.command
    filter_upwards [ih, eventually_gt_atTop 0] with n hbody hn
    exact commandBody_funcDef_reads hname hfree h hbody hn
  | stage h ih =>
    filter_upwards [ih] with n hread
    exact parsePipeline_stage h hread
  | @pipeline negated first parts hfirst hparts hwrap ihf ihp =>
    filter_upwards [ihf, eventually_list ihp, eventually_gt_atTop parts.length]
      with n hf hp hn
    exact parsePipeline_reads hfirst hparts hwrap hf hp hn
  | operand h ih =>
    refine ⟨0, ?_⟩
    filter_upwards [ih] with n hread
    exact parseAndOr_operand hread
  | andOr hleft hright ihl ihr =>
    obtain ⟨d, hd⟩ := ihl
    refine ⟨d + 1, ?_⟩
    filter_upwards [hd, ihr, eventually_gt_atTop d] with n hchain hread hn
    exact parseAndOr_chain hright hchain hread hn
  | item h ih =>
    filter_upwards [ReadBack.reads ih, eventually_gt_atTop 1] with n hread hn
    exact parseItems_item h hread hn
  | @list items hne h ih =>
    filter_upwards [eventually_list fun i hi => ReadBack.reads (ih i hi),
      eventually_gt_atTop items.length] with n hread hn
    exact parseItems_list h hread hn

theorem programRule_admits : programRule.Admits := by
  intro t ht
  cases t <;> first | rfl | cases ht

theorem parseText_ofList {src : Text} {ts : List Token} {n : Nat}
    (h : tokens src = .ofList ts) :
    parseText n src = outcome (parseProgram n (.ofList ts)) := by
  unfold parseText
  rw [h]
  cases ts <;> rfl

theorem parseText_render (lines : Bool) {tree : Cmd} (h : Std .body tree) :
    ∀ᶠ n in atTop, parseText n (tree.render lines) = .ok (tree.norm byteChars) := by
  have hspell : Spellable (bodyToks lines tree) :=
    bodyToks_spellable (h.spellable lines)
  have hread : ReadBack lines .body tree := h.readBack
  filter_upwards [hread] with n hbody
  have hitems := hbody programRule [] programRule_admits rfl nofun
  have htoks : bytesToks (bodyToks lines tree) =
      bytesToks (tree.toks lines) ++ (bytesToks (bodyEnd lines tree) ++ []) := by
    rw [bodyToks, bytesToks_append, List.append_nil]
  have htokens : tokens (tree.render lines) =
      .ofList (bytesToks (bodyToks lines tree)) := tokens_spell hspell
  rw [parseText_ofList htokens, htoks]
  unfold parseProgram
  rw [bind_of_ok hitems, norm_body]
  rfl

end LinuxRs.Shell
