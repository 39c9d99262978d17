/-
How far `$((...))` and `$(...)` reach.

# What the scanner counts

`readBalanced` copies quoted regions as they stand. For `$(` it counts single
parentheses; for `$((` it looks two characters ahead, takes `((` and `))` for
its parentheses wherever it meets them, and scans nested substitutions by
itself. `Spans` is that reading of a body, and a body is read back exactly if
it is read so to its end (`readBalanced_spans`, `readBalanced_sound`).

# Where this is not the body that was meant

A `)` at the end of an expression pairs with the first of the two that close
it, pairs of different levels are taken for one, and a command that starts
with `(` is read as an expression. Bytes outside ASCII are copied one by one.
-/
import LinuxRs.Shell.Quoting

namespace LinuxRs.Shell

-- ======== regions

/-- What stands in double quotes, with the closing one. -/
inductive DoubleBody : Text → Prop where
  | close : DoubleBody ['"']
  | escape (c : Char) {t : Text} : DoubleBody t → DoubleBody ('\\' :: c :: t)
  | char {c : Char} {t : Text} : c ≠ '"' → c ≠ '\\' → DoubleBody t →
      DoubleBody (c :: t)

/-- What is copied as it stands: a quoted region, or an escaped character. -/
inductive Quoted : Text → Prop where
  | single {t : Text} : '\'' ∉ t → Quoted ('\'' :: (t ++ ['\'']))
  | double {t : Text} : DoubleBody t → Quoted ('"' :: t)
  | escape (c : Char) : Quoted ['\\', c]

def isBare (c : Char) : Bool := c != '\'' && c != '"' && c != '\\'

/-- A body as it is scanned from a depth on down to the outermost level: by
single parentheses, or by pairs of them. -/
inductive Spans : Bool → Nat → Text → Prop where
  | nil (pairs : Bool) : Spans pairs 0 []
  | quoted {pairs : Bool} {d : Nat} {q t : Text} :
      Quoted q → Spans pairs d t → Spans pairs d (q ++ t)
  | opens {d : Nat} {t : Text} : Spans false (d + 1) t → Spans false d ('(' :: t)
  | closes {d : Nat} {t : Text} : Spans false d t → Spans false (d + 1) (')' :: t)
  | plain {d : Nat} {c : Char} {t : Text} : isBare c = true → c ≠ '(' →
      c ≠ ')' → Spans false d t → Spans false d (c :: t)
  | arith {d : Nat} {e t : Text} : Spans true 0 e → Spans true d t →
      Spans true d (['$', '(', '('] ++ e ++ [')', ')'] ++ t)
  | cmd {d : Nat} {c t : Text} : Spans false 0 c → c.head? ≠ some '(' →
      Spans true d t → Spans true d (['$', '('] ++ c ++ [')'] ++ t)
  | opensPair {d : Nat} {t : Text} :
      Spans true (d + 1) t → Spans true d ('(' :: '(' :: t)
  | closesPair {d : Nat} {t : Text} :
      Spans true d t → Spans true (d + 1) (')' :: ')' :: t)
  | single {d : Nat} {c : Char} {t : Text} : isBare c = true →
      (c = '$' ∨ c = '(' → t.head? ≠ some '(') → (c = ')' →
      t ≠ [] ∧ t.head? ≠ some ')') → Spans true d t → Spans true d (c :: t)

def closer : Bool → Text
  | true => [')', ')']
  | false => [')']

-- ======== the steps

theorem copySingle_spec {t : Text} (h : '\'' ∉ t) (rest out : Text) :
    copySingle (t ++ '\'' :: rest) out = (out ++ t ++ ['\''], rest) := by
  induction t generalizing out with
  | nil => simp [copySingle]
  | cons c t ih =>
    have hne : c ≠ '\'' := fun heq => h (heq ▸ List.mem_cons_self)
    have ht : '\'' ∉ t := fun hmem => h (List.mem_cons_of_mem _ hmem)
    simp [copySingle, hne, ih ht]

theorem copyDouble_spec {t : Text} (h : DoubleBody t) (rest out : Text) :
    copyDouble (t ++ rest) out = (out ++ t, rest) := by
  induction h generalizing out with
  | close =>
    unfold copyDouble
    rfl
  | @escape c t _ ih =>
    show copyDouble ('\\' :: c :: (t ++ rest)) out = _
    unfold copyDouble
    rw [if_pos rfl]
    simp [ih]
  | @char c t hq hb _ ih =>
    show copyDouble (c :: (t ++ rest)) out = _
    unfold copyDouble
    rw [if_neg hb, if_neg hq, ih]
    simp

variable {fuel depth : Nat} {pairs : Bool} {out rest : Text}

theorem readBalanced_quoted {q : Text} (h : Quoted q) (src : Text) :
    readBalanced (fuel + 1) pairs depth (q ++ src) out =
      readBalanced fuel pairs depth src (out ++ q) := by
  cases h with
  | @single t ht =>
    have hcopy := copySingle_spec ht src (out ++ ['\''])
    simp only [List.cons_append, List.append_assoc, List.nil_append] at hcopy ⊢
    conv_lhs => unfold readBalanced
    rw [if_pos rfl, hcopy]
  | @double t ht =>
    have hcopy := copyDouble_spec ht src (out ++ ['"'])
    simp only [List.cons_append, List.append_assoc, List.nil_append] at hcopy ⊢
    conv_lhs => unfold readBalanced
    rw [if_neg (by decide), if_pos rfl, hcopy]
  | escape c =>
    simp only [List.cons_append, List.nil_append]
    conv_lhs => unfold readBalanced
    rw [if_neg (by decide), if_neg (by decide), if_pos rfl]

theorem isBare_iff {c : Char} :
    isBare c = true ↔ c ≠ '\'' ∧ c ≠ '"' ∧ c ≠ '\\' := by
  simp [isBare, and_assoc]

theorem readBalanced_bare {c : Char} (h : isBare c = true) (src : Text) :
    readBalanced (fuel + 1) false depth (c :: src) out =
      if c = '(' then readBalanced fuel false (depth + 1) src (out ++ [c])
      else if c = ')' then
        if depth = 1 then .ok (out, src)
        else readBalanced fuel false (depth - 1) src (out ++ [c])
      else readBalanced fuel false depth src (out ++ [c]) := by
  obtain ⟨h1, h2, h3⟩ := isBare_iff.mp h
  conv_lhs => unfold readBalanced
  rw [if_neg h1, if_neg h2, if_neg h3, if_neg Bool.false_ne_true]

theorem readBalanced_arith (src : Text) :
    readBalanced (fuel + 1) true depth ('$' :: '(' :: '(' :: src) out =
      (readBalanced fuel true 1 src []).bind fun r =>
        readBalanced fuel true depth r.2
          (out ++ ['$', '(', '('] ++ r.1 ++ [')', ')']) := by
  conv_lhs => unfold readBalanced
  rw [if_neg (by decide), if_neg (by decide), if_neg (by decide), if_pos rfl]
  cases h : readBalanced fuel true 1 src [] with
  | error e => simp [h, Except.bind]
  | ok r => simp [h, Except.bind]

theorem readBalanced_cmd {src : Text} (h : src.head? ≠ some '(') :
    readBalanced (fuel + 1) true depth ('$' :: '(' :: src) out =
      (readBalanced fuel false 1 src []).bind fun r =>
        readBalanced fuel true depth r.2
          (out ++ ['$', '('] ++ r.1 ++ [')']) := by
  conv_lhs => unfold readBalanced
  rw [if_neg (by decide), if_neg (by decide), if_neg (by decide), if_pos rfl]
  cases src with
  | nil =>
    cases hrun : readBalanced fuel false 1 [] [] with
    | error e => simp [hrun, Except.bind]
    | ok r => simp [hrun, Except.bind]
  | cons c src =>
    have hne : c ≠ '(' := fun heq => h (congrArg some heq)
    cases hrun : readBalanced fuel false 1 (c :: src) [] with
    | error e => simp [hrun, hne, Except.bind]
    | ok r => simp [hrun, hne, Except.bind]

theorem readBalanced_opensPair (src : Text) :
    readBalanced (fuel + 1) true depth ('(' :: '(' :: src) out =
      readBalanced fuel true (depth + 1) src (out ++ ['(', '(']) := by
  conv_lhs => unfold readBalanced
  rw [if_neg (by decide), if_neg (by decide), if_neg (by decide), if_pos rfl]
  simp

theorem readBalanced_closesPair (src : Text) :
    readBalanced (fuel + 1) true depth (')' :: ')' :: src) out =
      if depth = 1 then .ok (out, src)
      else readBalanced fuel true (depth - 1) src (out ++ [')', ')']) := by
  conv_lhs => unfold readBalanced
  rw [if_neg (by decide), if_neg (by decide), if_neg (by decide), if_pos rfl]
  simp

theorem readBalanced_single {c : Char} (h : isBare c = true) {src : Text}
    (hopen : c = '$' ∨ c = '(' → src.head? ≠ some '(')
    (hclose : c = ')' → src.head? ≠ some ')') :
    readBalanced (fuel + 1) true depth (c :: src) out =
      readBalanced fuel true depth src (out ++ [c]) := by
  obtain ⟨h1, h2, h3⟩ := isBare_iff.mp h
  conv_lhs => unfold readBalanced
  rw [if_neg h1, if_neg h2, if_neg h3, if_pos rfl]
  split
  next => exact absurd rfl (hopen (.inl rfl))
  next => exact absurd rfl (hopen (.inl rfl))
  next => exact absurd rfl (hopen (.inr rfl))
  next => exact absurd rfl (hclose rfl)
  next => rfl

-- ======== the readings

/-- A balanced text is read to its closing. -/
theorem readBalanced_spans {d : Nat} {t : Text} (h : Spans pairs d t)
    (hfuel : t.length < fuel) (rest out : Text) :
    readBalanced fuel pairs (d + 1) (t ++ closer pairs ++ rest) out =
      .ok (out ++ t, rest) := by
  induction h generalizing fuel rest out with
  | nil pairs =>
    obtain ⟨fuel, rfl⟩ : ∃ n, fuel = n + 1 := ⟨fuel - 1, by omega⟩
    cases pairs with
    | false =>
      show readBalanced (fuel + 1) false 1 (')' :: rest) out = _
      rw [readBalanced_bare (by decide), if_neg (by decide), if_pos rfl,
        if_pos rfl, List.append_nil]
    | true =>
      show readBalanced (fuel + 1) true 1 (')' :: ')' :: rest) out = _
      rw [readBalanced_closesPair, if_pos rfl, List.append_nil]
  | @quoted pairs d q t hq _ ih =>
    obtain ⟨fuel, rfl⟩ : ∃ n, fuel = n + 1 := ⟨fuel - 1, by omega⟩
    have hpos : 0 < q.length := by
      cases hq with
      | single _ => exact Nat.succ_pos _
      | double _ => exact Nat.succ_pos _
      | escape c => exact Nat.succ_pos _
    rw [List.length_append] at hfuel
    rw [List.append_assoc, List.append_assoc, readBalanced_quoted hq,
      ← List.append_assoc, ih (by omega), List.append_assoc]
  | @opens d t _ ih =>
    obtain ⟨fuel, rfl⟩ : ∃ n, fuel = n + 1 := ⟨fuel - 1, by omega⟩
    rw [List.length_cons] at hfuel
    rw [List.cons_append, List.cons_append, readBalanced_bare (by decide),
      if_pos rfl, ih (by omega)]
    simp
  | @closes d t _ ih =>
    obtain ⟨fuel, rfl⟩ : ∃ n, fuel = n + 1 := ⟨fuel - 1, by omega⟩
    rw [List.length_cons] at hfuel
    rw [List.cons_append, List.cons_append, readBalanced_bare (by decide),
      if_neg (by decide), if_pos rfl, if_neg (by omega),
      Nat.add_sub_cancel, ih (by omega)]
    simp
  | @plain d c t hbare hopen hclose _ ih =>
    obtain ⟨fuel, rfl⟩ : ∃ n, fuel = n + 1 := ⟨fuel - 1, by omega⟩
    rw [List.length_cons] at hfuel
    rw [List.cons_append, List.cons_append, readBalanced_bare hbare,
      if_neg hopen, if_neg hclose, ih (by omega)]
    simp
  | @arith d e t _ _ ihe iht =>
    obtain ⟨fuel, rfl⟩ : ∃ n, fuel = n + 1 := ⟨fuel - 1, by omega⟩
    simp only [List.length_append, List.length_cons, List.length_nil] at hfuel
    have hinner := @ihe fuel (by omega) (t ++ closer true ++ rest) []
    have hsrc : ['$', '(', '('] ++ e ++ [')', ')'] ++ t ++ closer true ++ rest =
        '$' :: '(' :: '(' :: (e ++ closer true ++
          (t ++ closer true ++ rest)) := by
      simp [closer]
    rw [hsrc, readBalanced_arith, hinner]
    show readBalanced fuel true (d + 1) (t ++ closer true ++ rest) _ = _
    rw [iht (by omega)]
    simp
  | @cmd d c t _ hhead _ ihc iht =>
    obtain ⟨fuel, rfl⟩ : ∃ n, fuel = n + 1 := ⟨fuel - 1, by omega⟩
    simp only [List.length_append, List.length_cons, List.length_nil] at hfuel
    have hinner := @ihc fuel (by omega) (t ++ closer true ++ rest) []
    have hsrc : ['$', '('] ++ c ++ [')'] ++ t ++ closer true ++ rest =
        '$' :: '(' :: (c ++ closer false ++ (t ++ closer true ++ rest)) := by
      simp [closer]
    have hnot : (c ++ closer false ++ (t ++ closer true ++ rest)).head? ≠
        some '(' := by
      cases c with
      | nil => simp [closer]
      | cons b c => simpa using hhead
    rw [hsrc, readBalanced_cmd hnot, hinner]
    show readBalanced fuel true (d + 1) (t ++ closer true ++ rest) _ = _
    rw [iht (by omega)]
    simp
  | @opensPair d t _ ih =>
    obtain ⟨fuel, rfl⟩ : ∃ n, fuel = n + 1 := ⟨fuel - 1, by omega⟩
    simp only [List.length_cons] at hfuel
    simp only [List.cons_append]
    rw [readBalanced_opensPair, ih (by omega)]
    simp
  | @closesPair d t _ ih =>
    obtain ⟨fuel, rfl⟩ : ∃ n, fuel = n + 1 := ⟨fuel - 1, by omega⟩
    simp only [List.length_cons] at hfuel
    simp only [List.cons_append]
    rw [readBalanced_closesPair, if_neg (by omega), Nat.add_sub_cancel,
      ih (by omega)]
    simp
  | @single d c t hbare hopen hclose _ ih =>
    obtain ⟨fuel, rfl⟩ : ∃ n, fuel = n + 1 := ⟨fuel - 1, by omega⟩
    rw [List.length_cons] at hfuel
    rw [List.cons_append, List.cons_append, readBalanced_single hbare ?_ ?_,
      ih (by omega)]
    · simp
    · intro hc
      cases t with
      | nil => simp [closer]
      | cons b t => simpa using hopen hc
    · intro hc
      obtain ⟨hne, hhead⟩ := hclose hc
      cases t with
      | nil => exact absurd rfl hne
      | cons b t => simpa using hhead

theorem copySingle_sound (src out : Text) : (copySingle src out).2 = [] ∨
      ∃ t, '\'' ∉ t ∧ src = t ++ '\'' :: (copySingle src out).2 ∧
        (copySingle src out).1 = out ++ t ++ ['\''] := by
  induction src generalizing out with
  | nil => exact .inl rfl
  | cons c src ih =>
    unfold copySingle
    by_cases hc : c = '\''
    · rw [if_pos hc, hc]
      exact .inr ⟨[], List.not_mem_nil, rfl, by simp⟩
    · rw [if_neg hc]
      refine (ih (out ++ [c])).imp_right fun h => ?_
      obtain ⟨t, ht, hsrc, hout⟩ := h
      refine ⟨c :: t, fun hmem => ?_, congrArg (c :: ·) hsrc, ?_⟩
      · rcases List.mem_cons.mp hmem with heq | hmem
        · exact hc heq.symm
        · exact ht hmem
      · rw [hout]
        simp

theorem copyDouble_sound (src out : Text) : (copyDouble src out).2 = [] ∨
      ∃ t, DoubleBody t ∧ src = t ++ (copyDouble src out).2 ∧
        (copyDouble src out).1 = out ++ t := by
  fun_induction copyDouble src out with
  | case1 => exact .inl rfl
  | case2 => exact .inl rfl
  | case3 out m rest ih =>
    refine ih.imp_right fun h => ?_
    obtain ⟨t, ht, hsrc, hout⟩ := h
    refine ⟨'\\' :: m :: t, .escape m ht, ?_, ?_⟩
    · exact congrArg (fun r => '\\' :: m :: r) hsrc
    · rw [hout]
      simp
  | case4 out rest _ => exact .inr ⟨['"'], .close, rfl, rfl⟩
  | case5 c src out hb hq ih =>
    refine ih.imp_right fun h => ?_
    obtain ⟨t, ht, hsrc, hout⟩ := h
    refine ⟨c :: t, .char hq hb ht, congrArg (c :: ·) hsrc, ?_⟩
    rw [hout]
    simp

theorem readBalanced_nil {r : Text × Text} :
    readBalanced fuel pairs depth [] out ≠ .ok r := by
  cases fuel with
  | zero => exact nofun
  | succ fuel => exact nofun

theorem Spans.behind {d : Nat} {src body : Text} (piece : Text)
    (h : ∃ t, body = out ++ piece ++ t ∧ src = t ++ closer pairs ++ rest ∧
      Spans pairs d t) {d' : Nat}
    (hpiece : ∀ t, Spans pairs d t → src = t ++ closer pairs ++ rest →
      Spans pairs d' (piece ++ t)) :
    ∃ t, body = out ++ t ∧ piece ++ src = t ++ closer pairs ++ rest ∧
      Spans pairs d' t := by
  obtain ⟨t, hbody, hsrc, ht⟩ := h
  refine ⟨piece ++ t, ?_, ?_, hpiece t ht hsrc⟩
  · rw [hbody, List.append_assoc]
  · rw [hsrc]
    simp

/-- What is read is the source up to the closing character. -/
def Scans (fuel : Nat) : Prop :=
  ∀ (pairs : Bool) (d : Nat) (src out body rest : Text),
    readBalanced fuel pairs (d + 1) src out = .ok (body, rest) →
      ∃ t, body = out ++ t ∧ src = t ++ closer pairs ++ rest ∧ Spans pairs d t

theorem Scans.bare (ih : Scans fuel) {d : Nat} {c : Char} {src body : Text}
    (hbare : isBare c = true)
    (h : readBalanced (fuel + 1) false (d + 1) (c :: src) out =
      .ok (body, rest)) :
    ∃ t, body = out ++ t ∧ c :: src = t ++ closer false ++ rest ∧
      Spans false d t := by
  rw [readBalanced_bare hbare] at h
  split at h
  next hopen =>
    exact Spans.behind [c] (ih _ _ _ _ _ _ h) fun t ht _ => by
      rw [hopen]
      exact .opens ht
  next hopen =>
    split at h
    next hclose =>
      split at h
      next hdepth =>
        obtain ⟨rfl, rfl⟩ := Prod.mk.inj (Except.ok.inj h)
        obtain rfl : d = 0 := by omega
        exact ⟨[], (List.append_nil _).symm, by rw [hclose]; rfl, .nil _⟩
      next hdepth =>
        obtain ⟨less, rfl⟩ : ∃ less, d = less + 1 := ⟨d - 1, by omega⟩
        exact Spans.behind [c] (ih _ _ _ _ _ _ h) fun t ht _ => by
          rw [hclose]
          exact .closes ht
    next hclose =>
      exact Spans.behind [c] (ih _ _ _ _ _ _ h)
        fun t ht _ => .plain hbare hopen hclose ht

theorem Scans.nested (ih : Scans fuel) {d : Nat} {inner : Bool} {src body front : Text}
    (h : ((readBalanced fuel inner 1 src []).bind fun r =>
      readBalanced fuel true (d + 1) r.2 (out ++ front ++ r.1 ++ closer inner)) =
        .ok (body, rest)) :
    ∃ e t, body = out ++ (front ++ e ++ closer inner ++ t) ∧
      src = e ++ closer inner ++ (t ++ closer true ++ rest) ∧
      Spans inner 0 e ∧ Spans true d t := by
  cases hrun : readBalanced fuel inner 1 src [] with
  | error e =>
    rw [hrun] at h
    cases h
  | ok r =>
    rw [hrun] at h
    obtain ⟨e, he, hsrc, hspans⟩ := ih inner 0 src [] r.1 r.2 hrun
    obtain ⟨t, hbody, hrest, ht⟩ := ih true d r.2 _ body rest h
    refine ⟨e, t, ?_, ?_, hspans, ht⟩
    · rw [hbody, he]
      simp
    · rw [hsrc, hrest]

theorem Scans.pair (ih : Scans fuel) {d : Nat} {c : Char} {src body : Text}
    (hbare : isBare c = true)
    (h : readBalanced (fuel + 1) true (d + 1) (c :: src) out =
      .ok (body, rest)) :
    ∃ t, body = out ++ t ∧ c :: src = t ++ closer true ++ rest ∧
      Spans true d t := by
  by_cases harith : ∃ more, c :: src = '$' :: '(' :: '(' :: more
  · obtain ⟨more, heq⟩ := harith
    rw [heq] at h ⊢
    rw [readBalanced_arith] at h
    obtain ⟨e, t, hbody, hsrc, he, ht⟩ := ih.nested h
    refine ⟨_, hbody, ?_, .arith he ht⟩
    rw [hsrc]
    simp [closer]
  by_cases hcmd : ∃ more, c :: src = '$' :: '(' :: more
  · obtain ⟨more, heq⟩ := hcmd
    have hhead : more.head? ≠ some '(' := by
      intro hhead
      obtain ⟨tail, rfl⟩ := List.head?_eq_some_iff.mp hhead
      exact harith ⟨tail, heq⟩
    rw [heq] at h ⊢
    rw [readBalanced_cmd hhead] at h
    obtain ⟨e, t, hbody, hsrc, he, ht⟩ := ih.nested h
    refine ⟨_, hbody, ?_, .cmd he ?_ ht⟩
    · rw [hsrc]
      simp [closer]
    · rw [hsrc] at hhead
      cases e with
      | nil => simp
      | cons b e => simpa using hhead
  by_cases hopen : ∃ more, c :: src = '(' :: '(' :: more
  · obtain ⟨more, heq⟩ := hopen
    rw [heq] at h ⊢
    rw [readBalanced_opensPair] at h
    exact Spans.behind ['(', '('] (ih _ _ _ _ _ _ h)
      fun t ht _ => .opensPair ht
  by_cases hclose : ∃ more, c :: src = ')' :: ')' :: more
  · obtain ⟨more, heq⟩ := hclose
    rw [heq] at h ⊢
    rw [readBalanced_closesPair] at h
    split at h
    next hdepth =>
      obtain ⟨rfl, rfl⟩ := Prod.mk.inj (Except.ok.inj h)
      obtain rfl : d = 0 := by omega
      exact ⟨[], (List.append_nil _).symm, rfl, .nil _⟩
    next hdepth =>
      obtain ⟨less, rfl⟩ : ∃ less, d = less + 1 := ⟨d - 1, by omega⟩
      exact Spans.behind [')', ')'] (ih _ _ _ _ _ _ h)
        fun t ht _ => .closesPair ht
  have hnotopen : c = '$' ∨ c = '(' → src.head? ≠ some '(' := by
    intro hc hhead
    obtain ⟨tail, rfl⟩ := List.head?_eq_some_iff.mp hhead
    rcases hc with rfl | rfl
    · exact hcmd ⟨tail, rfl⟩
    · exact hopen ⟨tail, rfl⟩
  have hnotclose : c = ')' → src.head? ≠ some ')' := by
    intro hc hhead
    obtain ⟨tail, rfl⟩ := List.head?_eq_some_iff.mp hhead
    subst hc
    exact hclose ⟨tail, rfl⟩
  rw [readBalanced_single hbare hnotopen hnotclose] at h
  refine Spans.behind [c] (ih _ _ _ _ _ _ h) fun t ht hsrc => ?_
  refine .single hbare (fun hc hhead => hnotopen hc ?_) (fun hc => ⟨?_, ?_⟩) ht
  · obtain ⟨tail, rfl⟩ := List.head?_eq_some_iff.mp hhead
    rw [hsrc]
    rfl
  · intro hnil
    have hempty : t = [] := hnil
    rw [hsrc, hempty] at hnotclose
    exact hnotclose hc rfl
  · intro hhead
    obtain ⟨tail, rfl⟩ := List.head?_eq_some_iff.mp hhead
    rw [hsrc] at hnotclose
    exact hnotclose hc rfl

/-- What was read to a closing is balanced. By induction on the fuel, with the
kinds of character apart. -/
theorem scans (fuel : Nat) : Scans fuel := by
  induction fuel with
  | zero =>
    intro pairs d src out body rest h
    cases h
  | succ fuel ih =>
    intro pairs d src out body rest h
    cases src with
    | nil => exact absurd h readBalanced_nil
    | cons c src =>
      by_cases h1 : c = '\''
      · subst h1
        unfold readBalanced at h
        rw [if_pos rfl] at h
        rcases copySingle_sound src (out ++ ['\'']) with hnil | hregion
        · dsimp only at h
          rw [hnil] at h
          exact absurd h readBalanced_nil
        · obtain ⟨t, ht, hsrc, hout⟩ := hregion
          dsimp only at h
          rw [hout] at h
          have hpiece : '\'' :: src =
              '\'' :: (t ++ ['\'']) ++ (copySingle src (out ++ ['\''])).2 := by
            conv_lhs => rw [hsrc]
            simp
          rw [hpiece]
          refine Spans.behind _ ?_ fun t' ht' _ => .quoted (.single ht) ht'
          have hrest := ih _ _ _ _ _ _ h
          simpa using hrest
      by_cases h2 : c = '"'
      · subst h2
        unfold readBalanced at h
        rw [if_neg (by decide), if_pos rfl] at h
        rcases copyDouble_sound src (out ++ ['"']) with hnil | hregion
        · dsimp only at h
          rw [hnil] at h
          exact absurd h readBalanced_nil
        · obtain ⟨t, ht, hsrc, hout⟩ := hregion
          dsimp only at h
          rw [hout] at h
          have hpiece : '"' :: src =
              '"' :: t ++ (copyDouble src (out ++ ['"'])).2 := by
            conv_lhs => rw [hsrc]
            simp
          rw [hpiece]
          refine Spans.behind _ ?_ fun t' ht' _ => .quoted (.double ht) ht'
          have hrest := ih _ _ _ _ _ _ h
          simpa using hrest
      by_cases h3 : c = '\\'
      · subst h3
        cases src with
        | nil =>
          unfold readBalanced at h
          rw [if_neg (by decide), if_neg (by decide), if_pos rfl] at h
          exact absurd h readBalanced_nil
        | cons b src =>
          rw [show '\\' :: b :: src = ['\\', b] ++ src from rfl,
            readBalanced_quoted (.escape b)] at h
          exact Spans.behind ['\\', b] (ih _ _ _ _ _ _ h)
            fun t' ht' _ => .quoted (.escape b) ht'
      have hbare : isBare c = true := isBare_iff.mpr ⟨h1, h2, h3⟩
      cases pairs with
      | false => exact ih.bare hbare h
      | true => exact ih.pair hbare h

-- ======== words

/-- What stands behind a `$` is read as one segment whatever follows, and as
one word where a word may end. -/
structure LexedAs (word : Text) (seg : Seg) : Prop where
  extent : ∀ fuel rest, (byteChars word ++ rest).length < fuel →
    readDollar fuel (byteChars word ++ rest) = .ok (seg, rest)
  token : ∀ rest, Delimited rest →
    nextToken ('$' :: byteChars word ++ rest) = .ok (.word [seg], rest)

def arithWord (e : Text) : Text := ['(', '('] ++ e ++ [')', ')']

def cmdWord (c : Text) : Text := ['('] ++ c ++ [')']

/-- A word that one segment fills is lexed as that segment. -/
theorem token_of_extent {word : Text} {seg : Seg}
    (hseg : ∀ text, seg ≠ .lit text)
    (h : ∀ fuel rest, (byteChars word ++ rest).length < fuel →
      readDollar fuel (byteChars word ++ rest) = .ok (seg, rest)) :
    LexedAs word seg := by
  refine ⟨h, fun rest hrest => ?_⟩
  unfold nextToken
  rw [List.cons_append, nextTokenWith_word rfl rfl]
  obtain ⟨fuel, hfuel⟩ : ∃ fuel,
      lexFuel ('$' :: (byteChars word ++ rest)) = fuel + 2 := by
    refine ⟨2 * (byteChars word ++ rest).length + 2, ?_⟩
    simp only [lexFuel, List.length_cons]
    omega
  have hread := h (fuel + 1) rest (by
    simp only [lexFuel, List.length_cons] at hfuel
    omega)
  have hword : readWord (fuel + 2) ('$' :: (byteChars word ++ rest)) =
      .ok ([seg], rest) := by
    have hloop := readWordLoop_delimited hrest fuel [seg] [] false
    simp [readWord, readWordLoop, isWordEnd, hread, hloop, flush]
  rw [hfuel, hword]
  cases seg with
  | lit text => exact absurd rfl (hseg text)
  | sQuoted text => simp [wordToken, ioNumber]
  | dQuoted segs => simp [wordToken, ioNumber]
  | param name op arg length => simp [wordToken, ioNumber]
  | cmdSub src => simp [wordToken, ioNumber]
  | arith src => simp [wordToken, ioNumber]
  | tilde name => simp [wordToken, ioNumber]

theorem byteChars_arithWord (e : Text) :
    byteChars (arithWord e) = ['(', '('] ++ byteChars e ++ [')', ')'] := by
  unfold arithWord
  rw [byteChars_append, byteChars_append]
  rfl

theorem byteChars_cmdWord (c : Text) :
    byteChars (cmdWord c) = ['('] ++ byteChars c ++ [')'] := by
  unfold cmdWord
  rw [byteChars_append, byteChars_append]
  rfl

theorem all_isAscii_of_byteChars {t : Text} (h : byteChars t = t) :
    t.all isAscii = true := by
  apply List.all_eq_true.mpr
  intro c hc
  cases hascii : isAscii c with
  | true => rfl
  | false =>
    have hlt := length_lt_byteChars hc hascii
    rw [h] at hlt
    exact absurd hlt (Nat.lt_irrefl _)

theorem readDollar_arith (src : Text) :
    readDollar (fuel + 1) ('(' :: '(' :: src) =
      (readBalanced fuel true 1 src []).map fun r => (.arith r.1, r.2) := by
  conv_lhs => unfold readDollar
  rw [if_pos rfl]
  cases h : readBalanced fuel true 1 src [] with
  | error e => simp [h, Except.map]
  | ok r => simp [h, Except.map]

theorem readDollar_cmd {src : Text} (h : src.head? ≠ some '(') :
    readDollar (fuel + 1) ('(' :: src) =
      (readBalanced fuel false 1 src []).map fun r => (.cmdSub r.1, r.2) := by
  conv_lhs => unfold readDollar
  rw [if_pos rfl]
  cases src with
  | nil =>
    cases hrun : readBalanced fuel false 1 [] [] with
    | error e => simp [hrun, Except.map]
    | ok r => simp [hrun, Except.map]
  | cons c src =>
    have hne : c ≠ '(' := fun heq => h (congrArg some heq)
    cases hrun : readBalanced fuel false 1 (c :: src) [] with
    | error e => simp [hrun, hne, Except.map]
    | ok r => simp [hrun, hne, Except.map]

-- ======== the law

def Balanced (t : Text) : Prop := Spans false 0 t

/-- Cut from the left into regions, nested substitutions, `((`, `))` and
other characters, the pairs are balanced, and no `)` is left at the end. -/
def InPairs (t : Text) : Prop := Spans true 0 t

theorem spans_of_read {t : Text}
    (h : readBalanced fuel pairs 1 (byteChars t ++ closer pairs) [] =
      .ok (t, [])) : t.all isAscii = true ∧ Spans pairs 0 t := by
  obtain ⟨s, hs, hsrc, hspans⟩ := scans fuel pairs 0 _ [] t [] h
  rw [List.nil_append] at hs
  rw [List.append_nil] at hsrc
  have heq : byteChars t = t := by
    rw [← hs] at hsrc
    exact List.append_cancel_right hsrc
  refine ⟨all_isAscii_of_byteChars heq, ?_⟩
  rw [hs]
  exact hspans

/-- An arithmetic expansion ends where its parentheses do. -/
theorem arith_lexed_iff (e : Text) :
    LexedAs (arithWord e) (.arith e) ↔ e.all isAscii = true ∧ InPairs e := by
  constructor
  · intro h
    have hread := h.extent ((byteChars (arithWord e)).length + 1) [] (by simp)
    have hsrc : byteChars (arithWord e) ++ [] =
        '(' :: '(' :: (byteChars e ++ closer true) := by
      rw [byteChars_arithWord]
      simp [closer]
    rw [hsrc, readDollar_arith] at hread
    cases hrun : readBalanced (byteChars (arithWord e)).length true 1
        (byteChars e ++ closer true) [] with
    | error err =>
      rw [hrun] at hread
      cases hread
    | ok r =>
      rw [hrun] at hread
      obtain ⟨hseg, hrest⟩ := Prod.mk.inj (Except.ok.inj hread)
      have hr : r = (e, []) := Prod.ext (Seg.arith.inj hseg) hrest
      rw [hr] at hrun
      exact spans_of_read hrun
  · intro h
    obtain ⟨hascii, hpairs⟩ := h
    apply token_of_extent (fun text heq => by cases heq)
    intro fuel rest hfuel
    rw [byteChars_arithWord, byteChars_of_all hascii] at hfuel ⊢
    obtain ⟨fuel, rfl⟩ : ∃ n, fuel = n + 1 := ⟨fuel - 1, by omega⟩
    have hsrc : ['(', '('] ++ e ++ [')', ')'] ++ rest =
        '(' :: '(' :: (e ++ closer true ++ rest) := by
      simp [closer]
    simp only [List.length_append, List.length_cons, List.length_nil] at hfuel
    rw [hsrc, readDollar_arith, readBalanced_spans hpairs (by omega) rest []]
    rfl

theorem readDollar_ne_cmd (src c : Text) :
    readDollar (fuel + 1) ('(' :: '(' :: src) ≠ .ok (.cmdSub c, rest) := by
  rw [readDollar_arith]
  cases readBalanced fuel true 1 src [] with
  | error e => exact nofun
  | ok r => exact nofun

/-- A command substitution ends where its parentheses do. -/
theorem cmd_lexed_iff (c : Text) : LexedAs (cmdWord c) (.cmdSub c) ↔
      c.all isAscii = true ∧ c.head? ≠ some '(' ∧ Balanced c := by
  constructor
  · intro h
    have hread := h.extent ((byteChars (cmdWord c)).length + 1) [] (by simp)
    have hsrc : byteChars (cmdWord c) ++ [] =
        '(' :: (byteChars c ++ closer false) := by
      rw [byteChars_cmdWord]
      simp [closer]
    rw [hsrc] at hread
    have hhead : (byteChars c ++ closer false).head? ≠ some '(' := by
      intro hhead
      obtain ⟨tail, htail⟩ := List.head?_eq_some_iff.mp hhead
      rw [htail] at hread
      exact readDollar_ne_cmd _ _ hread
    rw [readDollar_cmd hhead] at hread
    cases hrun : readBalanced (byteChars (cmdWord c)).length false 1
        (byteChars c ++ closer false) [] with
    | error err =>
      rw [hrun] at hread
      cases hread
    | ok r =>
      rw [hrun] at hread
      obtain ⟨hseg, hrest⟩ := Prod.mk.inj (Except.ok.inj hread)
      have hr : r = (c, []) := Prod.ext (Seg.cmdSub.inj hseg) hrest
      rw [hr] at hrun
      obtain ⟨hascii, hspans⟩ := spans_of_read hrun
      refine ⟨hascii, fun hopen => ?_, hspans⟩
      obtain ⟨tail, rfl⟩ := List.head?_eq_some_iff.mp hopen
      rw [byteChars_of_all hascii] at hhead
      exact hhead rfl
  · intro h
    obtain ⟨hascii, hhead, hbalanced⟩ := h
    apply token_of_extent (fun text heq => by cases heq)
    intro fuel rest hfuel
    rw [byteChars_cmdWord, byteChars_of_all hascii] at hfuel ⊢
    obtain ⟨fuel, rfl⟩ : ∃ n, fuel = n + 1 := ⟨fuel - 1, by omega⟩
    have hsrc : ['('] ++ c ++ [')'] ++ rest =
        '(' :: (c ++ closer false ++ rest) := by
      simp [closer]
    have hnot : (c ++ closer false ++ rest).head? ≠ some '(' := by
      cases c with
      | nil => simp [closer]
      | cons b c => simpa using hhead
    simp only [List.length_append, List.length_cons, List.length_nil] at hfuel
    rw [hsrc, readDollar_cmd hnot,
      readBalanced_spans hbalanced (by omega) rest []]
    rfl

/-- `$((E))` is one segment with body `E` exactly if `E` is ASCII and its
parentheses are balanced in pairs; `$(C)` is one exactly if `C` is ASCII, does
not start with `(`, and its parentheses are balanced. -/
theorem substitution_extents_iff (e c : Text) :
    (LexedAs (arithWord e) (.arith e) ↔ e.all isAscii = true ∧ InPairs e) ∧
    (LexedAs (cmdWord c) (.cmdSub c) ↔
      c.all isAscii = true ∧ c.head? ≠ some '(' ∧ Balanced c) :=
  ⟨arith_lexed_iff e, cmd_lexed_iff c⟩

/-- `(1)` has balanced parentheses, and `$(((1)))` is read as the expression
`(1` with a parenthesis behind it; `(a)` and `é` are commands with balanced
parentheses, and are not read back. -/
theorem extents_misread : (Balanced ['(', '1', ')'] ∧
      ¬ LexedAs (arithWord ['(', '1', ')']) (.arith ['(', '1', ')'])) ∧
    (Balanced ['(', 'a', ')'] ∧
      ¬ LexedAs (cmdWord ['(', 'a', ')']) (.cmdSub ['(', 'a', ')'])) ∧
    (Balanced ['é'] ∧ ¬ LexedAs (cmdWord ['é']) (.cmdSub ['é'])) := by
  refine ⟨⟨?_, ?_⟩, ⟨?_, ?_⟩, ?_, ?_⟩
  · exact .opens (.plain (by decide) (by decide) (by decide)
      (.closes (.nil _)))
  · intro h
    have hread := h.extent 20 [] (by decide)
    have hrun : readDollar 20 (byteChars (arithWord ['(', '1', ')']) ++ []) =
        .ok (.arith ['(', '1'], [')']) := by rfl
    rw [hrun] at hread
    cases hread
  · exact .opens (.plain (by decide) (by decide) (by decide)
      (.closes (.nil _)))
  · intro h
    have hread := h.extent 20 [] (by decide)
    have hrun : readDollar 20 (byteChars (cmdWord ['(', 'a', ')']) ++ []) =
        .ok (.arith ['a'], []) := by rfl
    rw [hrun] at hread
    cases hread
  · exact .plain (by decide) (by decide) (by decide) (.nil _)
  · intro h
    have hread := h.extent 20 [] (by decide)
    have hrun : readDollar 20 (byteChars (cmdWord ['é']) ++ []) =
        .ok (.cmdSub (byteChars ['é']), []) := by rfl
    rw [hrun] at hread
    have hbytes : byteChars ['é'] = ['é'] :=
      Seg.cmdSub.inj (Prod.mk.inj (Except.ok.inj hread)).1
    exact absurd (congrArg List.length hbytes) (by decide)

end LinuxRs.Shell
